import Mathlib.Tactic.Common

namespace WorkloadKit

abbrev Byte := BitVec 8

-- The representation of a 32-bit integer in memory, on a little-endian machine.
def toLe32 (x : BitVec 32) : List Byte :=
  [x.extractLsb' 0 8, x.extractLsb' 8 8, x.extractLsb' 16 8, x.extractLsb' 24 8]

-- The integer that the first four bytes of a buffer represent.
def ofLe32 (buf : List Byte) : BitVec 32 :=
  buf.getD 3 0 ++ buf.getD 2 0 ++ buf.getD 1 0 ++ buf.getD 0 0

def ofLe64 (buf : List Byte) : BitVec 64 :=
  ofLe32 (buf.drop 4) ++ ofLe32 buf

-- The content of a buffer after some bytes have been written to its beginning.
def overlay (buf bytes : List Byte) : List Byte :=
  bytes ++ buf.drop bytes.length

theorem ofLe32_toLe32_append (x : BitVec 32) (bytes : List Byte) : ofLe32 (toLe32 x ++ bytes) = x := by
  apply BitVec.eq_of_getLsbD_eq
  intro i hi
  simp only [ofLe32, toLe32, List.cons_append, List.getD_cons_zero, List.getD_cons_succ,
    BitVec.getLsbD_append, BitVec.getLsbD_extractLsb']
  split
  case isTrue h => simp [h]
  split
  case isTrue h => simp [h]; congr 1; omega
  split
  case isTrue h => simp [h]; congr 1; omega
  case isFalse h =>
    have : i - 8 - 8 - 8 < 8 := by omega
    simp [this]
    congr 1
    omega

theorem overlay_of_length_le {buf bytes : List Byte} (h : buf.length ≤ bytes.length) :
    overlay buf bytes = bytes := by
  simp [overlay, List.drop_eq_nil_of_le h]

end WorkloadKit
