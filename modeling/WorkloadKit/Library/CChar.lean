import Mathlib.Data.Int.Notation

namespace WorkloadKit

-- A plain `char` of C. Whether it is signed is left to the platform.
abbrev CChar := BitVec 8

-- The `int` that a plain `char` is promoted to.
def CChar.promote (signed : Bool) (c : CChar) : ℤ :=
  if signed then c.toInt else c.toNat

end WorkloadKit
