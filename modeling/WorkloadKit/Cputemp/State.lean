import Mathlib.Algebra.Notation.Defs
import WorkloadKit.Library.CString

namespace WorkloadKit.Cputemp

-- What the functions of libsensors return for the first feature of a chip during a scan, with `D` in place
-- of `double`. A subfeature is `none` if it does not exist, and a call of `sensors_get_value` is `none` if
-- it returns an error. The input is read twice.
structure Feature (D : Type*) where
  isTemp : Bool
  label  : Option String
  fault  : Option (Option D)
  input  : Option (Option D × Option D)

structure Chip (D : Type*) where
  chipPrefix : List Char
  feature    : Feature D

variable {D F : Type*} [Zero D] [DecidableEq D] [DecidableEq F] (toFloat : D → F)

-- Whether the prefix of a chip contains the string "core".
def Chip.isCore (chip : Chip D) : Bool :=
  CString.strstr chip.chipPrefix "core".toList

def getValue (result : Option D) : D :=
  result.getD 0

-- The global variable `curr_val_buff` after the call, and whether it has been changed.
def checkGenTrace (buff curr : F) : F × Bool :=
  if buff ≠ curr then (curr, true) else (buff, false)

-- The global variable after the call, and the value of the tracepoint if there is one.
def printChipTemp (buff : F) (feature : Feature D) : F × Option D :=
  if feature.label = none then
    (buff, none)
  else if feature.fault.any (getValue · ≠ 0) then
    (buff, none)
  else
    match feature.input with
    | some (some val, again) =>
      -- The second call overwrites the value of the first one, unless it fails.
      let val := again.getD val
      let (buff, changed) := checkGenTrace buff (toFloat val)
      (buff, if changed then some val else none)
    | _ => (buff, none)

def printChip (buff : F) (chip : Chip D) : F × Option D :=
  if chip.feature.isTemp then printChipTemp toFloat buff chip.feature else (buff, none)

-- A scan over the detected chips. The result has an element for each core chip.
def doTheRealWork (buff : F) : List (Chip D) → F × List (Option D)
  | []            => (buff, [])
  | chip :: chips =>
    if chip.isCore then
      let (buff, event) := printChip toFloat buff chip
      let (buff, events) := doTheRealWork buff chips
      (buff, event :: events)
    else
      doTheRealWork buff chips

-- The next `n` scans from the one with the index `t` on.
def scans (scan : ℕ → List (Chip D)) : (n t : ℕ) → F → List (List (Option D))
  | 0,     _, _    => []
  | n + 1, t, buff =>
    let (buff, events) := doTheRealWork toFloat buff (scan t)
    events :: scans scan n (t + 1) buff

-- The number of iterations of `for (i = 1; i < repeat_val; i++)`, which another scan comes after.
def scanCount (repeatVal : ℤ) : ℕ :=
  (repeatVal - 1).toNat + 1

def main [Zero F] (scan : ℕ → List (Chip D)) (repeatVal : ℤ) : List (List (Option D)) :=
  scans toFloat scan (scanCount repeatVal) 0 0

-- The value that a scan returns, which counts the chips of all kinds.
def cnt : List (Chip D) → ℤ
  | []         => 0
  | _ :: chips => cnt chips + 1

end WorkloadKit.Cputemp
