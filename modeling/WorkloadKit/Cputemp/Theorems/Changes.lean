import Mathlib.Algebra.Order.Group.Nat
import Mathlib.Algebra.Ring.Int.Defs
import Mathlib.Data.List.Forall2
import WorkloadKit.Cputemp.State

namespace WorkloadKit.Cputemp

section

variable {D : Type*} [Zero D]

-- What is assumed of a chip: its first feature is a temperature without a fault, and each call reads it as
-- the given value.
structure Reads (chip : Chip D) (val : D) : Prop where
  isTemp : chip.feature.isTemp = true
  label  : chip.feature.label ≠ none
  fault  : ∀ result ∈ chip.feature.fault, getValue result = 0
  input  : chip.feature.input = some (some val, some val)

-- The readings of the core chips during a scan.
def Readable (chips : List (Chip D)) (n : ℕ) (reading : ℕ → D) : Prop :=
  List.Forall₂ Reads (chips.filter Chip.isCore) ((List.range n).map reading)

end

variable {D F : Type*} (toFloat : D → F) (reading : ℕ → ℕ → D)

-- A tracepoint is emitted for the reading with the index `j` of the scan with the index `t`.
def Emitted (out : List (List (Option D))) (t j : ℕ) : Prop :=
  ∃ events, out[t]? = some events ∧ ∃ val, events[j]? = some (some val)

-- A reading is the first one of its chip, or it differs from the previous one of the same chip.
def Changed : (t j : ℕ) → Prop
  | 0,     _ => True
  | t + 1, j => toFloat (reading t j) ≠ toFloat (reading (t + 1) j)

-- The value that comes before a reading, if the readings of all `n` chips are put in a row.
def before [Zero F] (n : ℕ) : (t j : ℕ) → F
  | 0,     0     => 0
  | t + 1, 0     => toFloat <| reading t (n - 1)
  | t,     j + 1 => toFloat <| reading t j

-- During the first scan, no reading is the same as the one before it. After that, a reading is the same as
-- the one before it if and only if it is the same as the previous one of the same chip.
structure Apart [Zero F] (n scans : ℕ) : Prop where
  first : ∀ j < n, before toFloat reading n 0 j ≠ toFloat (reading 0 j)
  later : ∀ t, t + 1 < scans → ∀ j < n, before toFloat reading n (t + 1) j = toFloat (reading (t + 1) j) ↔
    toFloat (reading t j) = toFloat (reading (t + 1) j)

variable [DecidableEq F]

-- The tracepoints for some values that are read one after the other.
def changes (buff : F) (vals : List D) : List (Option D) :=
  List.zipWith (fun b val => if b ≠ toFloat val then some val else none) (buff :: vals.map toFloat) vals

variable {toFloat reading} {n m t j k : ℕ}

theorem changes_getElem? [Zero F] (hj : j < n) :
    (changes toFloat (before toFloat reading n t 0) <| (List.range n).map (reading t))[j]? =
      some (if before toFloat reading n t j ≠ toFloat (reading t j) then some (reading t j) else none) := by
  have hv : ((List.range n).map (reading t))[j]? = some (reading t j) := by simp [hj]
  have hb : (before toFloat reading n t 0 :: ((List.range n).map (reading t)).map toFloat)[j]? =
      some (before toFloat reading n t j) := by
    cases j
    case zero   => rfl
    case succ j => simp [Nat.lt_of_succ_lt hj, before]
  rw [changes, List.getElem?_zipWith, hb, hv]

variable [Zero D] [DecidableEq D] {scan : ℕ → List (Chip D)} {chips : List (Chip D)}
  {vals : List D} {buff : F} {chip : Chip D} {val : D} {repeatVal : ℤ}

theorem printChip_of_reads (h : Reads chip val) :
    printChip toFloat buff chip = (toFloat val, if buff ≠ toFloat val then some val else none) := by
  have hf : ¬chip.feature.fault.any (getValue · ≠ 0) = true := by
    simpa [Option.any_eq_true] using h.fault
  rw [printChip, if_pos h.isTemp, printChipTemp, if_neg h.label, if_neg hf, h.input]
  simp only [checkGenTrace, Option.getD_some]
  split <;> simp_all

-- The variable holds the last one of all values, whichever chip it is of.
theorem doTheRealWork_of_reads (h : List.Forall₂ Reads (chips.filter Chip.isCore) vals) :
    doTheRealWork toFloat buff chips =
      ((vals.map toFloat).getLast?.getD buff, changes toFloat buff vals) := by
  induction chips generalizing buff vals
  case nil =>
    cases h
    rfl
  case cons chip chips hi =>
    rw [doTheRealWork]
    cases hc : chip.isCore
    case false =>
      rw [List.filter_cons_of_neg (by simp [hc])] at h
      exact hi h
    case true =>
      rw [List.filter_cons_of_pos hc] at h
      cases h
      case cons val vals hr h =>
        simp only [if_true, printChip_of_reads hr, hi h, List.map_cons, List.getLast?_cons,
          Option.getD_some]
        rfl

variable [Zero F]

theorem doTheRealWork_of_readable (h : Readable chips n (reading t)) :
    doTheRealWork toFloat (before toFloat reading n t 0) chips =
      (if n = 0 then before toFloat reading n t 0 else before toFloat reading n (t + 1) 0,
        changes toFloat (before toFloat reading n t 0) <| (List.range n).map (reading t)) := by
  rw [doTheRealWork_of_reads h]
  cases n
  case zero   => rfl
  case succ n => simp [List.range_succ, before]

variable (toFloat)

theorem scans_getElem? (hn : n ≠ 0) (hr : ∀ s < t + m, Readable (scan s) n (reading s)) (hk : k < m) :
    (scans toFloat scan m t <| before toFloat reading n t 0)[k]? =
      some (changes toFloat (before toFloat reading n (t + k) 0) <|
        (List.range n).map (reading (t + k))) := by
  induction m generalizing t k
  case zero => contradiction
  case succ m hi =>
    rw [scans, doTheRealWork_of_readable <| hr t <| by omega, if_neg hn]
    cases k
    case zero => rfl
    case succ k =>
      have h := hi (t := t + 1) (k := k) (fun s hs => hr s <| by omega) (by omega)
      rw [List.getElem?_cons_succ, h, Nat.add_right_comm, Nat.add_assoc]

-- A tracepoint is emitted if a reading differs from the one before it.
theorem emitted_iff (hr : ∀ t < scanCount repeatVal, Readable (scan t) n (reading t))
    (ht : t < scanCount repeatVal) (hj : j < n) :
    Emitted (main toFloat scan repeatVal) t j ↔ before toFloat reading n t j ≠ toFloat (reading t j) := by
  have hs := scans_getElem? toFloat (t := 0) (Nat.ne_zero_of_lt hj) (by simpa using hr) ht
  rw [Nat.zero_add] at hs
  simp only [Emitted, main]
  rw [show (0 : F) = before toFloat reading n 0 0 from rfl, hs]
  simp only [Option.some.injEq, exists_eq_left', changes_getElem? hj]
  split <;> simp_all

-- The tracepoints are those of the changes of the single chips, if and only if the readings of all chips
-- change where the ones of the single chips do.
theorem changes_traced_iff (hr : ∀ t < scanCount repeatVal, Readable (scan t) n (reading t)) :
    (∀ t < scanCount repeatVal, ∀ j < n,
      Emitted (main toFloat scan repeatVal) t j ↔ Changed toFloat reading t j) ↔
    Apart toFloat reading n (scanCount repeatVal) := by
  have h {t j} (ht : t < scanCount repeatVal) (hj : j < n) := emitted_iff toFloat hr ht hj
  constructor
  case mp =>
    intro hc
    refine ⟨fun j hj => ?_, fun t ht j hj => ?_⟩
    · exact (h (Nat.succ_pos _) hj).mp <| (hc 0 (Nat.succ_pos _) j hj).mpr trivial
    · have := (h ht hj).symm.trans <| hc (t + 1) ht j hj
      exact not_iff_not.mp this
  case mpr =>
    intro ha t ht j hj
    rw [h ht hj]
    cases t
    case zero   => exact iff_of_true (ha.first j hj) trivial
    case succ t => exact (ha.later t ht j hj).not

def coreChip (val : ℤ) : Chip ℤ where
  chipPrefix := "coretemp".toList
  feature    := { isTemp := true, label := some "Core", fault := none, input := some (some val, some val) }

theorem readable_coreChip (reading : ℕ → ℤ) (n : ℕ) :
    Readable ((List.range n).map fun j => coreChip <| reading j) n reading := by
  have hc (val : ℤ) : (coreChip val).isCore = true := rfl
  have hf : ((List.range n).map fun j => coreChip <| reading j).filter Chip.isCore = _ :=
    List.filter_eq_self.mpr <| by simp [hc]
  rw [Readable, hf, List.forall₂_map_left_iff, List.forall₂_map_right_iff]
  exact List.forall₂_same.mpr fun j _ => ⟨rfl, nofun, nofun, rfl⟩

-- Two chips that get warmer with each scan.
theorem changes_traced_warmer :
    let reading : ℕ → ℕ → ℤ := fun t j => 10 * t + j + 40
    let scan : ℕ → List (Chip ℤ) := fun t => (List.range 2).map fun j => coreChip <| reading t j
    ∀ t < 3, ∀ j < 2, Emitted (main id scan 3) t j ↔ Changed id reading t j := by
  intro reading scan
  have ha : Apart id reading 2 3 := by
    constructor
    case first =>
      intro j hj
      rcases Nat.lt_succ_iff_lt_or_eq.mp hj with hj | rfl
      · obtain rfl := Nat.lt_one_iff.mp hj
        decide
      · decide
    case later =>
      intro t _ j hj
      rcases Nat.lt_succ_iff_lt_or_eq.mp hj with hj | rfl
      · obtain rfl := Nat.lt_one_iff.mp hj
        simp only [before, reading, id_eq]
        omega
      · simp only [before, reading, id_eq]
        omega
  exact (changes_traced_iff id fun t (_ : t < scanCount 3) => readable_coreChip (reading t) 2).mpr ha

-- Two chips whose temperatures stay the same.
theorem not_changes_traced :
    ¬∀ (scan : ℕ → List (Chip ℤ)) (n : ℕ) (reading : ℕ → ℕ → ℤ) (repeatVal : ℤ),
      (∀ t < scanCount repeatVal, Readable (scan t) n (reading t)) →
      ∀ t < scanCount repeatVal, ∀ j < n,
        Emitted (main id scan repeatVal) t j ↔ Changed id reading t j := by
  intro h
  let reading : ℕ → ℕ → ℤ := fun _ j => 10 * j + 40
  let scan : ℕ → List (Chip ℤ) := fun t => (List.range 2).map fun j => coreChip <| reading t j
  have hr : ∀ t < scanCount 2, Readable (scan t) 2 (reading t) := fun t _ => readable_coreChip (reading t) 2
  have he := (emitted_iff id hr (t := 1) (j := 0) (by decide) (by decide)).mpr <| by decide
  exact (h scan 2 reading 2 hr 1 (by decide) 0 (by decide)).mp he rfl

end WorkloadKit.Cputemp
