import WorkloadKit.Utils.Theorems.Profile

namespace WorkloadKit.Utils

open Profile CString

variable {x y : Timespec} {data : ℕ → Timespec} {prof : Profile ℚ} {k n : ℕ}

-- A borrow leaves a number of nanoseconds that is less than a second.
theorem Timespec.Normalized.timeSub (hx : x.Normalized) (hy : y.Normalized) : (timeSub x y).Normalized := by
  have := hx.nonneg
  have := hx.lt
  have := hy.nonneg
  have := hy.lt
  rw [Utils.timeSub]
  split
  case isTrue  => exact ⟨by dsimp only; omega, by dsimp only; omega⟩
  case isFalse => exact ⟨by dsimp only; omega, by dsimp only; omega⟩

-- A single carry is enough for the sum of two normalized values.
theorem Timespec.Normalized.timeAdd (hx : x.Normalized) (hy : y.Normalized) : (timeAdd x y).Normalized := by
  have := hx.nonneg
  have := hx.lt
  have := hy.nonneg
  have := hy.lt
  rw [Utils.timeAdd]
  dsimp only
  split
  case isTrue  => exact ⟨by dsimp only; omega, by dsimp only; omega⟩
  case isFalse => exact ⟨by dsimp only; omega, by dsimp only; omega⟩

theorem delta_normalized (h : ∀ i ≤ n, (data i).Normalized) (hk : k < n) : (delta data k).Normalized :=
  (h _ hk).timeSub <| h _ hk.le

theorem total_normalized (h : ∀ i ≤ n, (data i).Normalized) (hk : k ≤ n) : (total data k).Normalized := by
  induction k
  case zero       => exact ⟨le_rfl, show (0 : ℤ) < 1000000000 by decide⟩
  case succ k hi => exact (hi <| by omega).timeAdd <| delta_normalized h hk

theorem toLong_intCast (z : ℤ) : toLong z = z := by
  simp [toLong]

-- The numbers that are written are the intervals.
theorem rows_eq (hd : prof.data = some data) :
    prof.rows = some ((List.range (prof.repeats - 1).toNat).map fun i => ⟨i, interval data i⟩) := by
  simp only [rows, hd, Option.map_some, timespecToDoubleNs_eq, delta_ns, toLong_intCast]

theorem sum_map_interval : ((List.range n).map (interval data)).sum = (data n).ns - (data 0).ns := by
  induction n
  case zero       => simp
  case succ n hi => simp [List.range_succ, hi, interval]

-- The second column of a file, without the first line. A field that is not a number is `none`.
def nsecColumn (text : List Char) : List (Option ℤ) :=
  ((strtok '\n' text).drop 1).map fun line => (strtok ';' line)[1]?.bind numeral

-- A line without the character that ends it.
def Row.line (row : Row) : List Char :=
  [printd row.iter, printd row.nsec].flatMap (· ++ [';'])

theorem Row.strtok_line (row : Row) : strtok ';' row.line = [printd row.iter, printd row.nsec] := by
  refine strtok_flatMap ?_ ?_
  all_goals
    simp only [List.forall_mem_cons, List.not_mem_nil, false_implies, implies_true, and_true]
  case refine_1 => exact ⟨printd_ne_nil _, printd_ne_nil _⟩
  case refine_2 => exact ⟨not_mem_printd (by decide) (by decide), not_mem_printd (by decide) (by decide)⟩

theorem Row.newline_notMem (row : Row) : '\n' ∉ row.line := by
  have h (x : ℤ) : '\n' ∉ printd x := not_mem_printd (by decide) (by decide)
  simp [line, h]

theorem Row.format_eq : Row.format = (·.line ++ ['\n']) := by
  funext row
  simp [format, line]

-- What is read from the file are the numbers that have been written to it.
theorem nsecColumn_rows (rows : List Row) :
    nsecColumn ("iter;nsec;\n".toList ++ rows.flatMap Row.format) = rows.map fun row => some row.nsec := by
  have hl : "iter;nsec;\n".toList ++ rows.flatMap Row.format =
      ("iter;nsec;".toList :: rows.map Row.line).flatMap (· ++ ['\n']) := by
    simp [List.flatMap_map, Row.format_eq]
  have hs : strtok '\n' (("iter;nsec;".toList :: rows.map Row.line).flatMap (· ++ ['\n'])) =
      "iter;nsec;".toList :: rows.map Row.line := by
    refine strtok_flatMap ?_ ?_
    case refine_1 => simp [Row.line]
    case refine_2 =>
      refine List.forall_mem_cons.mpr ⟨by decide, fun line hm => ?_⟩
      obtain ⟨row, _, rfl⟩ := List.mem_map.mp hm
      exact row.newline_notMem
  rw [nsecColumn, hl, hs, List.drop_one, List.tail_cons, List.map_map]
  refine List.map_congr_left fun row _ => ?_
  simp [Row.strtok_line, numeral_printd]

theorem exists_profileSave (hd : prof.data = some data) :
    ∃ text, profileSave prof = some text ∧
      nsecColumn text = ((List.range (prof.repeats - 1).toNat).map (interval data)).map some := by
  rw [profileSave, rows_eq hd, Option.map_some]
  refine ⟨_, rfl, ?_⟩
  rw [nsecColumn_rows, List.map_map, List.map_map]
  rfl

-- The differences, their total, and the column of the file are exact, and all values are normalized.
theorem profile_exact (hr : 1 ≤ prof.repeats) (hd : prof.data = some data)
    (hz : ∀ i : ℕ, i < prof.repeats → (data i).Normalized) :
    let last := (prof.repeats - 1).toNat
    (∀ i < last, (delta data i).Normalized ∧ (delta data i).ns = (data (i + 1)).ns - (data i).ns) ∧
      (∀ k ≤ last, (total data k).Normalized) ∧
      (total data last).ns = (data last).ns - (data 0).ns ∧
      ∃ text column, profileSave prof = some text ∧ nsecColumn text = column.map some ∧
        column = (List.range last).map (fun i => (delta data i).ns) ∧
        column.sum = (data last).ns - (data 0).ns := by
  intro last
  have hz : ∀ i ≤ last, (data i).Normalized := fun i hi => hz i <| by omega
  obtain ⟨text, ht, hc⟩ := exists_profileSave hd
  refine ⟨fun i hi => ⟨delta_normalized hz hi, delta_ns⟩, fun k hk => total_normalized hz hk, total_ns,
    text, _, ht, hc, ?_, sum_map_interval⟩
  simp only [delta_ns, last]

-- Three timestamps, between the first two of which there is a borrow.
theorem profile_exact_borrow :
    let data : ℕ → Timespec := fun i => if i = 0 then ⟨1, 999999999⟩ else ⟨3, 5 * i⟩
    ∃ text, ∃ column : List ℤ, profileSave (Profile.mk 3 0 0 (some data)) = some text ∧
      nsecColumn text = column.map some ∧
      column.sum = 1000000011 := by
  intro data
  have hz (i : ℕ) (hi : i < (3 : ℤ)) : (data i).Normalized := by
    by_cases h : i = 0
    case pos => simp only [data, if_pos h]; exact ⟨by decide, by decide⟩
    case neg =>
      simp only [data, if_neg h]
      exact ⟨by simp only; omega, by simp only; omega⟩
  have ⟨_, _, _, text, column, ht, hc, _, hs⟩ := @profile_exact data ⟨3, 0, 0, some data⟩ (by decide) rfl hz
  exact ⟨text, column, ht, hc, hs.trans <| by norm_num [data, Timespec.ns]⟩

end WorkloadKit.Utils
