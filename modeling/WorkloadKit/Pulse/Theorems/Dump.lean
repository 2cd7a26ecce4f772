import WorkloadKit.Pulse.Theorems.Pincpu

namespace WorkloadKit.Pulse

open CString

variable {online x : ℤ} {ids : List ℤ} {toks : List (List Char)} {input : List Char} {cpuset : Pincpu} {i k : ℕ}

-- The indices that the second loop of `pincpu_parse` writes to.
def written (online : ℤ) (i : ℕ) : List (List Char) → List ℕ
  | []          => []
  | tok :: toks =>
    if cpuOf tok ≥ online then
      []
    else if (strtol tok).snd ≠ [] then
      []
    else
      i :: written online (i + 1) toks

-- The loop stores the tokens at these indices, and does nothing else.
theorem fill_snd (cpus : List ℤ) : (fill online cpus i toks).snd =
    ((written online i toks).zip <| toks.map cpuOf).foldl (fun cpus w => cpus.set w.fst w.snd) cpus := by
  induction toks generalizing i cpus
  case nil => rfl
  case cons tok toks hi =>
    rw [fill, written]
    split
    case isTrue => rfl
    case isFalse =>
      split
      case isTrue  => rfl
      case isFalse => exact hi _

theorem lt_of_mem_written (h : k ∈ written online i toks) : k < i + toks.length := by
  induction toks generalizing i
  case nil => cases h
  case cons tok toks hi =>
    rw [written] at h
    split at h
    case isTrue => cases h
    case isFalse =>
      split at h
      case isTrue => cases h
      case isFalse =>
        rw [List.length_cons]
        rcases List.mem_cons.mp h with rfl | h
        · omega
        · have := hi h
          omega

theorem dumpCpuset_cons : dumpCpuset ⟨x :: ids, ids.length + 1⟩ =
    printd x ++ (if ids ≠ [] then [','] else []) ++ dumpCpuset ⟨ids, ids.length⟩ := by
  have hc : (0 ≠ ids.length + 1 - 1) ↔ ids ≠ [] := by simp [eq_comm]
  simp only [dumpCpuset, List.range_succ_eq_map, List.flatMap_cons, List.flatMap_map, List.getD_cons_zero, hc]
  refine congrArg _ <| List.flatMap_congr fun k hk => ?_
  have hk := List.mem_range.mp hk
  have hc : (k + 1 ≠ ids.length + 1 - 1) ↔ k ≠ ids.length - 1 := by omega
  simp only [List.getD_cons_succ, hc]

-- The loop over the indices prints the ids with a comma between any two of them.
theorem dumpCpuset_eq_intercalate : dumpCpuset ⟨ids, ids.length⟩ = [','].intercalate (ids.map printd) := by
  induction ids
  case nil => rfl
  case cons x ids hi =>
    rw [List.length_cons, dumpCpuset_cons, hi, List.map_cons]
    by_cases hn : ids = []
    case pos => simp [hn]
    case neg =>
      rw [List.intercalate_cons_of_ne_nil <| mt List.map_eq_nil_iff.mp hn, if_pos hn]

theorem strtok_dumpCpuset (h : ids ≠ []) : strtok ',' (dumpCpuset ⟨ids, ids.length⟩) = ids.map printd := by
  rw [dumpCpuset_eq_intercalate]
  refine strtok_intercalate (mt List.map_eq_nil_iff.mp h) ?_ ?_
  · exact List.forall_mem_map.mpr fun _ _ => printd_ne_nil _
  · exact List.forall_mem_map.mpr fun _ _ => not_mem_printd (by decide) (by decide)

theorem cpuOf_printd (hl : 0 ≤ x) (hu : x < 2 ^ 31) : cpuOf (printd x) = x := by
  rw [cpuOf, strtol_of_numeral <| numeral_printd x, toInt_saturate hl hu]

theorem not_rejects_printd (ho : online < 2 ^ 31) (hl : 0 ≤ x) (hu : x < online) :
    ¬Rejects online (printd x) := by
  rw [Rejects, cpuOf_printd hl <| hu.trans ho, strtol_of_numeral <| numeral_printd x]
  simpa using hu

-- What has been printed for a list of ids is parsed to this list.
theorem pincpuParse_dumpCpuset (ho : online < 2 ^ 31) (hn : ids ≠ []) (hi : ∀ c ∈ ids, 0 ≤ c ∧ c < online) :
    pincpuParse online ⟨[], 0⟩ (dumpCpuset ⟨ids, ids.length⟩) = (0, ⟨ids, ids.length⟩) ∧
    ∀ k ∈ written online 0 (strtok ',' (dumpCpuset ⟨ids, ids.length⟩)), k < ids.length := by
  have ht := strtok_dumpCpuset hn
  have hf : (pincpuParse online ⟨[], 0⟩ (dumpCpuset ⟨ids, ids.length⟩)).fst = 0 := by
    refine fill_of_not_rejects ?_
    rw [ht]
    exact List.forall_mem_map.mpr fun c hc => not_rejects_printd ho (hi c hc).left (hi c hc).right
  have hs : (pincpuParse online ⟨[], 0⟩ (dumpCpuset ⟨ids, ids.length⟩)).snd = ⟨ids, ids.length⟩ := by
    have hm : (ids.map printd).map cpuOf = ids := by
      rw [List.map_map]
      exact (List.map_congr_left fun c hc => cpuOf_printd (hi c hc).left <| (hi c hc).right.trans ho).trans
        (List.map_id ids)
    rw [pincpuParse_eq ⟨[], 0⟩ <| by omega, ht, hm]
    simp
  refine ⟨Prod.ext hf hs, fun k hk => ?_⟩
  have hk := lt_of_mem_written hk
  rwa [ht, List.length_map, Nat.zero_add] at hk

theorem pincpuParse_dumpCpuset_three :
    pincpuParse 16 ⟨[], 0⟩ (dumpCpuset ⟨[10, 0, 10], 3⟩) = (0, ⟨[10, 0, 10], 3⟩) ∧
    ∀ k ∈ written 16 0 (strtok ',' (dumpCpuset ⟨[10, 0, 10], 3⟩)), k < 3 :=
  pincpuParse_dumpCpuset (by decide) (List.cons_ne_nil _ _) (by decide)

end WorkloadKit.Pulse
