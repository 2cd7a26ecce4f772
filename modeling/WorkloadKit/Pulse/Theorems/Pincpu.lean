import WorkloadKit.Pulse.Theorems.Cpuset

namespace WorkloadKit.Pulse

open CString

variable {online c : ℤ} {cpus : List ℤ} {toks : List (List Char)} {tok input : List Char} {i : ℕ}

-- A token which makes the second loop end early.
def Rejects (online : ℤ) (tok : List Char) : Prop :=
  cpuOf tok ≥ online ∨ (strtol tok).snd ≠ []

-- A token denotes the number of an online CPU.
structure Names (online : ℤ) (tok : List Char) (c : ℤ) : Prop where
  numeral : numeral tok = some c
  nonneg  : 0 ≤ c
  lt      : c < online

-- What a call for a fresh `struct pincpu` is meant to do.
structure Parses (online : ℤ) (input : List Char) : Prop where
  accepted : (pincpuParse online ⟨[], 0⟩ input).fst = 0 →
    List.Forall₂ (Names online) (strtok ',' input) (pincpuParse online ⟨[], 0⟩ input).snd.cpus
  rejected : ∀ tok ∈ strtok ',' input, (∀ c, ¬Names online tok c) →
    (pincpuParse online ⟨[], 0⟩ input).fst = -1

theorem fill_of_rejects (h : ∃ tok ∈ toks, Rejects online tok) : (fill online cpus i toks).fst = -1 := by
  induction toks generalizing cpus i
  case nil => simp at h
  case cons tok toks hi =>
    obtain ⟨tok', hm, ht⟩ := h
    rw [fill]
    split
    case isTrue => rfl
    case isFalse hc =>
      split
      case isTrue => rfl
      case isFalse hr =>
        rcases List.mem_cons.mp hm with rfl | hm
        · exact absurd ht <| not_or.mpr ⟨hc, hr⟩
        · exact hi ⟨tok', hm, ht⟩

theorem fill_of_not_rejects (h : ∀ tok ∈ toks, ¬Rejects online tok) : (fill online cpus i toks).fst = 0 := by
  induction toks generalizing cpus i
  case nil => rfl
  case cons tok toks hi =>
    have ⟨ht, hs⟩ := List.forall_mem_cons.mp h
    have ⟨hc, hr⟩ := not_or.mp ht
    rw [fill, if_neg hc, if_neg hr]
    exact hi hs

theorem ne_nil_of_mem_strtok (h : tok ∈ strtok ',' input) : tok ≠ [] := by
  simpa using (List.mem_filter.mp h).right

-- A token is rejected if it is not a number, or if the value that is stored for it is too large.
theorem rejects_iff (h : tok ≠ []) :
    Rejects online tok ↔ ∀ v, numeral tok = some v → online ≤ toInt (saturate v) := by
  cases hv : numeral tok
  case none =>
    have := strtol_of_not_numeral h hv
    simp [Rejects, this]
  case some v =>
    have := strtol_of_numeral hv
    simp [Rejects, cpuOf, this]

-- A number from which nothing is lost, and which is not rejected, is one of an online CPU.
theorem names_of_not_rejects (hn : numeral tok = some c) (hl : 0 ≤ c) (hu : c < 2 ^ 31)
    (hr : ¬Rejects online tok) : Names online tok (cpuOf tok) := by
  have ht := strtol_of_numeral hn
  have hc : cpuOf tok = c := by rw [cpuOf, ht, toInt_saturate hl hu]
  rw [Rejects, hc, not_or, not_le] at hr
  rw [hc]
  exact ⟨hn, hl, hr.left⟩

theorem parses_of_rejects (h : ∃ tok ∈ strtok ',' input, Rejects online tok) : Parses online input := by
  have hf : (pincpuParse online ⟨[], 0⟩ input).fst = -1 := fill_of_rejects h
  exact ⟨fun hz => by omega, fun _ _ _ => hf⟩

-- The CPUs that are stored are those that the tokens denote, as long as each of them denotes one.
theorem parses_iff_of_not_rejects (ho : online < 2 ^ 31) (h : ∀ tok ∈ strtok ',' input, ¬Rejects online tok) :
    Parses online input ↔ ∀ tok ∈ strtok ',' input, ∃ c, Names online tok c := by
  have hf : (pincpuParse online ⟨[], 0⟩ input).fst = 0 := fill_of_not_rejects h
  have hc : (pincpuParse online ⟨[], 0⟩ input).snd.cpus = (strtok ',' input).map cpuOf := by
    rw [pincpuParse_eq ⟨[], 0⟩ <| by omega, List.replicate_zero, List.append_nil]
  constructor
  case mp =>
    intro hp tok ht
    by_contra hn
    have := hp.rejected tok ht <| not_exists.mp hn
    omega
  case mpr =>
    intro hs
    have hn : ∀ tok ∈ strtok ',' input, Names online tok (cpuOf tok) := fun tok ht =>
      have ⟨_, hn⟩ := hs tok ht
      names_of_not_rejects hn.numeral hn.nonneg (hn.lt.trans ho) <| h tok ht
    refine ⟨fun _ => ?_, fun tok ht hc => absurd (hn tok ht) <| hc _⟩
    rw [hc, List.forall₂_map_right_iff]
    exact List.forall₂_same.mpr hn

theorem exists_names_iff (ho : online < 2 ^ 31) (ht : tok ≠ []) (hr : ¬Rejects online tok) :
    (∃ c, Names online tok c) ↔ ∀ v, numeral tok = some v → 0 ≤ v ∧ v < 2 ^ 31 := by
  constructor
  case mp =>
    intro ⟨c, hc⟩ v hv
    obtain rfl := Option.some.inj <| hv.symm.trans hc.numeral
    exact ⟨hc.nonneg, hc.lt.trans ho⟩
  case mpr =>
    intro h
    cases hv : numeral tok
    case none => exact absurd ((rejects_iff ht).mpr <| by simp [hv]) hr
    case some v =>
      have ⟨hl, hu⟩ := h v hv
      exact ⟨_, names_of_not_rejects hv hl hu hr⟩

-- The input is parsed correctly if and only if it is rejected as a token is not a number or as the value
-- that is stored for it is too large, or if no number in it is negative or too large for an `int`.
theorem pincpu_parse_iff (ho : online < 2 ^ 31) : Parses online input ↔
    (∃ tok ∈ strtok ',' input, ∀ v, numeral tok = some v → online ≤ toInt (saturate v)) ∨
    ∀ tok ∈ strtok ',' input, ∀ v, numeral tok = some v → 0 ≤ v ∧ v < 2 ^ 31 := by
  have hr : (∃ tok ∈ strtok ',' input, ∀ v, numeral tok = some v → online ≤ toInt (saturate v)) ↔
      ∃ tok ∈ strtok ',' input, Rejects online tok :=
    exists_congr fun tok => and_congr_right fun ht => (rejects_iff <| ne_nil_of_mem_strtok ht).symm
  rw [hr]
  by_cases h : ∃ tok ∈ strtok ',' input, Rejects online tok
  case pos => exact iff_of_true (parses_of_rejects h) <| .inl h
  case neg =>
    have hn : ∀ tok ∈ strtok ',' input, ¬Rejects online tok := fun tok ht hr => h ⟨tok, ht, hr⟩
    rw [parses_iff_of_not_rejects ho hn, or_iff_right h]
    exact forall₂_congr fun tok ht => exists_names_iff ho (ne_nil_of_mem_strtok ht) <| hn tok ht

theorem pincpu_parse_two : Parses 4 ['1', ',', ' ', '3'] := by
  have ht : strtok ',' ['1', ',', ' ', '3'] = [['1'], [' ', '3']] := by decide
  refine (pincpu_parse_iff (by decide)).mpr <| .inr ?_
  rw [ht]
  intro tok hm v hv
  have hn : numeral tok = some 1 ∨ numeral tok = some 3 := by
    rcases List.mem_pair.mp hm with rfl | rfl
    · exact .inl <| by decide
    · exact .inr <| by decide
  rcases hn with hn | hn
  all_goals
    obtain rfl := Option.some.inj <| hn.symm.trans hv
    decide

-- A negative number is stored as it is.
theorem not_pincpu_parse : ¬∀ online input, online < 2 ^ 31 → Parses online input := by
  intro h
  have ht : strtok ',' ['-', '1'] = [['-', '1']] := by decide
  have hf : (pincpuParse 4 ⟨[], 0⟩ ['-', '1']).fst = 0 := by decide
  have hp := (h 4 ['-', '1'] (by decide)).rejected ['-', '1'] (by rw [ht]; exact List.mem_singleton_self _)
    fun c hc => by
      have hv : numeral ['-', '1'] = some (-1) := by decide
      obtain rfl := Option.some.inj <| hv.symm.trans hc.numeral
      exact absurd hc.nonneg (by decide)
  omega

end WorkloadKit.Pulse
