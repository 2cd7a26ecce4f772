import WorkloadKit.Library.Segment
import WorkloadKit.Pulse.State

namespace WorkloadKit.Pulse

open CString

variable {online : ℤ} {cpus : List ℤ} {toks args : List (List Char)} {opts : List Opt}
  {exp exp' : Experiment} {tok input : List Char} {i : ℕ}

-- The second loop stores the values of all tokens if it does not return early.
theorem fill_fst (h : ¬(fill online cpus i toks).fst < 0) (hi : i + toks.length ≤ cpus.length) :
    fill online cpus i toks = (0, splice cpus i (toks.map cpuOf)) := by
  induction toks generalizing cpus i
  case nil => simp [fill, splice]
  case cons tok toks hi' =>
    rw [fill] at h ⊢
    split at h
    case isTrue => exact absurd (show (-1 : ℤ) < 0 by decide) h
    case isFalse hc =>
      split at h
      case isTrue => exact absurd (show (-1 : ℤ) < 0 by decide) h
      case isFalse hr =>
        rw [List.length_cons] at hi
        rw [if_neg hc, if_neg hr, hi' h (by rw [List.length_set]; omega), splice_set (by omega),
          List.map_cons]

-- A call of `pincpu_parse` that succeeds.
theorem pincpuParse_eq (cpuset : Pincpu) (h : ¬(pincpuParse online cpuset input).fst < 0) :
    (pincpuParse online cpuset input).snd = {
      cpus   := (strtok ',' input).map cpuOf ++ List.replicate cpuset.nrcpus 0
      nrcpus := cpuset.nrcpus + (strtok ',' input).length } := by
  simp only [pincpuParse] at h ⊢
  rw [fill_fst h (by simp)]
  simp [splice]

-- The arguments of the options `--cpuset`.
def cpusetArgs (opts : List Opt) : List (List Char) :=
  opts.filterMap fun
    | .cpuset optarg => some optarg
    | _              => none

-- A call of `pincpu_parse` replaces the array, but it counts the tokens of the earlier calls in.
def Pincpu.extend (cpuset : Pincpu) (input : List Char) : Pincpu where
  cpus   := (strtok ',' input).map cpuOf ++ List.replicate cpuset.nrcpus 0
  nrcpus := cpuset.nrcpus + (strtok ',' input).length

theorem foldlM_parseOpt (h : opts.foldlM (parseOpt online) exp = some exp') :
    exp'.cpuset = (cpusetArgs opts).foldl Pincpu.extend exp.cpuset := by
  induction opts generalizing exp
  case nil => cases h; rfl
  case cons opt opts hi =>
    obtain ⟨exp₁, he, h⟩ := Option.bind_eq_some_iff.mp h
    rw [hi h]
    cases opt
    case cpuset optarg =>
      simp only [parseOpt, Option.ite_none_left_eq_some, Option.some.injEq] at he
      obtain ⟨hr, rfl⟩ := he
      rw [pincpuParse_eq exp.cpuset hr]
      rfl
    all_goals cases he <;> rfl

-- After all calls, the tokens of all arguments have been counted, but only those of the last one are stored.
theorem foldl_extend_append : (args ++ [input]).foldl Pincpu.extend ⟨[], 0⟩ = {
    cpus   := (strtok ',' input).map cpuOf ++ List.replicate (args.flatMap <| strtok ',').length 0
    nrcpus := (args.flatMap <| strtok ',').length + (strtok ',' input).length } := by
  have hn : (args.foldl Pincpu.extend ⟨[], 0⟩).nrcpus = (args.flatMap <| strtok ',').length := by
    induction args using List.reverseRecOn
    case nil => rfl
    case append_singleton args arg hi => simp [Pincpu.extend, hi]
  simp [Pincpu.extend, hn]

-- A token that is a plain decimal number below the number of online processors.
def Plain (online : ℤ) (tok : List Char) : Prop :=
  (∀ c ∈ tok, c.isDigit = true) ∧ (decimal tok : ℤ) < online

instance : Decidable (Plain online tok) :=
  @instDecidableAnd _ _ (List.decidableBAll _ tok) (inferInstanceAs <| Decidable (_ < _))

-- The ids that the user asks for.
def given (opts : List Opt) : List ℤ :=
  ((cpusetArgs opts).flatMap <| strtok ',').map fun tok => (decimal tok : ℤ)

theorem cpuOf_of_plain (ho : online < 2 ^ 31) (hn : tok ≠ []) (hp : Plain online tok) :
    cpuOf tok = decimal tok := by
  have hl : (decimal tok : ℤ) < 2 ^ 31 := hp.right.trans ho
  rw [cpuOf, strtol_of_isDigit hn hp.left <| by rw [LONG_MAX]; omega]
  exact Int.bmod_eq_of_le (by omega) (by omega)

theorem map_cpuOf (ho : online < 2 ^ 31) (hp : ∀ tok ∈ strtok ',' input, Plain online tok) :
    (strtok ',' input).map cpuOf = (strtok ',' input).map fun tok => (decimal tok : ℤ) := by
  refine List.map_congr_left fun tok ht => cpuOf_of_plain ho ?_ (hp tok ht)
  simpa using (List.mem_filter.mp ht).right

-- The options contain a last `--cpuset`, as the parser does not accept an empty set.
theorem parseOpts_cpuset (h : parseOpts online opts = some exp) :
    0 < exp.cpuset.nrcpus ∧ ∃ args input, cpusetArgs opts = args ++ [input] ∧
      exp.cpuset = (args ++ [input]).foldl Pincpu.extend ⟨[], 0⟩ := by
  obtain ⟨exp', he, h⟩ := Option.bind_eq_some_iff.mp h
  obtain ⟨hn, hx⟩ := Option.ite_none_left_eq_some.mp h
  obtain rfl := Option.some.inj hx
  have hc := foldlM_parseOpt he
  refine ⟨Nat.pos_of_ne_zero hn, ?_⟩
  rcases List.eq_nil_or_concat (cpusetArgs opts) with ha | ⟨args, input, ha⟩
  case inl =>
    rw [hc, ha] at hn
    contradiction
  case inr =>
    rw [List.concat_eq_append] at ha
    exact ⟨args, input, ha, ha ▸ hc⟩

theorem cpuset_length (he : exp.cpuset = (args ++ [input]).foldl Pincpu.extend ⟨[], 0⟩) :
    exp.cpuset.nrcpus = exp.cpuset.cpus.length := by
  rw [he, foldl_extend_append]
  simp [Nat.add_comm]

-- Each thread is pinned to an element of the array, and each element is the one for some thread.
theorem forall_pulsePincpu_iff {given : List ℤ} (hl : exp.cpuset.nrcpus = exp.cpuset.cpus.length)
    (hp : 0 < exp.cpuset.nrcpus) :
    ((∀ k < exp.cpuset.nrcpus, ∃ cpu ∈ given, exp.cpuset.cpus[k]? = some cpu) ∧
      ∀ id, ∃ cpu ∈ given, pulsePincpu exp id = some cpu) ↔ ∀ cpu ∈ exp.cpuset.cpus, cpu ∈ given := by
  have hmem : (∀ k < exp.cpuset.nrcpus, ∃ cpu ∈ given, exp.cpuset.cpus[k]? = some cpu) ↔
      ∀ cpu ∈ exp.cpuset.cpus, cpu ∈ given := by
    rw [hl, List.forall_mem_iff_forall_getElem]
    exact forall₂_congr fun k hk => by simp [List.getElem?_eq_getElem hk]
  rw [hmem, and_iff_left_iff_imp]
  exact fun h id => hmem.mpr h _ <| Nat.mod_lt id hp

-- All CPUs of the set are among those that have been asked for, if and only if those are all in the last
-- option or the CPU 0, which fills up the array, is one of them.
theorem cpus_given_iff (ho : online < 2 ^ 31)
    (ha : ∀ arg ∈ cpusetArgs opts, ∀ tok ∈ strtok ',' arg, Plain online tok)
    (h : parseOpts online opts = some exp) :
    0 < exp.cpuset.nrcpus ∧
    (((∀ k < exp.cpuset.nrcpus, ∃ cpu ∈ given opts, exp.cpuset.cpus[k]? = some cpu) ∧
      ∀ id, ∃ cpu ∈ given opts, pulsePincpu exp id = some cpu) ↔
        (∀ arg ∈ (cpusetArgs opts).dropLast, strtok ',' arg = []) ∨ 0 ∈ given opts) := by
  have ⟨hpos, args, input, he, hc⟩ := parseOpts_cpuset h
  have hm := map_cpuOf ho <| ha input <| by simp [he]
  have hg : ∀ cpu ∈ (strtok ',' input).map cpuOf, cpu ∈ given opts := by
    rw [hm, given, he, List.flatMap_append, List.map_append, List.flatMap_singleton]
    exact fun _ => List.mem_append_right _
  refine ⟨hpos, ?_⟩
  rw [forall_pulsePincpu_iff (cpuset_length hc) hpos, hc, foldl_extend_append, he, List.dropLast_concat]
  simp only [List.forall_mem_append, List.mem_replicate, and_imp]
  have hz : (args.flatMap <| strtok ',').length = 0 ↔ ∀ arg ∈ args, strtok ',' arg = [] := by
    rw [List.length_eq_zero_iff, List.flatMap_eq_nil_iff]
  rw [←hz]
  constructor
  case mp =>
    intro ⟨_, h₀⟩
    by_cases hl : (args.flatMap <| strtok ',').length = 0
    case pos => exact .inl hl
    case neg => exact .inr <| h₀ 0 hl rfl
  case mpr =>
    intro hor
    refine ⟨hg, fun cpu hl hcpu => ?_⟩
    exact hcpu ▸ hor.resolve_left hl

-- Two options, of which the second one gives the CPU 0.
theorem cpus_given_two :
    ∃ exp, parseOpts 4 [.cpuset ['1'], .cpuset ['0', ',', '2']] = some exp ∧ 0 < exp.cpuset.nrcpus ∧
      ∀ id, ∃ cpu ∈ [1, 0, 2], pulsePincpu exp id = some cpu := by
  let opts : List Opt := [.cpuset ['1'], .cpuset ['0', ',', '2']]
  have he : (parseOpts 4 opts).isSome := by decide
  have ⟨exp, he⟩ := Option.isSome_iff_exists.mp he
  have hp : ∀ arg ∈ cpusetArgs opts, ∀ tok ∈ strtok ',' arg, Plain 4 tok := by
    decide
  have ⟨hpos, hiff⟩ := cpus_given_iff (by decide) hp he
  exact ⟨exp, he, hpos, (hiff.mpr <| .inr <| by decide).right⟩

-- The array consists of 2 and of the 0 that it has been filled up with.
theorem not_cpus_given :
    ¬∀ online opts exp, online < 2 ^ 31 →
      (∀ arg ∈ cpusetArgs opts, ∀ tok ∈ strtok ',' arg, Plain online tok) →
      parseOpts online opts = some exp →
      ∀ k < exp.cpuset.nrcpus, ∃ cpu ∈ given opts, exp.cpuset.cpus[k]? = some cpu := by
  intro h
  let opts : List Opt := [.cpuset ['1'], .cpuset ['2']]
  have he : (parseOpts 4 opts).map (fun exp => (exp.cpuset.nrcpus, exp.cpuset.cpus)) =
      some (2, [2, 0]) := by decide
  have ⟨exp, he, hc⟩ := Option.map_eq_some_iff.mp he
  have ⟨hn, hc⟩ := Prod.mk.inj hc
  have hp : ∀ arg ∈ cpusetArgs opts, ∀ tok ∈ strtok ',' arg, Plain 4 tok := by
    decide
  have ⟨cpu, hg, hk⟩ := h 4 opts exp (by decide) hp he 1 <| by rw [hn]; decide
  rw [hc] at hk
  obtain rfl := Option.some.inj hk
  exact absurd hg (by decide)

end WorkloadKit.Pulse
