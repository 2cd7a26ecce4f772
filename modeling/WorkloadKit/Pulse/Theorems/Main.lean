import WorkloadKit.Pulse.Main
import WorkloadKit.Pulse.Theorems.Cpuset
import WorkloadKit.Utils.Theorems.Timespec

namespace WorkloadKit.Pulse

open CString Utils

-- A divisor is not zero, the nanoseconds are less than a second, and the timer is accepted and fires.
def Op.Fine : Op → Prop
  | .divide divisor => divisor ≠ 0
  | .nanosleep ts   => ts.Normalized
  | .setitimer usec => 1 ≤ usec ∧ usec ≤ 999999

variable {online usec : ℤ} {opts : List Opt} {exp : Experiment} {clock : ℕ → ℤ} {cont alloc : Bool} {i k : ℕ}

-- The period is not zero unless the frequency is above one per microsecond.
theorem period_mul_le (h : 0 < exp.freq) : 0 ≤ period exp ∧ period exp * exp.freq ≤ 1000000 := by
  rw [period, USEC_PER_SEC, Int.tdiv_eq_ediv_of_nonneg (by decide)]
  exact ⟨Int.ediv_nonneg (by decide) h.le, Int.ediv_mul_le _ h.ne'⟩

theorem period_pos_iff (h : 0 < exp.freq) : 0 < period exp ↔ exp.freq ≤ 1000000 := by
  rw [period, USEC_PER_SEC, Int.tdiv_eq_ediv_of_nonneg (by decide), Int.lt_iff_add_one_le,
    Int.le_ediv_iff_mul_le h]
  omega

theorem period_nonpos (h : exp.freq < 0) : period exp ≤ 0 :=
  Int.tdiv_nonpos_of_nonneg_of_nonpos (by decide) h.le

theorem sync_bounds (hp : 0 < period exp) (hu : 0 ≤ usec) :
    1 ≤ sync exp usec ∧ sync exp usec ≤ period exp := by
  have := Int.tmod_lt_of_pos usec hp
  have := Int.tmod_nonneg (period exp) hu
  rw [sync]
  omega

-- The time to sleep is valid as long as a period is shorter than a second, or if no full second remains of it.
theorem normalized_sleepTime_iff (hf : exp.freq ≠ 0) (hp : period exp ≠ 0) (hu : 0 ≤ usec ∧ usec < 1000000) :
    (sleepTime exp usec).Normalized ↔ 1 ≤ exp.freq ∧ exp.freq ≤ 1000000 ∧ (exp.freq = 1 → usec ≠ 0) := by
  have hn : (sleepTime exp usec).Normalized ↔ 0 ≤ sync exp usec ∧ sync exp usec < 1000000 := by
    rw [Timespec.normalized_iff, sleepTime]
    dsimp only
    omega
  rw [hn]
  rcases lt_or_gt_of_ne hf with hf | hf
  case inl =>
    have := period_nonpos hf
    have := Int.tmod_nonneg (period exp) hu.left
    rw [sync]
    omega
  case inr =>
    have ⟨hl, hm⟩ := period_mul_le hf
    have hp : 0 < period exp := by omega
    have ⟨hs, ht⟩ := sync_bounds hp hu.left
    have := (period_pos_iff hf).mp hp
    by_cases h₁ : exp.freq = 1
    case pos =>
      have hs : sync exp usec = 1000000 - usec := by
        rw [sync, period, h₁, USEC_PER_SEC, Int.tdiv_one, Int.tmod_eq_of_lt hu.left hu.right]
      omega
    case neg =>
      have : period exp * 2 ≤ period exp * exp.freq := Int.mul_le_mul_of_nonneg_left (by omega) hl
      omega

-- An iteration goes wrong for an unsuitable frequency or duration of the bursts, or if the clock is at a full
-- second and the frequency is one per second.
theorem iteration_fine_iff (hu : 0 ≤ usec ∧ usec < 1000000) :
    (∀ op ∈ (iteration cont exp usec).fst, op.Fine) ↔ 1 ≤ exp.freq ∧ exp.freq ≤ 1000000 ∧
      (exp.freq = 1 → usec ≠ 0) ∧ (cont = true → 1 ≤ exp.spin ∧ exp.spin ≤ 999999) := by
  rw [iteration]
  split
  case isTrue hf => simp [hf, Op.Fine]
  case isFalse hf =>
    split
    case isTrue hp =>
      simp only [List.forall_mem_cons, Op.Fine, hp, ne_eq, not_true_eq_false, false_and, and_false, false_iff]
      intro ⟨hl, hr, _⟩
      exact absurd hp ((period_pos_iff hl).mpr hr).ne'
    case isFalse hp =>
      have := normalized_sleepTime_iff hf hp hu
      cases cont
      · simp [Op.Fine, hf, hp, this]
      · simp [Op.Fine, hf, hp, this, and_assoc]

-- Nothing stops the program after an iteration in which nothing goes wrong.
theorem iteration_snd (hu : 0 ≤ usec ∧ usec < 1000000) (h : ∀ op ∈ (iteration cont exp usec).fst, op.Fine) :
    (iteration cont exp usec).snd = true := by
  have ⟨hl, hr, _, ht⟩ := (iteration_fine_iff hu).mp h
  have hp := ((period_pos_iff hl).mpr hr).ne'
  rw [iteration, if_neg (by omega), if_neg hp]
  cases cont
  case false => rfl
  case true =>
    have ⟨ht, hs⟩ := ht rfl
    have ht : 0 < exp.spin := ht
    have hs : Spin.setitimer exp.spin = some true := by
      rw [Spin.setitimer, if_pos (by omega), decide_eq_true ht]
    simp [spinRunReturns, hs]

theorem loop_fine_iff (hc : ∀ i, 0 ≤ clock i ∧ clock i < 1000000) :
    (∀ op ∈ loop cont exp clock i k, op.Fine) ↔
      ∀ j < k, ∀ op ∈ (iteration cont exp <| clock (i + j)).fst, op.Fine := by
  induction k generalizing i
  case zero => simp [loop]
  case succ k hi =>
    have hs : (∀ j < k + 1, ∀ op ∈ (iteration cont exp <| clock (i + j)).fst, op.Fine) ↔
        (∀ op ∈ (iteration cont exp <| clock i).fst, op.Fine) ∧
        ∀ j < k, ∀ op ∈ (iteration cont exp <| clock (i + 1 + j)).fst, op.Fine := by
      rw [Nat.forall_lt_succ_left]
      simp only [Nat.add_zero, Nat.add_assoc, Nat.add_comm 1]
    rw [hs, ←hi, loop]
    by_cases h : ∀ op ∈ (iteration cont exp <| clock i).fst, op.Fine
    case pos => simp only [iteration_snd (hc i) h, if_true, List.forall_mem_append]
    case neg =>
      refine iff_of_false (fun hn => h fun op ho => hn op ?_) fun hn => h hn.left
      dsimp only
      split
      · exact List.mem_append_left _ ho
      · exact ho

theorem nrIter_eq : nrIter exp = toInt (exp.duration.tdiv 1000000 * exp.freq) :=
  rfl

theorem spinInit_eq_true : spinInit alloc exp = true ↔ 0 ≤ exp.nrThread ∧ alloc = true := by
  simp [spinInit]

theorem forall_iteration_fine_iff {n : ℤ} (hc : ∀ i, 0 ≤ clock i ∧ clock i < 1000000) :
    (∀ j < n.toNat, ∀ op ∈ (iteration cont exp <| clock j).fst, op.Fine) ↔ n ≤ 0 ∨
      1 ≤ exp.freq ∧ exp.freq ≤ 1000000 ∧ (exp.freq = 1 → ∀ i : ℕ, i < n → clock i ≠ 0) ∧
      (cont = true → 1 ≤ exp.spin ∧ exp.spin ≤ 999999) := by
  simp only [iteration_fine_iff (hc _)]
  constructor
  case mp =>
    intro h
    by_cases hn : n ≤ 0
    case pos => exact .inl hn
    case neg =>
      have ⟨hl, hu, _, ht⟩ := h 0 <| by omega
      exact .inr ⟨hl, hu, fun hf i hi => (h i <| by omega).right.right.left hf, ht⟩
  case mpr =>
    intro h j hj
    have ⟨hl, hu, hf, ht⟩ := h.resolve_left <| by omega
    exact ⟨hl, hu, fun h₁ => hf h₁ j <| by omega, ht⟩

-- Nothing goes wrong if and only if there is no iteration, or the frequency and the duration of the bursts are
-- in range and no iteration of a run with one burst per second begins at a full second.
theorem main_fine_iff (h : parseOpts online opts = some exp) (hc : ∀ i, 0 ≤ clock i ∧ clock i < 1000000) :
    (∀ op ∈ mainOps alloc exp clock, op.Fine) ↔ toInt (exp.duration.tdiv 1000000 * exp.freq) ≤ 0 ∨
      1 ≤ exp.freq ∧ exp.freq ≤ 1000000 ∧
      (exp.freq = 1 → ∀ i : ℕ, i < toInt (exp.duration.tdiv 1000000 * exp.freq) → clock i ≠ 0) ∧
      (0 ≤ exp.nrThread ∧ alloc = true → 1 ≤ exp.spin ∧ exp.spin ≤ 999999) := by
  have ⟨hn, _⟩ := parseOpts_cpuset h
  have hd : (Op.divide USEC_PER_SEC).Fine := show USEC_PER_SEC ≠ 0 by decide
  -- The modulo in `pulse_pincpu` is safe, as the parser does not accept an empty set.
  have hp : ∀ op ∈
      if spinInit alloc exp then List.replicate exp.nrThread.toNat (.divide exp.cpuset.nrcpus) else [],
      Op.Fine op := by
    intro op ho
    split at ho
    case isTrue =>
      obtain rfl := List.eq_of_mem_replicate ho
      exact Int.natCast_ne_zero.mpr hn.ne'
    case isFalse => cases ho
  rw [mainOps, List.cons_append, List.forall_mem_cons, and_iff_right hd, List.forall_mem_append,
    and_iff_right hp, loop_fine_iff hc]
  simp only [Nat.zero_add, ←spinInit_eq_true, ←nrIter_eq]
  exact forall_iteration_fine_iff hc

-- A single thread on the CPU 0, and the defaults otherwise.
theorem main_fine_default :
    ∃ exp, parseOpts 4 [.cpuset ['0'], .thread ['1']] = some exp ∧
      ∀ op ∈ mainOps true exp fun _ => 0, op.Fine := by
  let exp := { Experiment.default with nrThread := 1, pin := true, cpuset := ⟨[0], 1⟩ }
  have he : parseOpts 4 [.cpuset ['0'], .thread ['1']] = some exp := rfl
  have hf : exp.freq = 1 → ∀ i : ℕ, i < toInt (exp.duration.tdiv 1000000 * exp.freq) → (0 : ℤ) ≠ 0 :=
    fun hf => absurd hf (by decide)
  have hc : 1 ≤ exp.freq ∧ exp.freq ≤ 1000000 := by decide
  exact ⟨exp, he, (main_fine_iff he fun _ => by decide).mpr <| .inr ⟨hc.left, hc.right, hf, fun _ => by decide⟩⟩

-- With one burst per second, the program asks for 10^9 nanoseconds if it starts at a full second.
theorem not_main_fine :
    ¬∀ online opts exp alloc clock,
      parseOpts online opts = some exp → (∀ i : ℕ, 0 ≤ clock i ∧ clock i < 1000000) →
      ∀ op ∈ mainOps alloc exp clock, op.Fine := by
  intro h
  let exp := { Experiment.default with freq := 1, pin := true, cpuset := ⟨[0], 1⟩ }
  have hm : .nanosleep ⟨0, 1000000000⟩ ∈ mainOps true exp fun _ => 0 := by decide
  have hf := h 4 [.cpuset ['0'], .frequency ['1']] exp true (fun _ => 0) rfl (fun _ => by decide) _ hm
  exact absurd hf.lt (by decide)

end WorkloadKit.Pulse
