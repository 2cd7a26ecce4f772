import WorkloadKit.Imbalance.Theorems.Progress

namespace WorkloadKit.Imbalance

variable {exp : Experiment} {s : State exp.threads} {v self : Fin exp.threads} {w : Worker}
  {i n : ℕ}

theorem Worker.started_le : w.started ≤ w.i + 1 := by
  rw [started]
  split <;> omega

theorem Worker.arrivals_le : w.arrivals ≤ w.i + 1 := by
  rw [arrivals]
  split <;> omega

theorem Worker.arrivals_le_finished : w.arrivals ≤ w.finished := by
  rw [arrivals, finished]
  cases w.pc <;> simp

-- The position of a worker in a cycle whose load it has started.
def State.posIn (s : State n) (i : ℕ) (self : Fin n) : Option ℕ :=
  (s.workers self).hogs[i]?

-- All other workers have executed fewer iterations in a cycle.
def State.SlowestIn (s : State n) (i : ℕ) (self : Fin n) : Prop :=
  ∀ v ≠ self, (s.workers v).iterations i < (s.workers self).iterations i

-- There are more iterations at a position than at any other one.
def Heaviest (exp : Experiment) (p : Fin exp.threads) : Prop :=
  ∀ q ≠ p, hogIterations exp.max q < hogIterations exp.max p

theorem Heaviest.eq {p q : Fin exp.threads} (hp : Heaviest exp p) (hq : Heaviest exp q) : p = q := by
  by_contra hn
  exact absurd (hp q (Ne.symm hn)) (hq p hn).not_gt

namespace Inv

theorem i_le_generation (h : Inv s) (v : Fin exp.threads) : (s.workers v).i ≤ s.barrier.generation := by
  have hs := h.inStep v
  have := h.rounds.le_succ v
  cases hp : (s.workers v).pc <;> simp only [Worker.InStep, Worker.arrivals, hp] at hs this <;> omega

theorem posIn_eq (h : Inv s) (hi : i < (s.workers v).started) :
    s.posIn i v = some (rotation exp.threads i v : ℕ) := by
  simp [State.posIn, (h.workers v).hogs, hi, rotation_val]

end Inv

theorem slowestIn_iff (h : Ran s) (hf : ∀ v, i < (s.workers v).finished) :
    s.SlowestIn i self ↔ Heaviest exp (rotation exp.threads i self) := by
  have hr v : ((s.workers v).iterations i : ℤ) = hogIterations exp.max (rotation exp.threads i v) := by
    rw [rotation_val]
    exact (h v).ran i <| hf v
  constructor
  case mp =>
    intro hs p hp
    have hv : (rotation exp.threads i).symm p ≠ self := fun he => hp <| by rw [← he, Equiv.apply_symm_apply]
    have hl := Int.ofNat_lt.mpr <| hs _ hv
    rwa [hr, hr, Equiv.apply_symm_apply] at hl
  case mpr =>
    intro hh v hv
    have hl := hh _ <| (rotation exp.threads i).injective.ne hv
    rw [← hr, ← hr] at hl
    exact Int.ofNat_lt.mp hl

-- The workers stay in step with each other, and the slowest one of them changes in a round-robin fashion.
structure RoundRobin (s : State exp.threads) : Prop where
  differ  : ∀ v w, (s.workers v).i ≤ (s.workers w).i + 1
  starts  : ∀ v w, (s.workers v).started ≤ (s.workers w).finished + 1
  perm    : ∀ i, ∃ σ : Equiv.Perm (Fin exp.threads),
    ∀ v, i < (s.workers v).started → s.posIn i v = some (σ v : ℕ)
  slowest : ∀ i, (∀ v, i < (s.workers v).finished) → ∃! v, s.SlowestIn i v
  robin   : ∀ c, (∀ v, c + exp.threads ≤ (s.workers v).finished) →
    ∀ v, ∃! i, c ≤ i ∧ i < c + exp.threads ∧ s.SlowestIn i v

theorem finished_le (h : (imbalance exp).Reachable s) (v : Fin exp.threads) :
    (s.workers v).finished ≤ exp.cycles := by
  have ⟨_, hs, _⟩ := (invariant h).right.bounded v
  refine le_trans ?_ hs
  rw [Worker.finished, Worker.started]
  cases (s.workers v).pc <;> simp

theorem roundRobin_of_heaviest (hp : exp.cycles = 0 ∨ ∃ p, Heaviest exp p) (hs : (imbalance exp).Reachable s) :
    RoundRobin s := by
  have h := Inv.reachable hs
  have heaviest {i : ℕ} (hi : i < (s.workers ⟨0, exp.threads_pos⟩).finished) : ∃ p, Heaviest exp p :=
    hp.resolve_left <| Nat.ne_of_gt <| i.zero_le.trans_lt <| hi.trans_le <| finished_le hs _
  refine ⟨fun v w => ?differ, fun v w => ?starts, fun i => ?perm, fun i hi => ?slowest, fun c hc v => ?robin⟩
  case differ =>
    calc (s.workers v).i
      _ ≤ s.barrier.generation   := h.i_le_generation v
      _ ≤ (s.workers w).arrivals := h.rounds.le w
      _ ≤ (s.workers w).i + 1    := Worker.arrivals_le
  case starts =>
    calc (s.workers v).started
      _ ≤ (s.workers v).i + 1        := Worker.started_le
      _ ≤ s.barrier.generation + 1   := Nat.succ_le_succ <| h.i_le_generation v
      _ ≤ (s.workers w).arrivals + 1 := Nat.succ_le_succ <| h.rounds.le w
      _ ≤ (s.workers w).finished + 1 := Nat.succ_le_succ Worker.arrivals_le_finished
  case perm => exact ⟨rotation exp.threads i, fun v => h.posIn_eq⟩
  case slowest =>
    have ⟨p, hp⟩ := heaviest <| hi _
    have hs v : s.SlowestIn i v ↔ rotation exp.threads i v = p := by
      rw [slowestIn_iff (.reachable hs) hi]
      exact ⟨fun hv => hv.eq hp, fun hv => hv ▸ hp⟩
    simp only [hs]
    exact (rotation exp.threads i).bijective.existsUnique p
  case robin =>
    have ⟨p, hp⟩ := heaviest <| (Nat.lt_add_of_pos_right exp.threads_pos).trans_le <| hc _
    have hs (i : ℕ) : (c ≤ i ∧ i < c + exp.threads ∧ s.SlowestIn i v) ↔
        (c ≤ i ∧ i < c + exp.threads ∧ rotation exp.threads i v = p) := by
      refine and_congr_right fun _ => and_congr_right fun hi => ?_
      rw [slowestIn_iff (.reachable hs) fun v => hi.trans_le <| hc v]
      exact ⟨fun hv => hv.eq hp, fun hv => hv ▸ hp⟩
    simp only [hs]
    exact existsUnique_rotation_eq c v p

-- Some run goes through the first cycle, in which somebody is the slowest one.
theorem heaviest_of_roundRobin (hc : exp.cycles ≠ 0) (h : ∀ s, (imbalance exp).Reachable s → RoundRobin s) :
    ∃ p, Heaviest exp p := by
  obtain ⟨s, hs, hm⟩ := exists_returned exp
  obtain ⟨_, hr⟩ := invariant hs
  have hf v : 0 < (s.workers v).finished := by
    have hp := hr.ended hm v
    have hd := (hr.bounded v).done hp
    simp only [Worker.finished, hp]
    omega
  obtain ⟨v, hv, _⟩ := (h s hs).slowest 0 hf
  exact ⟨_, (slowestIn_iff (.reachable hs) hf).mp hv⟩

-- That is the last position if none of the loads overflows.
theorem hogIterations_lt (hm : 0 < exp.max) (ho : exp.threads * exp.max < 2 ^ 31) {p q : ℕ} (hq : q < p)
    (hp : p < exp.threads) : hogIterations exp.max q < hogIterations exp.max p := by
  have load_eq {p : ℕ} (hp : p < exp.threads) : load exp.max p = (p + 1) * exp.max := by
    have hl : ((p : ℤ) + 1) * exp.max ≤ exp.threads * exp.max :=
      Int.mul_le_mul_of_nonneg_right (by omega) hm.le
    have hz : 0 ≤ ((p : ℤ) + 1) * exp.max := Int.mul_nonneg (by omega) hm.le
    exact Int.bmod_eq_of_le (by omega) (by omega)
  have hpos (p : ℕ) : ¬((p : ℤ) + 1) * exp.max ≤ 0 := not_le.mpr <| Int.mul_pos (by omega) hm
  rw [hogIterations, hogIterations, load_eq hp, load_eq (hq.trans hp), if_neg (hpos q), if_neg (hpos p)]
  exact Int.mul_lt_mul_of_pos_right (by omega) hm

-- The slowest worker changes in a round-robin fashion, in every run, if and only if one of the positions has
-- more iterations than each of the others, where the loads are computed as an `int`. This is the case if the
-- largest load fits an `int`.
theorem slowest_round_robin_iff (exp : Experiment) :
    ((∀ s, (imbalance exp).Reachable s → RoundRobin s) ↔
      exp.cycles = 0 ∨ ∃ p < exp.threads, ∀ q < exp.threads, q ≠ p →
        hogIterations exp.max q < hogIterations exp.max p) ∧
    (0 < exp.max → exp.threads * exp.max < 2 ^ 31 → ∀ s, (imbalance exp).Reachable s → RoundRobin s) := by
  have heaviest : (∃ p, Heaviest exp p) ↔ ∃ p < exp.threads, ∀ q < exp.threads, q ≠ p →
      hogIterations exp.max q < hogIterations exp.max p :=
    ⟨fun ⟨p, hp⟩ => ⟨p, p.isLt, fun q hq hn => hp ⟨q, hq⟩ <| Fin.ne_of_val_ne hn⟩,
      fun ⟨p, hp, h⟩ => ⟨⟨p, hp⟩, fun q hn => h q q.isLt <| Fin.val_ne_of_ne hn⟩⟩
  rw [← heaviest]
  refine ⟨⟨fun h => ?mp, fun hp s => roundRobin_of_heaviest hp⟩, fun hm ho s => ?fits⟩
  case mp =>
    by_cases hc : exp.cycles = 0
    case pos => exact .inl hc
    case neg => exact .inr <| heaviest_of_roundRobin hc h
  case fits =>
    refine roundRobin_of_heaviest <| .inr ⟨⟨exp.threads - 1, Nat.sub_one_lt exp.threads_pos.ne'⟩, fun q hq => ?_⟩
    have := Fin.val_ne_of_ne hq
    simp only at this ⊢
    exact hogIterations_lt hm ho (by omega) <| Nat.sub_one_lt exp.threads_pos.ne'

-- Each of two workers is the slowest one in one of the first two cycles.
theorem slowest_round_robin_two :
    ∃ s : State 2, (imbalance ⟨2, 2, 1, by decide⟩).Reachable s ∧
      ∀ v, ∃! i, 0 ≤ i ∧ i < 0 + 2 ∧ s.SlowestIn i v := by
  let go (v : Fin 2) (k : ℕ) : List (Event 2) := List.replicate k (.worker v)
  let es := .main :: go 0 3 ++ .main :: go 1 4 ++ go 0 7 ++ go 1 6
  have he : ((imbalance ⟨2, 2, 1, by decide⟩).exec (init 2) es).map
      (fun s => ((s.workers 0).finished, (s.workers 1).finished)) = some (2, 2) := by decide
  have ⟨s, he, hs⟩ := Option.map_eq_some_iff.mp he
  have ⟨h₀, h₁⟩ := Prod.mk.inj hs
  have hr := (slowest_round_robin_iff ⟨2, 2, 1, by decide⟩).right (by decide) (by decide) s (.of_exec he)
  refine ⟨s, .of_exec he, hr.robin 0 fun v => ?_⟩
  match v with
  | 0 => exact h₀.ge
  | 1 => exact h₁.ge

-- Loads that are multiples of this one wrap around, and fit an `int`.
theorem hogIterations_le (p : ℕ) : hogIterations (2 ^ 22) p ≤ 511 * 2 ^ 22 := by
  have hd := Int.bmod_add_bdiv ((p + 1) * 2 ^ 22) (2 ^ 32)
  have hl := Int.bmod_lt (x := (p + 1) * 2 ^ 22) (m := 2 ^ 32) (by decide)
  rw [hogIterations, load]
  split <;> omega

-- The largest load of 1535 threads is also the one of the thread number 510.
theorem not_slowest_round_robin :
    ¬∀ (exp : Experiment) (s : State exp.threads), (imbalance exp).Reachable s → RoundRobin s := by
  intro h
  let exp : Experiment := ⟨1535, 8, 2 ^ 22, by decide⟩
  have ⟨p, hp⟩ := @heaviest_of_roundRobin exp (by decide) (h exp)
  have hl : hogIterations exp.max p ≤ 511 * 2 ^ 22 := hogIterations_le p
  by_cases he : (p : ℕ) = 510
  case pos =>
    have hq : hogIterations exp.max 1534 = 511 * 2 ^ 22 := by decide
    have := hp ⟨1534, by decide⟩ fun hp => by rw [← hp] at he; exact absurd he (by decide)
    exact absurd (this.trans_le hl) <| hq ▸ lt_irrefl _
  case neg =>
    have hq : hogIterations exp.max 510 = 511 * 2 ^ 22 := by decide
    have := hp ⟨510, by decide⟩ fun hp => he <| by rw [← hp]
    exact absurd (this.trans_le hl) <| hq ▸ lt_irrefl _

end WorkloadKit.Imbalance
