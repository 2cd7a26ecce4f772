import WorkloadKit.KernelLock.Theorems.Invariant

namespace WorkloadKit.KernelLock

variable {o : Outcome} {s s' : State} {t : Thread} {c : Pc} {e : Event}

-- How many statements are left at most, where a thread that has not been created counts in, too.
def Pc.rest (cnt : ℤ) : Pc → ℕ
  | unborn              => (100000000 - cnt).toNat + 8
  | prctl               => (100000000 - cnt).toNat + 7
  | setAffinityPrio     => (100000000 - cnt).toNat + 6
  | openLock            => (100000000 - cnt).toNat + 5
  | barrierWait         => (100000000 - cnt).toNat + 4
  | waiting _           => (100000000 - cnt).toNat + 3
  | busyWork | busyLoop => (100000000 - cnt).toNat + 2
  | closeLock           => 1
  | returned            => 0

def Main.rest : Main → ℕ
  | setAffinityPrio   => 9
  | create .lowprio1  => 8
  | barrierWait       => 7
  | waiting _         => 6
  | create .highprio1 => 5
  | create .highprio0 => 4
  | join .highprio0   => 3
  | join .highprio1   => 2
  | join .lowprio1    => 1
  | returned          => 0

def State.threadRest (s : State) (t : Thread) : ℕ :=
  (s.pc t).rest (s.cnt t)

def State.rest (s : State) : ℕ :=
  s.main.rest + s.threadRest .lowprio1 + s.threadRest .highprio1 + s.threadRest .highprio0

theorem State.rest_lt (hm : s'.main = s.main) (ht : s'.threadRest t < s.threadRest t)
    (hu : ∀ u ≠ t, s'.threadRest u = s.threadRest u) : s'.rest < s.rest := by
  simp only [rest, hm]
  cases t <;> simp [hu] <;> omega

theorem goto_rest_lt {l : Lock Thread} {b : Barrier} {stderr : List String}
    (hc : c.rest (s.cnt t) < (s.pc t).rest (s.cnt t)) :
    { s.goto t c with wkLock := l, barrier := b, stderr }.rest < s.rest := by
  refine State.rest_lt (t := t) rfl ?_ fun u hu => ?_
  · simpa [State.threadRest, State.goto] using hc
  · simp [State.threadRest, State.goto, Function.update_of_ne hu]

theorem setAffinityPrio_rest_lt (hp : s.pc t = .setAffinityPrio)
    (hc : c.rest (s.cnt t) < (s.pc t).rest (s.cnt t)) : (setAffinityPrio o s t c).rest < s.rest := by
  rw [setAffinityPrio]
  split
  case isTrue  => exact goto_rest_lt <| by simp [hp, Pc.rest]
  case isFalse => exact goto_rest_lt hc

theorem openLock_rest_lt (hp : s.pc t = .openLock) (hc : c.rest (s.cnt t) < (s.pc t).rest (s.cnt t))
    (he : openLock o s t c = some s') : s'.rest < s.rest := by
  rw [openLock] at he
  split at he
  case isTrue  => exact Option.some.inj he ▸ goto_rest_lt <| by simp [hp, Pc.rest]
  case isFalse =>
    obtain ⟨_, _, rfl⟩ := Option.map_eq_some_iff.mp he
    exact goto_rest_lt hc

theorem busy_rest_lt (hp : s.pc t = .busyWork ∨ s.pc t = .busyLoop)
    (hc : c = .closeLock ∨ c = .returned) : (busy s t c).rest < s.rest := by
  rw [busy]
  split
  case isTrue hl =>
    refine State.rest_lt (t := t) rfl ?_ fun u hu => ?_
    · rcases hp with hp | hp <;> simp only [State.threadRest, hp, Pc.rest, Function.update_self] <;> omega
    · simp [State.threadRest, Function.update_of_ne hu]
  case isFalse =>
    refine goto_rest_lt ?_
    rcases hp with hp | hp <;> rcases hc with rfl | rfl <;> simp [hp, Pc.rest]

theorem setMain_rest_lt {m : Main} {b : Barrier} {ret : ℤ} {stderr : List String}
    (hm : m.rest < s.main.rest) : { s with main := m, barrier := b, ret, stderr }.rest < s.rest := by
  simp only [State.rest, State.threadRest]
  omega

theorem main_rest_lt (h : Inv o s) (he : main o s = some s') : s'.rest < s.rest := by
  cases hm : s.main <;> simp only [main, hm, Option.some.injEq, reduceCtorEq,
    Option.ite_none_left_eq_some, Option.ite_none_right_eq_some] at he
  case setAffinityPrio => split at he <;> cases he <;> exact setMain_rest_lt <| by rw [hm]; decide
  case barrierWait     => exact he ▸ setMain_rest_lt (by simp [hm, Main.rest])
  case waiting         => exact he.right ▸ setMain_rest_lt (by simp [hm, Main.rest])
  case join t          => exact he.right ▸ setMain_rest_lt (by rw [hm]; cases t <;> decide)
  case create t        =>
    split at he <;> cases he
    case isTrue  => exact setMain_rest_lt <| by rw [hm]; cases t <;> decide
    case isFalse =>
      have hu := h.unborn t <| by rw [hm]; cases t <;> rfl
      cases t <;>
        simp [State.rest, State.threadRest, State.goto, hm, hu, Main.created, Main.rest, Pc.rest] <;> omega

theorem lowprio1_rest_lt (he : lowprio1 o s = some s') : s'.rest < s.rest := by
  cases hp : s.pc .lowprio1 <;> simp only [lowprio1, hp, Option.some.injEq, reduceCtorEq,
    Option.ite_none_left_eq_some] at he
  case prctl           => exact he ▸ goto_rest_lt (by simp [hp, Pc.rest])
  case setAffinityPrio => exact he ▸ setAffinityPrio_rest_lt hp (by simp [hp, Pc.rest])
  case openLock        => exact openLock_rest_lt (c := .barrierWait) hp (by simp [hp, Pc.rest]) he
  case barrierWait     => exact he ▸ goto_rest_lt (by simp [hp, Pc.rest])
  case waiting         => exact he.right ▸ goto_rest_lt (by simp [hp, Pc.rest])
  case busyWork        => exact he ▸ busy_rest_lt (.inl hp) (.inl rfl)
  case closeLock       => exact he ▸ goto_rest_lt (by simp [hp, Pc.rest])

theorem highprio1_rest_lt (he : highprio1 o s = some s') : s'.rest < s.rest := by
  cases hp : s.pc .highprio1 <;> simp only [highprio1, hp, Option.some.injEq, reduceCtorEq] at he
  case prctl           => exact he ▸ goto_rest_lt (by simp [hp, Pc.rest])
  case setAffinityPrio => exact he ▸ setAffinityPrio_rest_lt hp (by simp [hp, Pc.rest])
  case busyLoop        => exact he ▸ busy_rest_lt (.inr hp) (.inr rfl)

theorem highprio0_rest_lt (he : highprio0 o s = some s') : s'.rest < s.rest := by
  cases hp : s.pc .highprio0 <;> simp only [highprio0, hp, Option.some.injEq, reduceCtorEq] at he
  case prctl           => exact he ▸ goto_rest_lt (by simp [hp, Pc.rest])
  case setAffinityPrio => exact he ▸ setAffinityPrio_rest_lt hp (by simp [hp, Pc.rest])
  case openLock        => exact openLock_rest_lt (c := .closeLock) hp (by simp [hp, Pc.rest]) he
  case closeLock       => exact he ▸ goto_rest_lt (by simp [hp, Pc.rest])

theorem step_rest_lt (h : Inv o s) (he : step o s e = some s') : s'.rest < s.rest := by
  match e with
  | .main              => exact main_rest_lt h he
  | .thread .lowprio1  => exact lowprio1_rest_lt he
  | .thread .highprio1 => exact highprio1_rest_lt he
  | .thread .highprio0 => exact highprio0_rest_lt he

-- The program has not ended, but no thread can go on.
def Stuck (o : Outcome) (s : State) : Prop :=
  s.main ≠ .returned ∧ ∀ e, ¬(kernelLock o).Enabled s e

theorem openLock_isSome (hl : s.wkLock = none) : (openLock o s t c).isSome := by
  rw [openLock]
  split
  case isTrue  => rfl
  case isFalse => rw [hl]; rfl

-- A thread that does not wait for the lock or at the barrier.
theorem enabled_thread (h : Inv o s) (hu : s.pc t ≠ .unborn) (hr : s.pc t ≠ .returned)
    (hw : s.pc .lowprio1 ≠ .waiting s.barrier.generation) (hl : s.pc t = .openLock → s.wkLock = none) :
    (kernelLock o).Enabled s (.thread t) := by
  have hs := h.runs t
  simp only [System.Enabled, kernelLock]
  cases t
  case lowprio1 =>
    cases hp : s.pc .lowprio1 <;>
      simp_all only [step, lowprio1, Option.isSome_some, ne_eq, not_true_eq_false]
    case openLock => exact openLock_isSome <| hl trivial
    case waiting  => rw [if_neg fun hg => hw <| congrArg _ hg.symm]; rfl
    case busyLoop => exact absurd rfl hs
  case highprio1 =>
    cases hp : s.pc .highprio1 <;> simp_all [step, highprio1, Thread.Runs, Pc.hasLock]
  case highprio0 =>
    cases hp : s.pc .highprio0 <;> simp_all [step, highprio0, Thread.Runs, Pc.hasLock, openLock_isSome]

-- As the holder of the lock does not wait for the lock itself, somebody can go on.
theorem exists_enabled_of_born (h : Inv o s) (hu : s.pc t ≠ .unborn) (hr : s.pc t ≠ .returned)
    (hw : s.pc .lowprio1 ≠ .waiting s.barrier.generation) : ∃ e, (kernelLock o).Enabled s e := by
  cases hl : s.wkLock
  case none   => exact ⟨.thread t, enabled_thread h hu hr hw fun _ => hl⟩
  case some u =>
    have hu := (h.lock u).mp hl
    refine ⟨.thread u, enabled_thread h ?_ ?_ hw ?_⟩ <;>
      exact fun hp => absurd hu <| by rw [hp]; decide

theorem not_stuck (h : Inv o s)
    (ho : o.mainSetAffinityPrio ≠ 0 ∨ o.create .lowprio1 ≠ 0 ∨ o.LowSucceeds) : ¬Stuck o s := by
  rintro ⟨hm, hn⟩
  obtain ⟨arrivals, hb, ha, hc⟩ := h.synced
  have hcalled := h.called
  suffices hs : ∃ e, (kernelLock o).Enabled s e from hs.elim hn
  cases hs : s.main <;> rw [hs] at ha hcalled
  case setAffinityPrio | create =>
    refine ⟨.main, ?_⟩
    simp only [System.Enabled, kernelLock, step, main, hs]
    split <;> rfl
  case barrierWait => exact ⟨.main, by simp [System.Enabled, kernelLock, step, main, hs]⟩
  case returned    => exact absurd hs hm
  case waiting ticket =>
    by_cases hg : s.barrier.generation = ticket
    case neg => exact ⟨.main, by simp [System.Enabled, kernelLock, step, main, hs, hg]⟩
    case pos =>
      -- As `main` has arrived, it is `lowprio1` that has not.
      obtain ⟨i, hi⟩ := hb.exists_eq_generation
      have hl : arrivals .lowprio1 = 0 := by
        have := ha.left
        have := ha.right
        cases i <;> omega
      refine exists_enabled_of_born (t := .lowprio1) h ?_ ?_ ?_
      · exact h.born .lowprio1 <| by rw [hs]; rfl
      · intro hp
        have hlow := ho.resolve_left <| not_not.mpr hcalled.left
        replace hlow := hlow.resolve_left <| not_not.mpr hcalled.right
        rw [hp] at hc
        have := (hc.right hlow).left
        omega
      · intro hp
        rw [hp] at hc
        have := hc.right
        omega
  case join t =>
    by_cases hp : s.pc t = .returned
    case pos => exact ⟨.main, by simp [System.Enabled, kernelLock, step, main, hs, hp]⟩
    case neg =>
      refine exists_enabled_of_born h (t := t) (h.born t <| by rw [hs]; cases t <;> rfl) hp fun hp => ?_
      rw [hp] at hc
      have := hc.left
      have := ha.right
      omega

-- If `lowprio1` returns before it gets to the barrier, then `main` waits there forever.
theorem stuck_of_returned (hm : s.main = .waiting s.barrier.generation) (hl : s.pc .lowprio1 = .returned)
    (hu : ∀ t ≠ .lowprio1, s.pc t = .unborn) : Stuck o s := by
  refine ⟨by simp [hm], fun e => ?_⟩
  simp only [System.Enabled, kernelLock]
  cases e
  case main     => simp [step, main, hm]
  case thread t =>
    cases t
    case lowprio1  => simp [step, lowprio1, hl]
    case highprio1 => simp [step, highprio1, hu .highprio1 (by rintro ⟨⟩)]
    case highprio0 => simp [step, highprio0, hu .highprio0 (by rintro ⟨⟩)]

theorem exists_stuck (hm : o.mainSetAffinityPrio = 0) (hc : o.create .lowprio1 = 0)
    (hl : ¬o.LowSucceeds) : ∃ s, (kernelLock o).Reachable s ∧ Stuck o s := by
  let s₃ : State := { init o with
    main    := .waiting 0
    pc      := Function.update (fun _ => .unborn) .lowprio1 .prctl
    barrier := ⟨1, 0⟩ }
  have h₃ : (kernelLock o).exec (init o) [.main, .main, .main] = some s₃ := by
    simp [System.exec, kernelLock, step, main, init, hm, hc, Main.created, State.goto, Barrier.arrive,
      Barrier.init, s₃]
  let s₄ := prctl o s₃ .lowprio1 .setAffinityPrio
  have h₄ : (kernelLock o).step s₃ (.thread .lowprio1) = some s₄ := by
    simp [kernelLock, step, lowprio1, s₃, s₄]
  have h₅ : (kernelLock o).step s₄ (.thread .lowprio1) =
      some (setAffinityPrio o s₄ .lowprio1 .openLock) := by
    simp [kernelLock, step, lowprio1, s₄, prctl, State.goto]
  have hr := ((System.ReachableUnder.of_exec h₃).next h₄).next h₅
  by_cases ha : o.setAffinityPrio .lowprio1 = 0
  case neg =>
    rw [setAffinityPrio, if_pos ha] at hr
    refine ⟨_, hr, stuck_of_returned rfl (by simp [State.goto]) fun t ht => ?_⟩
    simp [State.goto, ht, s₄, prctl, s₃]
  case pos =>
    have ho : o.openLock .lowprio1 < 0 := Int.not_le.mp fun ho => hl ⟨ha, ho⟩
    rw [setAffinityPrio, if_neg <| not_not.mpr ha] at hr
    let s₅ := s₄.goto .lowprio1 .openLock
    have h₆ : (kernelLock o).step s₅ (.thread .lowprio1) =
        some { s₅.goto .lowprio1 .returned with stderr := s₅.stderr ++ ["open /proc/wk_lock"] } := by
      simp [kernelLock, step, lowprio1, s₅, State.goto, openLock, ho]
    refine ⟨_, hr.next h₆, stuck_of_returned rfl (by simp [State.goto]) fun t ht => ?_⟩
    simp [State.goto, ht, s₅, s₄, prctl, s₃]

-- Every run is finite, and `main` gets to its end in all of them if and only if it does not get as far as to
-- create `lowprio1`, or `lowprio1` gets to the barrier.
theorem not_stuck_iff :
    (∀ es s, (kernelLock o).exec (init o) es = some s → es.length ≤ (init o).rest) ∧
    ((∀ s, (kernelLock o).Reachable s → ¬Stuck o s) ↔
      o.mainSetAffinityPrio ≠ 0 ∨ o.create .lowprio1 ≠ 0 ∨ o.LowSucceeds) := by
  refine ⟨fun es s he => ?finite, fun hn => ?mp, fun ho s h => not_stuck (.reachable h) ho⟩
  case finite =>
    have hl := System.rest_add_length_le (I := Inv o) State.rest
      (fun h he => ⟨h.step he, step_rest_lt h he⟩) .init he
    omega
  case mp =>
    by_contra ho
    have ⟨hm, ho⟩ := not_or.mp ho
    have ⟨hc, hl⟩ := not_or.mp ho
    have ⟨s, hr, hs⟩ := exists_stuck (not_not.mp hm) (not_not.mp hc) hl
    exact hn s hr hs

-- All calls succeed, except for `set_affinity_prio` in `lowprio1`.
theorem not_not_stuck : ¬∀ o s, (kernelLock o).Reachable s → ¬Stuck o s := by
  intro h
  let o : Outcome := {
    mainSetAffinityPrio := 0
    create              := fun _ => 0
    prctl               := fun _ => 0
    setAffinityPrio     := fun t => if t = .lowprio1 then -1 else 0
    openLock            := fun _ => 3
    closeLock           := fun _ => 0
    cnt                 := fun _ => 0 }
  have ⟨s, hr, hs⟩ := exists_stuck (o := o) rfl rfl fun hl => absurd hl.left (by decide)
  exact h o s hr hs

end WorkloadKit.KernelLock
