import WorkloadKit.Imbalance.Theorems.Invariant

namespace WorkloadKit.Imbalance

variable {exp : Experiment} {s s' : State exp.threads} {e : Event exp.threads} {self : Fin exp.threads}
  {w : Worker} {max : ℤ} {n : ℕ} {k : Fin n}

-- How many iterations there are in the call of `do_hog` at a position.
def hogIterations (max : ℤ) (pos : ℕ) : ℤ :=
  if load max pos ≤ 0 then 1 else load max pos

-- The iterations that a worker has executed are the ones of the positions that it has had.
structure Worker.Ran (max : ℤ) (k : Fin n) (w : Worker) : Prop where
  ran     : ∀ i < w.finished, (w.iterations i : ℤ) = hogIterations max ((k + i) % n)
  running : ∀ niters, w.pc = .hog niters → w.iterations w.i + niters = hogIterations max w.pos
  idle    : ∀ i, w.started ≤ i → w.iterations i = 0

namespace Worker.Ran

-- A statement outside of `do_hog` that stays in the cycle, or goes to the next one.
theorem congr {w' : Worker} (h : w.Ran max k) (hi : w'.iterations = w.iterations)
    (hf : w'.finished = w.finished) (hs : w'.started = w.started) (hp : ∀ niters, w'.pc ≠ .hog niters) :
    w'.Ran max k where
  ran     := hi ▸ hf ▸ h.ran
  running := fun niters hn => absurd hn <| hp niters
  idle    := hi ▸ hs ▸ h.idle

theorem start (max : ℤ) (k : Fin n) (pos : ℕ) : (Imbalance.start pos).Ran max k where
  ran     := fun i hi => absurd hi i.not_lt_zero
  running := nofun
  idle    := fun _ _ => rfl

-- The call of `do_hog` in a new cycle.
theorem test (h : w.Ran max k) (hp : w.pc = .test) :
    Ran max k { w with pc := doHog (load max w.pos), hogs := w.hogs ++ [w.pos] } where
  ran           := by simpa only [finished, doHog, hp] using h.ran
  running n hn  := by
    have hz := h.idle w.i <| by simp only [started, hp, le_refl]
    have hn := Pc.hog.inj hn
    simp only [hz, ← hn, hogIterations, Nat.cast_zero, zero_add]
  idle i hi     := by
    refine h.idle i ?_
    simp only [started, doHog, hp] at hi ⊢
    omega

-- An iteration, which may be the last one.
theorem hog {niters : ℤ} (h : w.Ran max k) (hw : w.pos = (k + w.i) % n) (hp : w.pc = .hog niters) :
    Ran max k { w with
      pc         := if niters - 1 = 0 then .barrierWait else .hog (niters - 1)
      iterations := Function.update w.iterations w.i (w.iterations w.i + 1) } := by
  have hr := h.running niters hp
  have hs : w.started = w.i + 1 := by simp only [started, hp]
  have hf : w.finished = w.i := by simp only [finished, hp]
  have hran (i : ℕ) (hi : i < w.i) :
      (Function.update w.iterations w.i (w.iterations w.i + 1) i : ℤ) = hogIterations max ((k + i) % n) := by
    rw [Function.update_of_ne hi.ne]
    exact h.ran i <| hf ▸ hi
  have hidle (i : ℕ) (hi : w.i + 1 ≤ i) :
      Function.update w.iterations w.i (w.iterations w.i + 1) i = 0 := by
    rw [Function.update_of_ne <| by omega]
    exact h.idle i <| hs ▸ hi
  split
  case isTrue hz =>
    refine ⟨fun i hi => ?_, by rintro _ ⟨⟩, hidle⟩
    by_cases he : i = w.i
    case neg => exact hran i <| Nat.lt_of_le_of_ne (Nat.le_of_lt_succ hi) he
    case pos =>
      rw [he, ← hw, ← hr]
      simp only [Function.update_self]
      omega
  case isFalse =>
    refine ⟨hran, fun m hm => ?_, hidle⟩
    obtain rfl := Pc.hog.inj hm
    simp only [Function.update_self]
    omega

end Worker.Ran

-- This holds for all of the workers.
def Ran (s : State exp.threads) : Prop :=
  ∀ v, (s.workers v).Ran exp.max v

namespace Ran

theorem init : Ran (init exp.threads : State exp.threads) :=
  fun v => (Worker.Ran.start exp.max v v).congr rfl rfl rfl nofun

theorem setWorker (h : Ran s) (hw : w.Ran exp.max self) : Ran (s.setWorker self w) :=
  State.setWorker_forall (fun v w => w.Ran exp.max v) hw fun v _ => h v

theorem worker (hi : Inv s) (h : Ran s) (he : worker exp s self = some s') : Ran s' := by
  have hw := h self
  cases hp : (s.workers self).pc <;>
    simp only [Imbalance.worker, hp, Option.some.injEq, reduceCtorEq, Option.ite_none_left_eq_some] at he
  case hog niters =>
    subst he
    refine h.setWorker <| hw.hog ?_ hp
    have hpos := (hi.workers self).pos
    simpa only [Worker.rotations, hp] using hpos
  case test =>
    split at he <;> cases he
    case isTrue  => exact h.setWorker <| hw.test hp
    case isFalse =>
      refine h.setWorker <| hw.congr rfl ?_ ?_ (by rintro _ ⟨⟩)
      all_goals simp only [Worker.finished, Worker.started, hp]
  case waiting ticket =>
    obtain ⟨_, rfl⟩ := he
    refine h.setWorker <| hw.congr rfl ?_ ?_ (by rintro _ ⟨⟩)
    all_goals simp only [Worker.finished, Worker.started, hp]
  case barrierWait | rotate | increment =>
    subst he
    refine h.setWorker <| hw.congr rfl ?_ ?_ (by rintro _ ⟨⟩)
    all_goals simp only [Worker.finished, Worker.started, hp]

theorem step (hi : Inv s) (h : Ran s) (he : step exp s e = some s') : Ran s' := by
  cases e
  case worker => exact h.worker hi he
  case main =>
    simp only [Imbalance.step, Imbalance.main] at he
    cases hm : s.main <;> simp only [hm, reduceCtorEq] at he
    case create i =>
      split at he <;> cases he
      case isTrue hin => exact h.setWorker <| .start exp.max ⟨i, hin⟩ i
      case isFalse    => exact h
    case join i =>
      split at he
      case isTrue =>
        split at he <;> cases he
        exact h
      case isFalse =>
        cases he
        exact h

theorem reachable (h : (imbalance exp).Reachable s) : Ran s := by
  suffices hr : Inv s ∧ Ran s from hr.right
  exact h.invariant (I := fun s => Inv s ∧ Ran s) ⟨.init, .init⟩
    fun h _ he => ⟨h.left.step he, h.right.step h.left he⟩

end Ran
end WorkloadKit.Imbalance
