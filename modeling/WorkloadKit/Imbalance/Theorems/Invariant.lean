import WorkloadKit.Imbalance.State
import WorkloadKit.Library.Rotation

namespace WorkloadKit.Imbalance

variable {exp : Experiment} {s s' : State exp.threads} {e : Event exp.threads} {self v : Fin exp.threads}
  {w w' : Worker} {generation n : ℕ} {k : Fin n}

theorem State.setWorker_forall {s : State n} {self : Fin n} (P : Fin n → Worker → Prop) (hw : P self w)
    (h : ∀ v ≠ self, P v (s.workers v)) : ∀ v, P v ((s.setWorker self w).workers v) :=
  (Function.forall_update_iff _ P).mpr ⟨hw, h⟩

namespace Worker

-- How many times a worker has called `do_hog` and returned from it, arrived at the barrier, and moved on to
-- the next position.
def started (w : Worker) : ℕ :=
  match w.pc with
  | .unborn | .test | .returned => w.i
  | _                           => w.i + 1

def finished (w : Worker) : ℕ :=
  match w.pc with
  | .barrierWait | .waiting _ | .rotate | .increment => w.i + 1
  | _                                                => w.i

def arrivals (w : Worker) : ℕ :=
  match w.pc with
  | .waiting _ | .rotate | .increment => w.i + 1
  | _                                 => w.i

def rotations (w : Worker) : ℕ :=
  match w.pc with
  | .increment => w.i + 1
  | _          => w.i

-- A worker which waits has arrived in its current cycle, and all the others are ready for the current
-- generation of the barrier.
def InStep (generation : ℕ) (w : Worker) : Prop :=
  match w.pc with
  | .waiting ticket => ticket = w.i
  | _               => w.arrivals = generation

theorem InStep.congr {generation' : ℕ} (h : w.InStep generation)
    (hg : w.arrivals = generation → generation' = generation) : w.InStep generation' := by
  rw [InStep] at h ⊢
  split at h
  case h_1    => exact h
  case h_2 hn => exact h.trans (hg h).symm

structure Inv (k : Fin n) (w : Worker) : Prop where
  pos   : w.pos = (k + w.rotations) % n
  hogs  : w.hogs = (List.range w.started).map fun i => (k + i) % n
  fresh : w.pc = .unborn → w.i = 0

end Worker

structure Inv (s : State exp.threads) : Prop where
  rounds  : s.barrier.Rounds fun v => (s.workers v).arrivals
  inStep  : ∀ v, (s.workers v).InStep s.barrier.generation
  workers : ∀ v, (s.workers v).Inv v
  main    : ∀ i, s.main = .create i → ∀ v : Fin exp.threads, i ≤ v → (s.workers v).pc = .unborn

namespace Inv

theorem init : Inv (init exp.threads : State exp.threads) where
  rounds    := .init
  inStep _  := rfl
  workers v := ⟨by simp [Imbalance.init, start, Worker.rotations, Nat.mod_eq_of_lt v.isLt], rfl, fun _ => rfl⟩
  main      := fun _ _ _ _ => rfl

-- A statement outside of the barrier that changes a worker.
theorem update (h : Inv s) {m : Main} (hw : w.Inv self) (ha : w.arrivals = (s.workers self).arrivals)
    (hs : w.InStep s.barrier.generation)
    (hm : ∀ i, m = .create i → ∀ v : Fin exp.threads, i ≤ v →
      ((s.setWorker self w).workers v).pc = .unborn) :
    Inv { s.setWorker self w with main := m } where
  rounds := by
    have he : (fun v => (Function.update s.workers self w v).arrivals) =
        fun v => (s.workers v).arrivals := by
      ext v
      by_cases hv : v = self
      case pos => rw [hv, Function.update_self, ha]
      case neg => rw [Function.update_of_ne hv]
    exact he ▸ h.rounds
  inStep  := State.setWorker_forall (fun _ => Worker.InStep _) hs fun v _ => h.inStep v
  workers := State.setWorker_forall (fun v w => w.Inv v) hw fun v _ => h.workers v
  main    := hm

theorem setWorker (h : Inv s) (hu : (s.workers self).pc ≠ .unborn) (hw : w.Inv self)
    (ha : w.arrivals = (s.workers self).arrivals) (hs : w.InStep s.barrier.generation) :
    Inv (s.setWorker self w) := by
  refine h.update hw ha hs fun i hm => ?_
  refine State.setWorker_forall (fun v w => i ≤ v → w.pc = .unborn) ?_ fun v _ => h.main i hm v
  exact fun hi => absurd (h.main i hm self hi) hu

theorem i_eq_generation (h : Inv s) (hp : (s.workers self).pc = .barrierWait) :
    (s.workers self).i = s.barrier.generation := by
  simpa only [Worker.InStep, Worker.arrivals, hp] using h.inStep self

-- As the others do not pass the barrier before `self` arrives, it is in their generation.
theorem barrierWait (h : Inv s) (hp : (s.workers self).pc = .barrierWait) :
    Inv { s.setWorker self { s.workers self with pc := .waiting s.barrier.generation } with
      barrier := s.barrier.arrive exp.threads } where
  rounds := by
    have hs := h.i_eq_generation hp
    have hr := h.rounds.arrive (i := self) <| by simpa only [Worker.arrivals, hp] using hs
    rw [Fintype.card_fin] at hr
    convert hr using 1
    ext v
    by_cases hv : v = self
    case pos => simp [State.setWorker, hv, Worker.arrivals, hs]
    case neg => simp [State.setWorker, Function.update_of_ne hv]
  inStep := by
    have hs := h.i_eq_generation hp
    refine State.setWorker_forall (fun _ => Worker.InStep _) hs.symm fun v hv => ?_
    refine (h.inStep v).congr fun hg => ?_
    have ha : (s.workers self).arrivals = s.barrier.generation := by
      simpa only [Worker.arrivals, hp] using hs
    simpa only [Fintype.card_fin] using h.rounds.arrive_generation ha hg hv
  workers := by
    have ⟨hpos, hhogs, _⟩ := h.workers self
    refine State.setWorker_forall (fun v w => w.Inv v) ⟨?_, ?_, nofun⟩ fun v _ => h.workers v
    · simpa only [Worker.rotations, hp] using hpos
    · simpa only [Worker.started, hp] using hhogs
  main i hm := by
    refine State.setWorker_forall (fun v w => i ≤ v → w.pc = .unborn) ?_ fun v _ => h.main i hm v
    exact fun hi => by simp [h.main i hm self hi] at hp

theorem worker (h : Inv s) (he : worker exp s self = some s') : Inv s' := by
  have ⟨hpos, hhogs, _⟩ := h.workers self
  have hs := h.inStep self
  have hr := h.rounds.le self
  cases hp : (s.workers self).pc <;>
    simp only [Imbalance.worker, hp, Option.some.injEq, reduceCtorEq,
      Option.ite_none_left_eq_some] at he <;>
    simp only [Worker.rotations, Worker.started, Worker.InStep, Worker.arrivals, hp] at hpos hhogs hs hr
  case test =>
    split at he <;> cases he
    case isTrue =>
      refine h.setWorker (by simp [hp]) ⟨hpos, ?_, nofun⟩ (by simp [Worker.arrivals, doHog, hp]) hs
      simp [Worker.started, doHog, List.range_succ, hhogs, hpos]
    case isFalse =>
      exact h.setWorker (by simp [hp]) ⟨hpos, hhogs, nofun⟩ (by simp [Worker.arrivals, hp]) hs
  case hog niters =>
    subst he
    split <;> exact h.setWorker (by simp [hp]) ⟨hpos, hhogs, nofun⟩ (by simp [Worker.arrivals, hp]) hs
  case barrierWait => exact he ▸ h.barrierWait hp
  case waiting ticket =>
    obtain ⟨hn, rfl⟩ := he
    refine h.setWorker (by simp [hp]) ⟨hpos, hhogs, nofun⟩ (by simp [Worker.arrivals, hp]) ?_
    have := h.rounds.between self
    simp only [Worker.InStep, Worker.arrivals, hp] at this ⊢
    omega
  case rotate =>
    subst he
    refine h.setWorker (by simp [hp]) ⟨?_, hhogs, nofun⟩ (by simp [Worker.arrivals, hp]) hs
    simp [Worker.rotations, hpos, Nat.add_assoc]
  case increment =>
    subst he
    exact h.setWorker (by simp [hp]) ⟨hpos, hhogs, nofun⟩ (by simp [Worker.arrivals, hp]) hs

theorem step (h : Inv s) (he : step exp s e = some s') : Inv s' := by
  cases e
  case worker => exact h.worker he
  case main =>
    simp only [Imbalance.step, Imbalance.main] at he
    cases hm : s.main <;> simp only [hm, reduceCtorEq] at he
    case create i =>
      split at he <;> cases he
      case isFalse => exact { h with main := nofun }
      case isTrue hi =>
        have hu := h.main i hm ⟨i, hi⟩ le_rfl
        have hs := h.inStep ⟨i, hi⟩
        have hz := (h.workers ⟨i, hi⟩).fresh hu
        simp only [Worker.InStep, Worker.arrivals, hu, hz] at hs
        refine h.update ⟨?_, rfl, nofun⟩ ?_ hs fun j hj v hv => ?_
        · simp [start, Worker.rotations, Nat.mod_eq_of_lt hi]
        · simp [start, Worker.arrivals, hu, hz]
        · obtain rfl := Main.create.inj hj
          have hne : v ≠ ⟨i, hi⟩ := by
            rintro rfl
            exact absurd hv <| Nat.not_succ_le_self i
          simpa [State.setWorker, Function.update_of_ne hne] using h.main i hm v (by omega)
    case join i =>
      split at he
      case isTrue =>
        split at he <;> cases he
        exact { h with main := nofun }
      case isFalse =>
        cases he
        exact { h with main := nofun }

theorem reachable (h : (imbalance exp).Reachable s) : Inv s :=
  h.invariant init fun h _ he => h.step he

end Inv
end WorkloadKit.Imbalance
