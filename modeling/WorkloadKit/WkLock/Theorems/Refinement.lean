import WorkloadKit.Library.Simulation
import WorkloadKit.WkLock.Atomic
import WorkloadKit.WkLock.Theorems.Ownership

namespace WorkloadKit.WkLock

variable {φ τ : Type} {f : φ} {c : Pc} {s s' : State φ} {fs : List φ}

def Pc.phase : Pc → Phase
  | closed                                                 => .closed
  | openMutex                                              => .opening
  | openSpin | openSet | openUnspin | openPrint            => .taken
  | opened                                                 => .opened
  | releaseSpin | releaseClear | releaseMutex              => .releasing
  | releaseUnspin | releasePrint                           => .given

-- The spinlock and the variable `locked` can not be seen.
def State.atomic (s : State φ) : AtomicLock φ where
  phase f := (s.pc f).phase
  lock    := s.wkLock

@[simp]
theorem atomic_phase : s.atomic.phase f = (s.pc f).phase :=
  rfl

@[simp]
theorem atomic_lock : s.atomic.lock = s.wkLock :=
  rfl

variable [DecidableEq φ] [DecidableEq τ]

theorem atomic_goto {p : Phase} (hc : c.phase = p) : s.atomic.goto f p = (s.setPc f c).atomic := by
  simp only [State.atomic, State.setPc, AtomicLock.goto, ← hc]
  congr 1
  exact (Function.comp_update Pc.phase s.pc f c).symm

theorem atomic_goto_lock {p : Phase} {l : Lock φ} (hc : c.phase = p) :
    { s.atomic.goto f p with lock := l } = { s.setPc f c with wkLock := l }.atomic :=
  congrArg (fun a : AtomicLock φ => { a with lock := l }) (atomic_goto hc)

theorem atomic_setPc (hc : c.phase = (s.pc f).phase) : (s.setPc f c).atomic = s.atomic := by
  rw [← atomic_goto hc, AtomicLock.goto]
  exact congrArg (AtomicLock.mk · s.wkLock) <| Function.update_eq_self f s.atomic.phase

-- The lock is taken and given back by the statements which do that to the mutex. What the module does with its
-- spinlock can not be seen.
theorem atomic_step (h : Inv s) (he : step s f = some s') :
    (atomicLock φ).step s.atomic f = some s'.atomic ∧ s.atomic.call f = s.call f ∨
    s'.atomic = s.atomic ∧ s.call f = none := by
  have stay {c : Pc} (hc : c.phase = (s.pc f).phase) := atomic_setPc hc
  cases hp : s.pc f <;>
    simp only [step, wkOpen, wkRelease, hp, Option.some.injEq, Option.map_eq_some_iff,
      Lock.acquire_eq_some] at he <;>
    simp only [hp] at stay <;>
    simp only [atomicLock, AtomicLock.step, AtomicLock.call, State.call, atomic_phase, atomic_lock, hp, Pc.phase]
  case closed | openPrint | opened | releasePrint =>
    subst he
    exact .inl ⟨congrArg some (atomic_goto rfl), trivial⟩
  case openMutex =>
    obtain ⟨_, ⟨hn, rfl⟩, rfl⟩ := he
    refine .inl ⟨?_, trivial⟩
    rw [hn]
    exact congrArg some <| atomic_goto_lock rfl
  case openSpin | releaseSpin =>
    obtain ⟨_, ⟨hn, rfl⟩, rfl⟩ := he
    exact .inr ⟨stay rfl, trivial⟩
  case openSet | openUnspin | releaseClear | releaseUnspin =>
    subst he
    exact .inr ⟨stay rfl, trivial⟩
  case releaseMutex =>
    subst he
    have hl : s.wkLock = some f := (h.mutex f).mpr <| by rw [hp]; rfl
    exact .inl ⟨(if_pos hl).trans <| congrArg some <| atomic_goto_lock rfl, trivial⟩

def Refines (s : State φ) (a : AtomicLock φ) : Prop :=
  Inv s ∧ a = s.atomic

theorem lockModule_simulation :
    Simulation (lockModule φ) (atomicLock φ) State.call AtomicLock.call Refines where
  init := ⟨.init, rfl⟩
  step := by
    rintro s _ f s' ⟨h, rfl⟩ he
    have hr : Refines s' s'.atomic := ⟨h.step he, rfl⟩
    obtain ⟨hs, hc⟩ | ⟨hs, hc⟩ := atomic_step h he
    case inl => exact Simulation.single hs hc hr
    case inr => exact Simulation.stutter hc (hs ▸ hr)

-- Tasks change the state of the module by its own statements only. Also its removal leaves that as it is.
theorem base_of_step {s s' : Kernel τ φ} {e : TaskEvent τ φ} (h : s.Invariant) (he : s.step e = some s') :
    (∃ f, s.active e = some f ∧ step s.base f = some s'.base) ∨ s.active e = none ∧ s'.base = s.base := by
  cases e <;> simp only [Kernel.active] <;> simp only [Kernel.step] at he
  case openFile t f =>
    obtain ⟨_, he⟩ := Option.ite_none_right_eq_some.mp he
    obtain ⟨_, hb, rfl⟩ := Option.map_eq_some_iff.mp he
    exact .inl ⟨f, rfl, hb⟩
  case run t =>
    rw [Kernel.run] at he
    split at he
    case h_1 => cases he
    case h_2 f hbusy =>
      obtain ⟨_, hb, rfl⟩ := Option.map_eq_some_iff.mp he
      refine .inl ⟨f, hbusy, ?_⟩
      split <;> exact hb
  case fork t child =>
    obtain ⟨_, he⟩ := Option.ite_none_right_eq_some.mp he
    exact .inr ⟨trivial, Option.some.inj he ▸ rfl⟩
  case closeFile t f =>
    obtain ⟨_, he⟩ := Option.ite_none_right_eq_some.mp he
    split at he
    case isTrue hl =>
      obtain ⟨_, hb, rfl⟩ := Option.map_eq_some_iff.mp he
      exact .inl ⟨f, if_pos hl, hb⟩
    case isFalse hl => exact .inr ⟨if_neg hl, Option.some.inj he ▸ rfl⟩
  case exit t =>
    obtain ⟨_, he⟩ := Option.ite_none_right_eq_some.mp he
    exact .inr ⟨trivial, Option.some.inj he ▸ rfl⟩
  case remove t => exact .inr ⟨trivial, h.wkExit he ▸ rfl⟩

def Bases (s : Kernel τ φ) (b : State φ) : Prop :=
  s.Invariant ∧ b = s.base

theorem taskSystem_simulation {live : Finset τ} :
    Simulation (taskSystem live) (lockModule φ) Kernel.call State.call Bases where
  init := ⟨.init, rfl⟩
  step := by
    rintro s _ e s' ⟨h, rfl⟩ he
    have hr : Bases s' s'.base := ⟨h.step he, rfl⟩
    obtain ⟨f, hf, hs⟩ | ⟨hf, hs⟩ := base_of_step h he
    case inl => exact Simulation.single hs (by rw [Kernel.call, hf]; rfl) hr
    case inr => exact Simulation.stutter (by rw [Kernel.call, hf]; rfl) (hs ▸ hr)

-- Whatever tasks do with the files of the module, where they inherit open files, close them in any order, and
-- try to remove the module, all calls and returns of the module are those of a lock that is taken and given
-- back in one step.
theorem refines_atomicLock {live : Finset τ} {s : Kernel τ φ} {es : List (TaskEvent τ φ)}
    (he : (taskSystem live).exec (taskSystem live).init es = some s) :
    ∃ fs a, (atomicLock φ).exec (atomicLock φ).init fs = some a ∧
      (atomicLock φ).trace AtomicLock.call (atomicLock φ).init fs =
        (taskSystem live).trace Kernel.call (taskSystem live).init es ∧
      a = s.base.atomic := by
  have ⟨fs, a, ha, ht, _, hb, hr⟩ := (taskSystem_simulation.trans lockModule_simulation).trace_eq he
  exact ⟨fs, a, ha, ht, hb.right ▸ hr.right⟩

-- A task opens a file while another one has the lock, and it takes it as soon as that one gives it back. The
-- module can not be removed before both files are closed.
theorem refines_atomicLock_contended :
    ∃ fs a, (atomicLock Bool).exec (atomicLock Bool).init fs = some a ∧
      (atomicLock Bool).trace AtomicLock.call (atomicLock Bool).init fs =
        [.open false, .open true, .opened false, .release false, .released false, .opened true, .release true,
          .released true] := by
  let es : List (TaskEvent Bool Bool) :=
    .openFile false false :: List.replicate 3 (.run false) ++ .openFile true true ::
      List.replicate 2 (.run false) ++ .closeFile false false :: List.replicate 3 (.run false) ++ .run true ::
      List.replicate 2 (.run false) ++ List.replicate 4 (.run true) ++ .closeFile true true ::
      List.replicate 5 (.run true) ++ [.remove false]
  have hs : ((taskSystem {false, true}).exec (taskSystem {false, true}).init es).isSome := by decide +kernel
  have ht : (taskSystem {false, true}).trace Kernel.call (taskSystem {false, true}).init es =
      [.open false, .open true, .opened false, .release false, .released false, .opened true, .release true,
        .released true] := by
    decide +kernel
  have ⟨_, he⟩ := Option.isSome_iff_exists.mp hs
  have ⟨fs, a, ha, hf, _⟩ := refines_atomicLock he
  exact ⟨fs, a, ha, hf.trans ht⟩

end WorkloadKit.WkLock
