import WorkloadKit.KernelLock.State

namespace WorkloadKit.KernelLock

variable {o : Outcome} {s s' : State} {t u : Thread} {c : Pc} {e : Event} {n : ℕ}

-- The two threads that meet at the barrier.
inductive Party
  | main | lowprio1
  deriving DecidableEq

instance : Fintype Party where
  elems    := {.main, .lowprio1}
  complete := by rintro ⟨⟩ <;> decide

instance : Nonempty Party :=
  ⟨.main⟩

-- The calls of `lowprio1` that it has to succeed in before it gets to the barrier.
def Outcome.LowSucceeds (o : Outcome) : Prop :=
  o.setAffinityPrio .lowprio1 = 0 ∧ 0 ≤ o.openLock .lowprio1

-- How often `main` and `lowprio1` have arrived at the barrier, and how often the barrier has been passed.
def Main.Arrived (generation n : ℕ) : Main → Prop
  | setAffinityPrio | create .lowprio1 | barrierWait => n = 0
  | waiting ticket                                   => ticket = 0 ∧ n = 1
  | create .highprio1 | create .highprio0 | join _   => n = 1 ∧ generation = 1
  | returned                                         => n ≤ 1

def Pc.Arrived (o : Outcome) (generation n : ℕ) : Pc → Prop
  | unborn | prctl | setAffinityPrio | openLock | barrierWait => n = 0
  | waiting ticket                                            => ticket = 0 ∧ n = 1
  | busyWork | busyLoop | closeLock                           => n = 1 ∧ generation = 1
  | returned                                                  =>
    n ≤ 1 ∧ (o.LowSucceeds → n = 1 ∧ generation = 1)

-- As long as nobody has passed the barrier, it does not matter how often it has been passed.
theorem Main.Arrived.of_zero {m : Main} (h : m.Arrived 0 n) (generation : ℕ) :
    m.Arrived generation n := by
  cases m
  case create t => cases t <;> simp_all [Arrived]
  all_goals simp_all [Arrived]

theorem Pc.Arrived.of_zero (h : c.Arrived o 0 n) (generation : ℕ) : c.Arrived o generation n := by
  cases c <;> simp_all [Arrived]

theorem Pc.arrived_returned {generation : ℕ} (h : n = 1 ∧ generation = 1) :
    Pc.returned.Arrived o generation n :=
  ⟨h.left.le, fun _ => h⟩

-- Where a thread has the file open.
def Pc.hasLock : Pc → Bool
  | barrierWait | waiting _ | busyWork | closeLock => true
  | _                                              => false

-- The statements that a thread has got.
def Thread.Runs : Thread → Pc → Prop
  | lowprio1,  c => c ≠ .busyLoop
  | highprio1, c => c ≠ .openLock ∧ c.hasLock = false
  | highprio0, c => c ≠ .busyLoop ∧ (c.hasLock = true → c = .closeLock)

theorem Thread.runs_returned : t.Runs .returned := by
  cases t <;> simp [Runs, Pc.hasLock]

namespace Main

-- Which threads `main` has not tried to create yet, and which ones it has created and will join.
def toCreate : Main → Thread → Bool
  | setAffinityPrio, _ | create .lowprio1, _                      => true
  | barrierWait, t | waiting _, t | create .highprio1, t          => t ≠ .lowprio1
  | create .highprio0, t                                          => t = .highprio0
  | join _, _ | returned, _                                       => false

def toJoin : Main → Thread → Bool
  | setAffinityPrio, _ | create .lowprio1, _ | returned, _        => false
  | barrierWait, t | waiting _, t | create .highprio1, t          => t = .lowprio1
  | create .highprio0, t                                          => t ≠ .highprio0
  | join .highprio0, _                                            => true
  | join .highprio1, t                                            => t ≠ .highprio0
  | join .lowprio1, t                                             => t = .lowprio1

-- The calls that have succeeded before.
def Called (o : Outcome) : Main → Prop
  | setAffinityPrio | returned => True
  | create .lowprio1           => o.mainSetAffinityPrio = 0
  | _                          => o.mainSetAffinityPrio = 0 ∧ o.create .lowprio1 = 0

end Main

-- The barrier is in a state that `main` and `lowprio1` have brought it to.
def Synced (o : Outcome) (b : Barrier) (m : Main) (c : Pc) : Prop :=
  ∃ arrivals : Party → ℕ, b.Rounds arrivals ∧ m.Arrived b.generation (arrivals .main) ∧
    c.Arrived o b.generation (arrivals .lowprio1)

namespace Synced

variable {b : Barrier} {m m' : Main} {c' : Pc}

theorem setPc (h : Synced o b m c) (hc : ∀ n, c.Arrived o b.generation n → c'.Arrived o b.generation n) :
    Synced o b m c' :=
  have ⟨arrivals, hb, hm, ha⟩ := h
  ⟨arrivals, hb, hm, hc _ ha⟩

theorem setMain (h : Synced o b m c) (hm : ∀ n, m.Arrived b.generation n → m'.Arrived b.generation n) :
    Synced o b m' c :=
  have ⟨arrivals, hb, ha, hc⟩ := h
  ⟨arrivals, hb, hm _ ha, hc⟩

theorem arriveLowprio1 (h : Synced o b m .barrierWait) :
    Synced o (b.arrive 2) m (.waiting b.generation) := by
  have ⟨arrivals, hb, hm, (ha : arrivals .lowprio1 = 0)⟩ := h
  have hg : b.generation = 0 := by
    have := hb.le .lowprio1
    omega
  rw [hg] at hm
  refine ⟨_, hb.arrive (i := .lowprio1) (by omega), ?_, ?_⟩
  · simpa using hm.of_zero _
  · simp [Pc.Arrived, hg]

theorem arriveMain (h : Synced o b .barrierWait c) :
    Synced o (b.arrive 2) (.waiting b.generation) c := by
  have ⟨arrivals, hb, (hm : arrivals .main = 0), ha⟩ := h
  have hg : b.generation = 0 := by
    have := hb.le .main
    omega
  rw [hg] at ha
  refine ⟨_, hb.arrive (i := .main) (by omega), ?_, ?_⟩
  · simp [Main.Arrived, hg]
  · simpa using ha.of_zero _

theorem passLowprio1 (h : Synced o b m (.waiting ticket)) (hn : b.generation ≠ ticket) :
    Synced o b m .busyWork := by
  have ⟨arrivals, hb, hm, ⟨ht, ha⟩⟩ := h
  have := hb.le .lowprio1
  exact ⟨arrivals, hb, hm, ha, by omega⟩

theorem passMain (h : Synced o b (.waiting ticket) c) (hn : b.generation ≠ ticket) :
    Synced o b (.create .highprio1) c := by
  have ⟨arrivals, hb, ⟨ht, hm⟩, ha⟩ := h
  have := hb.le .main
  exact ⟨arrivals, hb, ⟨hm, by omega⟩, ha⟩

end Synced

structure Inv (o : Outcome) (s : State) : Prop where
  synced : Synced o s.barrier s.main (s.pc .lowprio1)
  lock   : s.wkLock.HeldAt Pc.hasLock s.pc
  called : s.main.Called o
  unborn : ∀ t, s.main.toCreate t = true → s.pc t = .unborn
  born   : ∀ t, s.main.toJoin t = true → s.pc t ≠ .unborn
  runs   : ∀ t : Thread, t.Runs (s.pc t)

namespace Inv

theorem init : Inv o (init o) where
  synced   := ⟨fun _ => 0, .init, rfl, rfl⟩
  lock _   := by simp [KernelLock.init, Pc.hasLock]
  called   := trivial
  unborn   := fun _ _ => rfl
  born     := nofun
  runs t   := by cases t <;> simp [KernelLock.init, Thread.Runs, Pc.hasLock]

theorem synced_update (h : Inv o s) (ha : t = .lowprio1 → ∀ n, (s.pc t).Arrived o s.barrier.generation n →
    c.Arrived o s.barrier.generation n) :
    Synced o s.barrier s.main (Function.update s.pc t c .lowprio1) := by
  by_cases ht : t = .lowprio1
  case pos =>
    subst ht
    simpa using h.synced.setPc <| ha rfl
  case neg => simpa [Function.update_of_ne (Ne.symm ht)] using h.synced

theorem goto (h : Inv o s) {l : Lock Thread} {b : Barrier} {cnt : Thread → ℤ} {stderr : List String}
    (hu : s.pc t ≠ .unborn) (hu' : c ≠ .unborn) (hr : t.Runs c)
    (hl : l.HeldAt Pc.hasLock (Function.update s.pc t c))
    (hs : Synced o b s.main (Function.update s.pc t c .lowprio1)) :
    Inv o { s.goto t c with wkLock := l, barrier := b, cnt, stderr } where
  synced := hs
  lock := hl
  called := h.called
  unborn := (Function.forall_update_iff s.pc fun u c => s.main.toCreate u = true → c = .unborn).mpr
    ⟨fun hc => absurd (h.unborn t hc) hu, fun u _ => h.unborn u⟩
  born := (Function.forall_update_iff s.pc fun u c => s.main.toJoin u = true → c ≠ .unborn).mpr
    ⟨fun _ => hu', fun u _ => h.born u⟩
  runs := (Function.forall_update_iff s.pc Thread.Runs).mpr ⟨hr, fun u _ => h.runs u⟩

-- A statement that neither takes nor releases the lock, and that does not change the barrier.
theorem walk (h : Inv o s) {c' : Pc} {stderr : List String} (hp : s.pc t = c') (hu : c' ≠ .unborn)
    (hu' : c ≠ .unborn) (hr : t.Runs c) (hl : c.hasLock = c'.hasLock)
    (ha : t = .lowprio1 → ∀ n, c'.Arrived o s.barrier.generation n → c.Arrived o s.barrier.generation n) :
    Inv o { s.goto t c with stderr } := by
  subst hp
  exact h.goto hu hu' hr (h.lock.keep hl) (h.synced_update ha)

theorem prctl (h : Inv o s) (hp : s.pc t = .prctl) : Inv o (prctl o s t .setAffinityPrio) := by
  refine h.walk hp nofun nofun ?_ rfl fun _ _ => id
  cases t <;> simp [Thread.Runs, Pc.hasLock]

theorem setAffinityPrio (h : Inv o s) (hp : s.pc t = .setAffinityPrio) (hu : c ≠ .unborn) (hr : t.Runs c)
    (hl : c.hasLock = false) (ha : t = .lowprio1 → c = .openLock) : Inv o (setAffinityPrio o s t c) := by
  rw [KernelLock.setAffinityPrio]
  split
  case isFalse => exact h.walk hp nofun hu hr hl fun ht _ hn => ha ht ▸ hn
  case isTrue hf =>
    refine h.walk hp nofun nofun Thread.runs_returned rfl fun ht n (hn : n = 0) => ?_
    exact ⟨by omega, fun hs => absurd (ht ▸ hs.left) hf⟩

theorem openLock (h : Inv o s) (hp : s.pc t = .openLock) (hr : t.Runs c) (hl : c.hasLock = true)
    (ha : t = .lowprio1 → c = .barrierWait) (he : openLock o s t c = some s') : Inv o s' := by
  rw [KernelLock.openLock] at he
  split at he
  case isTrue hf =>
    cases he
    refine h.walk hp nofun nofun Thread.runs_returned rfl fun ht n (hn : n = 0) => ?_
    exact ⟨by omega, fun hs => absurd (ht ▸ hs.right) (Int.not_le.mpr hf)⟩
  case isFalse =>
    simp only [Option.map_eq_some_iff, Lock.acquire_eq_some] at he
    obtain ⟨_, ⟨hn, rfl⟩, rfl⟩ := he
    refine h.goto (by simp [hp]) ?_ hr ((hn ▸ h.lock).acquire hl) (h.synced_update fun ht n hn => ?_)
    · rintro rfl
      contradiction
    · simpa [hp, ha ht, Pc.Arrived] using hn

theorem closeLock (h : Inv o s) (hp : s.pc t = .closeLock) : Inv o (closeLock o s t .returned) := by
  refine h.goto (by simp [hp]) nofun Thread.runs_returned (h.lock.release (by rw [hp]; rfl) rfl) ?_
  exact h.synced_update fun _ n hn => Pc.arrived_returned <| by simpa [hp, Pc.Arrived] using hn

theorem busy (h : Inv o s) (hb : s.pc t = .busyWork ∧ c = .closeLock ∨ s.pc t = .busyLoop ∧ c = .returned)
    (hr : t.Runs c) : Inv o (busy s t c) := by
  rw [KernelLock.busy]
  split
  case isTrue  => exact ⟨h.synced, h.lock, h.called, h.unborn, h.born, h.runs⟩
  case isFalse =>
    rcases hb with ⟨hp, rfl⟩ | ⟨hp, rfl⟩
    case inl => exact h.walk hp nofun nofun hr rfl fun _ _ => id
    case inr => exact h.walk hp nofun nofun hr rfl fun _ _ => Pc.arrived_returned

theorem lowprio1 (h : Inv o s) (he : lowprio1 o s = some s') : Inv o s' := by
  cases hp : s.pc .lowprio1 <;> simp only [KernelLock.lowprio1, hp, Option.some.injEq, reduceCtorEq,
    Option.ite_none_left_eq_some] at he
  case prctl           => exact he ▸ h.prctl hp
  case setAffinityPrio => exact he ▸ h.setAffinityPrio hp nofun nofun rfl fun _ => rfl
  case openLock        => exact h.openLock (c := .barrierWait) hp nofun rfl (fun _ => rfl) he
  case barrierWait     =>
    subst he
    have hs := (hp ▸ h.synced).arriveLowprio1
    exact h.goto (by simp [hp]) nofun nofun (h.lock.keep <| by rw [hp]; rfl) hs
  case busyWork        => exact he ▸ h.busy (.inl ⟨hp, rfl⟩) nofun
  case closeLock       => exact he ▸ h.closeLock hp
  case waiting ticket  =>
    obtain ⟨hn, rfl⟩ := he
    have hs := (hp ▸ h.synced).passLowprio1 hn
    exact h.goto (by simp [hp]) nofun nofun (h.lock.keep <| by rw [hp]; rfl) hs

theorem highprio1 (h : Inv o s) (he : highprio1 o s = some s') : Inv o s' := by
  cases hp : s.pc .highprio1 <;>
    simp only [KernelLock.highprio1, hp, Option.some.injEq, reduceCtorEq] at he
  case prctl           => exact he ▸ h.prctl hp
  case setAffinityPrio => exact he ▸ h.setAffinityPrio hp nofun ⟨nofun, rfl⟩ rfl nofun
  case busyLoop        => exact he ▸ h.busy (.inr ⟨hp, rfl⟩) ⟨nofun, rfl⟩

theorem highprio0 (h : Inv o s) (he : highprio0 o s = some s') : Inv o s' := by
  cases hp : s.pc .highprio0 <;>
    simp only [KernelLock.highprio0, hp, Option.some.injEq, reduceCtorEq] at he
  case prctl           => exact he ▸ h.prctl hp
  case setAffinityPrio => exact he ▸ h.setAffinityPrio hp nofun ⟨nofun, nofun⟩ rfl nofun
  case openLock        => exact h.openLock (c := .closeLock) hp ⟨nofun, fun _ => rfl⟩ rfl nofun he
  case closeLock       => exact he ▸ h.closeLock hp

-- A statement of `main` other than a successful `pthread_create`.
theorem setMain (h : Inv o s) {m : Main} {b : Barrier} {ret : ℤ} {stderr : List String}
    (hs : Synced o b m (s.pc .lowprio1)) (ho : m.Called o)
    (hc : ∀ t, m.toCreate t = true → s.main.toCreate t = true)
    (hj : ∀ t, m.toJoin t = true → s.main.toJoin t = true) :
    Inv o { s with main := m, barrier := b, ret, stderr } where
  synced     := hs
  lock       := h.lock
  called     := ho
  unborn t h' := h.unborn t <| hc t h'
  born t h'  := h.born t <| hj t h'
  runs       := h.runs

theorem create (h : Inv o s) (hm : s.main = .create t) (ho : o.create t = 0) :
    Inv o { s.goto t .prctl with main := .created t, ret := 0 } where
  synced := by
    have hs := hm ▸ h.synced
    cases t
    case lowprio1 =>
      have hu := h.unborn .lowprio1 <| by rw [hm]; rfl
      exact (hs.setMain fun _ => id).setPc <| by simp [hu, State.goto, Pc.Arrived]
    case highprio1 => exact hs.setMain fun _ => id
    case highprio0 => exact hs.setMain fun _ => id
  lock   := h.lock.keep <| by rw [h.unborn t <| by rw [hm]; cases t <;> rfl]; rfl
  called := by
    have hc := hm ▸ h.called
    cases t
    case lowprio1 => exact ⟨hc, ho⟩
    all_goals exact hc
  unborn u hu := by
    have hc : s.main.toCreate u = true := by rw [hm]; cases t <;> cases u <;> trivial
    have hut : u ≠ t := by rintro rfl; cases u <;> contradiction
    exact (Function.update_of_ne hut ..).trans <| h.unborn u hc
  born   u hu := by
    by_cases hut : u = t
    case pos => simp [State.goto, hut]
    case neg =>
      have hj : s.main.toJoin u = true := by rw [hm]; cases t <;> cases u <;> trivial
      simpa [State.goto, Function.update_of_ne hut] using h.born u hj
  runs   u := by
    by_cases hut : u = t
    case pos => subst hut; cases u <;> simp [State.goto, Thread.Runs, Pc.hasLock]
    case neg => simpa [State.goto, Function.update_of_ne hut] using h.runs u

theorem main (h : Inv o s) (he : main o s = some s') : Inv o s' := by
  have hs := h.synced
  have ho := h.called
  cases hm : s.main <;> simp only [KernelLock.main, hm, Option.some.injEq, reduceCtorEq,
    Option.ite_none_left_eq_some, Option.ite_none_right_eq_some] at he <;> rw [hm] at hs ho
  case setAffinityPrio =>
    split at he <;> cases he
    case isTrue =>
      exact h.setMain (hs.setMain fun _ hn => hn.trans_le <| Nat.zero_le 1) trivial nofun nofun
    case isFalse ho =>
      exact h.setMain (hs.setMain fun _ => id) (not_not.mp ho) (by simp [hm, Main.toCreate]) nofun
  case create t =>
    split at he <;> cases he
    case isFalse ho => exact h.create hm <| not_not.mp ho
    case isTrue =>
      refine h.setMain (hs.setMain fun n hn => ?_) (by cases t <;> trivial) (by cases t <;> nofun) ?_
      · cases t
        case lowprio1 => exact hn.trans_le <| Nat.zero_le 1
        all_goals exact hn
      · rintro u hu
        rw [hm]
        cases t <;> cases u <;> trivial
  case barrierWait =>
    subst he
    exact h.setMain hs.arriveMain ho (by simp [hm, Main.toCreate]) (by simp [hm, Main.toJoin])
  case waiting =>
    obtain ⟨hn, rfl⟩ := he
    exact h.setMain (hs.passMain hn) ho (by simp [hm, Main.toCreate]) (by simp [hm, Main.toJoin])
  case join t =>
    obtain ⟨_, rfl⟩ := he
    refine h.setMain (hs.setMain fun n hn => ?_) (by cases t <;> trivial) (by cases t <;> nofun)
      fun u hu => ?_
    · cases t
      case lowprio1 => exact hn.left.le
      all_goals exact hn
    · rw [hm]
      cases t <;> cases u <;> trivial

theorem step (h : Inv o s) (he : step o s e = some s') : Inv o s' := by
  match e with
  | .main              => exact h.main he
  | .thread .lowprio1  => exact h.lowprio1 he
  | .thread .highprio1 => exact h.highprio1 he
  | .thread .highprio0 => exact h.highprio0 he

theorem reachable (h : (kernelLock o).Reachable s) : Inv o s :=
  h.invariant init fun h _ he => h.step he

end Inv
end WorkloadKit.KernelLock
