import Mathlib.Data.Rat.Cast.Order
import WorkloadKit.Library.Rest
import WorkloadKit.Sigbench.Once
import WorkloadKit.Utils.Theorems.Timespec

namespace WorkloadKit.Sigbench

open Utils
open scoped BigOperators

variable {n : ℕ} {repeats : ℤ} {s s' : State n} {self v : Fin n} {w : Worker} {c : Pc} {now t : ℕ}
  {passed : List ℕ} {e : Event n} {es : List (Event n)}

@[simp]
theorem clock_ns : (clock now).ns = now := by
  simp only [clock, Timespec.ns]
  omega

namespace Pc

-- How many times a thread has arrived at the barrier, and its ticket if it waits there.
def arrivals : Pc → ℕ
  | setaffinity | profileInit | barrierOne                                      => 0
  | waitingOne _ | clockOne | profileFunc _ | clockTwo | barrierTwo             => 1
  | waitingTwo _ | critical | test | set | leave | report | returned            => 2

def ticket : Pc → Option ℕ
  | waitingOne ticket | waitingTwo ticket => some ticket
  | _                                     => none

def part (c : Pc) : ℕ × Option ℕ :=
  (c.arrivals, c.ticket)

-- The variables `t1` and `t2` have been set.
def started : Pc → Bool
  | profileFunc _ | clockTwo                                                                 => true
  | barrierTwo | waitingTwo _ | critical | test | set | leave | report | returned            => true
  | _                                                                                        => false

def stopped : Pc → Bool
  | barrierTwo | waitingTwo _ | critical | test | set | leave | report | returned => true
  | _                                                                             => false

def inCritical : Pc → Bool
  | test | set | leave => true
  | _                  => false

-- The variable `elapsed` takes the thread into account.
def counted : Pc → Bool
  | leave | report | returned => true
  | _                         => false

-- The number of iterations of `profile_func` that have been made.
def iterations (repeats : ℤ) : Pc → ℕ
  | profileFunc i => i
  | c             => if c.started then repeats.toNat else 0

end Pc

-- The measurements of a thread, given the times at which the barrier has been passed.
structure Times (repeats : ℤ) (now : ℕ) (passed : List ℕ) (w : Worker) : Prop where
  started : w.pc.started = true → ∃ o, passed.getLast? = some o ∧ (o : ℤ) ≤ w.t1.ns ∧ w.t1.ns ≤ now
  length  : w.data.length = w.pc.iterations repeats
  bound   : w.pc.iterations repeats ≤ repeats.toNat
  data    : ∀ t ∈ w.data, w.t1.ns ≤ t.ns ∧ t.ns ≤ now
  sorted  : w.data.Pairwise fun t u => t.ns ≤ u.ns
  stopped : w.pc.stopped = true → w.t1.ns ≤ w.t2.ns ∧ w.t2.ns ≤ now ∧ ∀ t ∈ w.data, t.ns ≤ w.t2.ns
  closed  : w.pc.arrivals = 2 → ∀ c o, passed = [c, o] → w.t2.ns ≤ c

namespace Times

theorem tick (h : Times repeats now passed w) : Times repeats (now + 1) passed w where
  started hs   :=
    have ⟨o, ho, hl, hu⟩ := h.started hs
    ⟨o, ho, hl, by omega⟩
  length       := h.length
  bound        := h.bound
  data t ht    := by
    have := h.data t ht
    omega
  sorted       := h.sorted
  stopped hs   :=
    have ⟨hl, hu, hd⟩ := h.stopped hs
    ⟨hl, by omega, hd⟩
  closed       := h.closed

theorem stopped_of_arrivals (hc : c.arrivals = 2) : c.stopped = true := by
  cases c <;> simp_all [Pc.arrivals, Pc.stopped]

-- The barrier is passed.
theorem pass (h : Times repeats now passed w) (hl : passed.length ≤ 1) :
    Times repeats now (now :: passed) w where
  started hs   := by
    have ⟨o, ho, hb⟩ := h.started hs
    cases passed
    case nil  => simp at ho
    case cons => exact ⟨o, by simpa using ho, hb⟩
  length       := h.length
  bound        := h.bound
  data         := h.data
  sorted       := h.sorted
  stopped      := h.stopped
  closed hc c o hp := by
    obtain ⟨rfl, _⟩ := List.cons.inj hp
    exact (h.stopped <| stopped_of_arrivals hc).right.left

-- The thread goes on without a measurement.
theorem goto (h : Times repeats now passed w) (hs : c.started = w.pc.started) (hp : c.stopped = w.pc.stopped)
    (hi : c.iterations repeats = w.pc.iterations repeats)
    (ha : c.arrivals = 2 → w.pc.arrivals = 2 ∨ passed.length ≤ 1) :
    Times repeats now passed { w with pc := c } where
  started hc   := h.started <| hs ▸ hc
  length       := h.length.trans hi.symm
  bound        := hi ▸ h.bound
  data         := h.data
  sorted       := h.sorted
  stopped hc   := h.stopped <| hp ▸ hc
  closed hc c o hl := by
    rcases ha hc with ha | ha
    · exact h.closed ha c o hl
    · simp [hl] at ha

theorem clockOne (h : Times repeats now passed w) (hp : w.pc = .clockOne) {o : ℕ} (ho : passed.getLast? = some o)
    (hn : o ≤ now) : Times repeats now passed { w with pc := .profileFunc 0, t1 := clock now } := by
  have hd : w.data = [] := List.eq_nil_of_length_eq_zero <| by simp [h.length, hp, Pc.iterations, Pc.started]
  refine ⟨fun _ => ⟨o, ho, ?_, ?_⟩, ?_, ?_, ?_, h.sorted, nofun, nofun⟩
  all_goals simp [hd, Pc.iterations, hn]

theorem profileFunc {i : ℕ} (h : Times repeats now passed w) (hp : w.pc = .profileFunc i) (hi : i < repeats) :
    Times repeats now passed { w with pc := .profileFunc (i + 1), data := w.data ++ [clock now] } := by
  have ⟨o, ho, hl, hu⟩ := h.started <| by rw [hp]; rfl
  have hn := h.length
  simp only [hp, Pc.iterations] at hn
  refine ⟨fun _ => ⟨o, ho, hl, hu⟩, ?_, ?_, fun t ht => ?_, ?_, nofun, nofun⟩
  · simp [hn, Pc.iterations]
  · simp only [Pc.iterations]
    omega
  · rcases List.mem_append.mp ht with ht | ht
    · exact h.data t ht
    · obtain rfl := List.mem_singleton.mp ht
      simpa using hu
  · refine List.pairwise_append.mpr ⟨h.sorted, List.pairwise_singleton _ _, fun t ht u hu => ?_⟩
    obtain rfl := List.mem_singleton.mp hu
    simpa using (h.data t ht).right

theorem clockTwo (h : Times repeats now passed w) (hp : w.pc = .clockTwo) :
    Times repeats now passed { w with pc := .barrierTwo, t2 := clock now } := by
  have ⟨o, ho, hl, hu⟩ := h.started <| by rw [hp]; rfl
  have hn := h.length
  rw [hp] at hn
  refine ⟨fun _ => ⟨o, ho, hl, hu⟩, hn, ?_, h.data, h.sorted, fun _ => ⟨?_, ?_, fun t ht => ?_⟩, nofun⟩
  · simp [Pc.iterations, Pc.started]
  · simpa using hu
  · simp
  · simpa using (h.data t ht).right

end Times

structure Inv (repeats : ℤ) (s : State n) : Prop where
  synced   : s.barrier.Synced (fun v => (s.workers v).pc.part.fst) fun v => (s.workers v).pc.part.snd
  length   : s.passed.length = s.barrier.generation
  past     : ∀ t ∈ s.passed, t ≤ s.now
  times    : ∀ v, Times repeats s.now s.passed (s.workers v)
  critical : s.critical.HeldAt Pc.inCritical fun v => (s.workers v).pc
  nonneg   : 0 ≤ s.elapsed
  set      : ∀ v, (s.workers v).pc = .set → s.elapsed < (s.workers v).es
  counted  : ∀ v, (s.workers v).pc.counted = true → (s.workers v).es ≤ s.elapsed
  attained : s.elapsed = 0 ∨ ∃ v, (s.workers v).pc.stopped = true ∧ s.elapsed = (s.workers v).es

namespace Inv

theorem init [NeZero n] : Inv repeats (sigbenchOnce n repeats).init where
  synced   := .init
  length   := rfl
  past     := by simp [sigbenchOnce]
  times _  := ⟨nofun, rfl, by simp [sigbenchOnce, Pc.iterations, Pc.started], by simp [sigbenchOnce],
    by simp [sigbenchOnce], nofun, nofun⟩
  critical := fun _ => by simp [sigbenchOnce, Pc.inCritical]
  nonneg   := le_rfl
  set      := nofun
  counted  := nofun
  attained := .inl rfl

theorem tick (h : Inv repeats s) : Inv repeats { s with now := s.now + 1 } where
  synced   := h.synced
  length   := h.length
  past t ht := (h.past t ht).trans <| Nat.le_succ _
  times v  := (h.times v).tick
  critical := h.critical
  nonneg   := h.nonneg
  set      := h.set
  counted  := h.counted
  attained := h.attained

theorem synced_update (h : Inv repeats s) {b : Barrier}
    (hb : Barrier.Move n s.barrier (s.workers self).pc.part w.pc.part b) :
    b.Synced (fun v => (Function.update s.workers self w v).pc.part.fst) fun v =>
      (Function.update s.workers self w v).pc.part.snd := by
  refine @Barrier.Synced.move _ _ _ _ _ _ (fun w : Worker => w.pc.part) s.workers self w h.synced ?_
  rwa [Fintype.card_fin]

theorem pc_update : (fun v => (Function.update s.workers self w v).pc) =
    Function.update (fun v => (s.workers v).pc) self w.pc :=
  Function.comp_update Worker.pc s.workers self w

-- A thread goes on, where it does not touch `elapsed`.
theorem update (h : Inv repeats s) {b : Barrier} {l : Lock (Fin n)} {passed : List ℕ}
    (hb : Barrier.Move n s.barrier (s.workers self).pc.part w.pc.part b) (hp : passed.length = b.generation)
    (hn : ∀ t ∈ passed, t ≤ s.now) (ht : ∀ v, Times repeats s.now passed (Function.update s.workers self w v))
    (hl : l.HeldAt Pc.inCritical (Function.update (fun v => (s.workers v).pc) self w.pc))
    (hs : w.pc = .set → s.elapsed < w.es) (hc : w.pc.counted = true → w.es ≤ s.elapsed)
    (hm : (s.workers self).pc.stopped = true → w.pc.stopped = true ∧ w.es = (s.workers self).es) :
    Inv repeats { s.setWorker self w with barrier := b, critical := l, passed } where
  synced   := h.synced_update hb
  length   := hp
  past     := hn
  times    := ht
  critical := pc_update ▸ hl
  nonneg   := h.nonneg
  set      := (Function.forall_update_iff s.workers fun _ w => w.pc = .set → s.elapsed < w.es).mpr
    ⟨hs, fun v _ => h.set v⟩
  counted  := (Function.forall_update_iff s.workers fun _ w => w.pc.counted = true → w.es ≤ s.elapsed).mpr
    ⟨hc, fun v _ => h.counted v⟩
  attained := by
    refine h.attained.imp_right fun ⟨v, hv, he⟩ => ⟨v, ?_⟩
    by_cases hvs : v = self
    case pos =>
      subst hvs
      have ⟨hw, hw'⟩ := hm hv
      simpa [State.setWorker, hw, hw'] using he
    case neg => simpa [State.setWorker, hvs] using ⟨hv, he⟩

theorem times_update (h : Inv repeats s) (ht : Times repeats s.now s.passed w) :
    ∀ v, Times repeats s.now s.passed (Function.update s.workers self w v) :=
  (Function.forall_update_iff s.workers fun _ w => Times repeats s.now s.passed w).mpr ⟨ht, fun v _ => h.times v⟩

theorem setWorker (h : Inv repeats s)
    (hb : Barrier.Move n s.barrier (s.workers self).pc.part w.pc.part s.barrier)
    (ht : Times repeats s.now s.passed w) (hl : w.pc.inCritical = (s.workers self).pc.inCritical)
    (hs : w.pc = .set → s.elapsed < w.es) (hc : w.pc.counted = true → w.es ≤ s.elapsed)
    (hm : (s.workers self).pc.stopped = true → w.pc.stopped = true ∧ w.es = (s.workers self).es) :
    Inv repeats (s.setWorker self w) :=
  h.update hb h.length h.past (h.times_update ht) (h.critical.keep hl) hs hc hm

-- The thread goes on to a statement of the same kind.
theorem goto (h : Inv repeats s) (hb : Barrier.Move n s.barrier (s.workers self).pc.part c.part s.barrier)
    (hs : c.started = (s.workers self).pc.started) (hp : c.stopped = (s.workers self).pc.stopped)
    (hi : c.iterations repeats = (s.workers self).pc.iterations repeats)
    (ha : c.arrivals = 2 → (s.workers self).pc.arrivals = 2)
    (hl : c.inCritical = (s.workers self).pc.inCritical) (he : c = .set → s.elapsed < (s.workers self).es)
    (hc : c.counted = true → (s.workers self).es ≤ s.elapsed) : Inv repeats (s.goto self c) :=
  h.setWorker hb ((h.times self).goto hs hp hi fun hc => .inl <| ha hc) hl he hc fun hs => ⟨hp.trans hs, rfl⟩

theorem wait (h : Inv repeats s) {ticket : ℕ} (hw : wait s self ticket c = some s')
    (ht : (s.workers self).pc.ticket = some ticket)
    (hn : c.ticket = none) (ha : c.arrivals = (s.workers self).pc.arrivals)
    (hs : c.started = (s.workers self).pc.started) (hp : c.stopped = (s.workers self).pc.stopped)
    (hi : c.iterations repeats = (s.workers self).pc.iterations repeats)
    (hl : c.inCritical = (s.workers self).pc.inCritical) (he : c ≠ .set) (hc : c.counted = false) :
    Inv repeats s' := by
  obtain ⟨hg, hw⟩ := Option.ite_none_left_eq_some.mp hw
  refine Option.some.inj hw ▸ h.goto (.pass ticket ht ?_ hg) hs hp hi (fun hc => ha ▸ hc) hl
    (fun hc => absurd hc he) fun hc' => by simp [hc] at hc'
  rw [Pc.part, hn, ha]
  rfl

-- If the thread is the last one to arrive, then the barrier is passed now.
theorem arrive (h : Inv repeats s) (hr : (s.workers self).pc.ticket = none)
    (ht : c.ticket = some s.barrier.generation) (ha : c.arrivals = (s.workers self).pc.arrivals + 1)
    (hle : c.arrivals ≤ 2) (hs : c.started = (s.workers self).pc.started)
    (hp : c.stopped = (s.workers self).pc.stopped)
    (hi : c.iterations repeats = (s.workers self).pc.iterations repeats)
    (hl : c.inCritical = (s.workers self).pc.inCritical) (he : c ≠ .set) (hc : c.counted = false) :
    Inv repeats (Sigbench.arrive s self c) := by
  have hg : (s.workers self).pc.arrivals = s.barrier.generation := h.synced.ready self hr
  have hlen : s.passed.length ≤ 1 := by
    rw [h.length]
    omega
  have hgo := (h.times self).goto hs hp hi fun _ => .inr hlen
  have ht' := @times_update _ _ _ self _ h hgo
  have hm : Barrier.Move n s.barrier (s.workers self).pc.part c.part (s.barrier.arrive n) :=
    .arrive hr <| by rw [Pc.part, ht, ha]; rfl
  refine h.update hm ?_ ?_ ?_ (h.critical.keep hl) (fun hc => absurd hc he) (fun hc' => by simp [hc] at hc')
    fun hs => ⟨hp.trans hs, rfl⟩
  all_goals
    split
    case isTrue hb  => first | exact hb ▸ h.length | exact h.past | exact ht'
  · rename_i hb
    rw [List.length_cons, h.length]
    simp only [Barrier.arrive] at hb ⊢
    split <;> simp_all
  · exact List.forall_mem_cons.mpr ⟨le_rfl, h.past⟩
  · exact fun v => (ht' v).pass hlen

-- After the first barrier has been passed, and before the second one, its time is the only one.
theorem clockOne (h : Inv repeats s) (hp : (s.workers self).pc = .clockOne) :
    Inv repeats (s.setWorker self { s.workers self with pc := .profileFunc 0, t1 := clock s.now }) := by
  have hg : 1 = s.barrier.generation := by
    simpa [hp, Pc.part, Pc.arrivals] using h.synced.ready self (by rw [hp]; rfl)
  obtain ⟨o, ho⟩ := List.length_eq_one_iff.mp <| h.length.trans hg.symm
  have hn := h.past o <| by simp [ho]
  refine h.setWorker (.stay <| by rw [hp]; rfl) ((h.times self).clockOne hp (o := o) (by simp [ho]) hn)
    (by rw [hp]; rfl) nofun nofun fun hs => ?_
  simp [hp, Pc.stopped] at hs

theorem profileFunc (h : Inv repeats s) {i : ℕ} (hp : (s.workers self).pc = .profileFunc i) (hi : i < repeats) :
    Inv repeats (s.setWorker self { s.workers self with
      pc := .profileFunc (i + 1), data := (s.workers self).data ++ [clock s.now] }) := by
  refine h.setWorker (.stay <| by rw [hp]; rfl) ((h.times self).profileFunc hp hi) (by rw [hp]; rfl) nofun nofun
    fun hs => ?_
  simp [hp, Pc.stopped] at hs

theorem clockTwo (h : Inv repeats s) (hp : (s.workers self).pc = .clockTwo) :
    Inv repeats (s.setWorker self { s.workers self with pc := .barrierTwo, t2 := clock s.now }) := by
  refine h.setWorker (.stay <| by rw [hp]; rfl) ((h.times self).clockTwo hp) (by rw [hp]; rfl) nofun nofun
    fun hs => ?_
  simp [hp, Pc.stopped] at hs

theorem enter (h : Inv repeats s) (hp : (s.workers self).pc = .critical) (hl : s.critical = none) :
    Inv repeats { s.goto self .test with critical := some self } := by
  refine h.update (.stay <| by rw [hp]; rfl) h.length h.past (h.times_update ?_) ((hl ▸ h.critical).acquire rfl)
    nofun nofun fun _ => ⟨rfl, rfl⟩
  refine (h.times self).goto ?_ ?_ ?_ ?_ <;> simp [hp, Pc.started, Pc.stopped, Pc.iterations, Pc.arrivals]

-- Nobody else has changed `elapsed` since the thread has compared it.
theorem setElapsed (h : Inv repeats s) (hp : (s.workers self).pc = .set) :
    Inv repeats { s.goto self .leave with elapsed := (s.workers self).es } := by
  have hlt := h.set self hp
  have hin : (s.workers self).pc.inCritical = true := by rw [hp]; rfl
  have ht : Times repeats s.now s.passed { s.workers self with pc := .leave } := by
    refine (h.times self).goto ?_ ?_ ?_ ?_ <;> simp [hp, Pc.started, Pc.stopped, Pc.iterations, Pc.arrivals]
  refine ⟨h.synced_update (.stay <| by rw [hp]; rfl), h.length, h.past, h.times_update ht,
    pc_update ▸ h.critical.keep (by rw [hp]; rfl), h.nonneg.trans hlt.le, fun v hv => ?set, fun v hv => ?counted,
    .inr ⟨self, ?attained⟩⟩
  case set =>
    by_cases hvs : v = self
    case pos => simp [State.goto, State.setWorker, hvs] at hv
    case neg =>
      have hv : (s.workers v).pc = .set := by simpa [State.goto, State.setWorker, hvs] using hv
      exact absurd (h.critical.unique (by rw [hv]; rfl) hin) hvs
  case counted =>
    by_cases hvs : v = self
    case pos => simp [State.goto, State.setWorker, hvs, Worker.es]
    case neg =>
      have hv : (s.workers v).pc.counted = true := by simpa [State.goto, State.setWorker, hvs] using hv
      simpa [State.goto, State.setWorker, hvs] using (h.counted v hv).trans hlt.le
  case attained => simp [State.goto, State.setWorker, Pc.stopped, Worker.es]

theorem leave (h : Inv repeats s) (hp : (s.workers self).pc = .leave) :
    Inv repeats { s.goto self .report with critical := none } := by
  have hin : (s.workers self).pc.inCritical = true := by rw [hp]; rfl
  refine h.update (.stay <| by rw [hp]; rfl) h.length h.past (h.times_update ?_) (h.critical.release hin rfl)
    nofun (fun _ => h.counted self <| by rw [hp]; rfl) fun _ => ⟨rfl, rfl⟩
  refine (h.times self).goto ?_ ?_ ?_ ?_ <;> simp [hp, Pc.started, Pc.stopped, Pc.iterations, Pc.arrivals]

theorem thread (h : Inv repeats s) (he : sigbenchThread repeats s self = some s') : Inv repeats s' := by
  cases hp : (s.workers self).pc <;>
    simp only [sigbenchThread, hp, Option.some.injEq, reduceCtorEq] at he
  case setaffinity =>
    subst he
    refine h.goto (.stay ?_) ?_ ?_ ?_ ?_ ?_ nofun ?_ <;>
      simp [hp, Pc.part, Pc.arrivals, Pc.ticket, Pc.started, Pc.stopped, Pc.iterations, Pc.inCritical,
        Pc.counted]
  case profileInit =>
    subst he
    split
    case isTrue => exact { h with }
    refine h.goto (.stay ?_) ?_ ?_ ?_ ?_ ?_ nofun ?_ <;>
      simp [hp, Pc.part, Pc.arrivals, Pc.ticket, Pc.started, Pc.stopped, Pc.iterations, Pc.inCritical,
        Pc.counted]
  case barrierOne | barrierTwo =>
    subst he
    refine h.arrive ?_ rfl ?_ ?_ ?_ ?_ ?_ ?_ nofun rfl <;>
      simp [hp, Pc.arrivals, Pc.ticket, Pc.started, Pc.stopped, Pc.iterations, Pc.inCritical]
  case waitingOne | waitingTwo =>
    refine h.wait he ?_ rfl ?_ ?_ ?_ ?_ ?_ nofun rfl <;>
      simp [hp, Pc.arrivals, Pc.ticket, Pc.started, Pc.stopped, Pc.iterations, Pc.inCritical]
  case clockOne => exact he ▸ h.clockOne hp
  case profileFunc i =>
    subst he
    split
    case isTrue hi  => exact h.profileFunc hp hi
    case isFalse hi =>
      have hb := (h.times self).bound
      refine h.goto (.stay ?_) ?_ ?_ ?_ ?_ ?_ nofun nofun <;>
        simp_all [Pc.part, Pc.arrivals, Pc.ticket, Pc.started, Pc.stopped, Pc.iterations, Pc.inCritical]
      omega
  case clockTwo => exact he ▸ h.clockTwo hp
  case critical =>
    obtain ⟨_, ha, rfl⟩ := Option.map_eq_some_iff.mp he
    obtain ⟨hl, rfl⟩ := Lock.acquire_eq_some.mp ha
    exact h.enter hp hl
  case test =>
    subst he
    split
    case isTrue hlt =>
      refine h.goto (.stay ?_) ?_ ?_ ?_ ?_ ?_ (fun _ => hlt) nofun <;>
        simp [hp, Pc.part, Pc.arrivals, Pc.ticket, Pc.started, Pc.stopped, Pc.iterations, Pc.inCritical]
    case isFalse hle =>
      refine h.goto (.stay ?_) ?_ ?_ ?_ ?_ ?_ nofun (fun _ => not_lt.mp hle) <;>
        simp [hp, Pc.part, Pc.arrivals, Pc.ticket, Pc.started, Pc.stopped, Pc.iterations, Pc.inCritical]
  case set   => exact he ▸ h.setElapsed hp
  case leave => exact he ▸ h.leave hp
  case report =>
    subst he
    refine h.goto (.stay ?_) ?_ ?_ ?_ ?_ ?_ nofun (fun _ => h.counted self <| by rw [hp]; rfl) <;>
      simp [hp, Pc.part, Pc.arrivals, Pc.ticket, Pc.started, Pc.stopped, Pc.iterations, Pc.inCritical]

theorem step (h : Inv repeats s) (he : (sigbenchOnce n repeats).step s e = some s') : Inv repeats s' := by
  replace he := (Option.ite_none_left_eq_some.mp he).right
  cases e
  case thread => exact h.thread he
  case tick   => exact Option.some.inj he ▸ h.tick

theorem reachable [NeZero n] (h : (sigbenchOnce n repeats).Reachable s) : Inv repeats s :=
  h.invariant init fun h _ he => h.step he

end Inv

end WorkloadKit.Sigbench
