import Mathlib.Order.Basic
import WorkloadKit.Spin.State

namespace WorkloadKit.Spin

variable {p : Params} {s s' : State} {i j k : ℕ}

-- The number of times that a worker has passed its wait without completing the round that follows.
def Worker.inRound : Worker → ℕ
  | .unborn | .start | .wait                   => 0
  | .test | .spin | .post | .left | .returned => 1

namespace Main

-- How often `sem_start` and `sem_done` have been posted and waited for at index `i` by a main thread
-- for which `k` calls of `spin_run` have returned.
@[simp]
def posts (k i : ℕ) : Main → ℕ
  | runPost j | exitPost j           => if i < j then k + 1 else k
  | runWait _ | exitJoin _ | exitFree | done => k + 1
  | _                                => k

@[simp]
def waits (k i : ℕ) : Main → ℕ
  | runWait j => if i < j then k + 1 else k
  | _         => k

-- Whether the worker `i` has not been created yet.
@[simp]
def Unborn (i : ℕ) : Main → Prop
  | initTest | initCont | initSem _ => True
  | initCreate j                    => j ≤ i
  | _                               => False

-- Whether the worker `i` has been joined.
@[simp]
def Joined (i : ℕ) : Main → Prop
  | exitJoin j      => i < j
  | exitFree | done => True
  | _               => False

-- The values of `cont`, `run` and `alarm`. An alarm is pending as long as `run` is set, except that
-- it has to be requested first.
def Flags (cont run alarm : Bool) : Main → Prop
  | initTest | initCont => cont = false ∧ run = false ∧ alarm = false
  | initSem _ | initCreate _ | next | runTest _ | runSet _ | exitTest | exitCont =>
    cont = true ∧ run = false ∧ alarm = false
  | runTimer _ => cont = true ∧ run = true ∧ alarm = false
  | runPost _ | runWait _ => cont = true ∧ alarm = run
  | exitPost _ | exitJoin _ | exitFree | done => cont = false ∧ run = false ∧ alarm = false
  | failed => False

-- Whether `spin_init` is running.
def Initial : Main → Prop
  | initTest | initCont | initSem _ | initCreate _ => True
  | _                                              => False

-- Whether a call of `spin_run` is being executed.
def calls : Main → ℕ
  | runTest _ | runSet _ | runTimer _ | runPost _ | runWait _ => 1
  | _                                                         => 0

-- Whether `spin_exit` has been called.
def Exiting : Main → Prop
  | exitTest | exitCont | exitPost _ | exitJoin _ | exitFree | done => True
  | _                                                               => False

-- The argument of the current call of `spin_run` is in the range of a timer.
def Valid : Main → Prop
  | runTest usec | runSet usec | runTimer usec => 1 ≤ usec ∧ usec < 1000000
  | _                                          => True

end Main

-- The parameters are what the main thread has done to a slot, and the flags it shares with a worker.
structure Slot.Inv (posts waits k : ℕ) (unborn joined : Prop) (cont run : Bool) (t : Slot) : Prop where
  start    : t.semStart + (t.rounds + t.worker.inRound) = posts
  done     : t.semDone + waits = t.rounds
  unborn   : t.worker = .unborn ↔ unborn
  joined   : joined → t.worker = .returned
  running  : t.worker = .spin ∨ t.worker = .post → cont = true
  leaving  : t.worker = .left ∨ t.worker = .returned → cont = false
  -- Nobody completes a round before the alarm of that round has been delivered.
  finished : t.worker = .post ∨ k < t.rounds → run = false
  -- Nobody completes a round while `cont` is cleared.
  exited   : cont = false → t.rounds = k

structure Inv (p : Params) (s : State) : Prop where
  flags : s.main.Flags s.cont s.run s.alarm
  fresh : s.main.Initial → s.returned = 0
  calls : s.returned + s.main.calls + s.usecs.length = p.usecs.length
  last  : s.main.Exiting → s.usecs = []
  valid : s.main.Valid
  usecs : ∀ u ∈ s.usecs, 1 ≤ u ∧ u < 1000000
  slots : ∀ i < p.n, (s.slots i).Inv (s.main.posts s.returned i) (s.main.waits s.returned i) s.returned
    (s.main.Unborn i) (s.main.Joined i) s.cont s.run

theorem State.setSlot_forall {P : ℕ → Slot → Prop} {t : Slot} (h : ∀ i < p.n, i ≠ j → P i (s.slots i))
    (ht : P j t) : ∀ i < p.n, P i ((s.setSlot j t).slots i) := by
  intro i hi
  by_cases hc : i = j
  case pos => subst hc; simpa [State.setSlot] using ht
  case neg => simpa [State.setSlot, hc] using h i hi hc

namespace Slot.Inv

variable {posts waits : ℕ} {unborn joined : Prop} {cont run : Bool} {t : Slot}

-- When the semaphores have been posted and waited for equally often, the worker is at rest.
theorem at_rest (h : t.Inv k k k unborn joined cont run) :
    t.semStart = 0 ∧ t.semDone = 0 ∧ t.rounds = k ∧ t.worker.inRound = 0 := by
  have := h.start
  have := h.done
  omega

theorem set_run (h : t.Inv k k k unborn joined cont run) : t.Inv k k k unborn joined cont true := by
  have ⟨_, _, hr, hi⟩ := h.at_rest
  refine { h with finished := ?_ }
  rintro (hw | hl)
  · simp [hw, Worker.inRound] at hi
  · omega

theorem clear_cont (h : t.Inv k k k unborn joined cont run) :
    t.Inv k k k unborn joined false run := by
  have ⟨_, _, hr, hi⟩ := h.at_rest
  refine { h with running := ?_, leaving := fun _ => rfl, exited := fun _ => hr }
  rintro (hw | hw) <;> simp [hw, Worker.inRound] at hi

theorem clear_run (h : t.Inv posts waits k unborn joined cont run) :
    t.Inv posts waits k unborn joined cont false :=
  { h with finished := fun _ => rfl }

theorem post (h : t.Inv posts waits k unborn joined cont run) :
    Slot.Inv (posts + 1) waits k unborn joined cont run { t with semStart := t.semStart + 1 } :=
  { h with start := by have := h.start; simp only; omega }

theorem wait (h : t.Inv posts waits k unborn joined cont run) (hd : 0 < t.semDone) :
    Slot.Inv posts (waits + 1) k unborn joined cont run { t with semDone := t.semDone - 1 } :=
  { h with done := by have := h.done; simp only; omega }

-- The calling thread has only waited for a round that is over.
theorem next (h : t.Inv (k + 1) (k + 1) k unborn joined cont run) :
    t.Inv (k + 1) (k + 1) (k + 1) unborn joined cont run ∧ run = false := by
  have := h.done
  have := h.start
  have hr := h.finished <| .inr <| by omega
  exact ⟨{ h with finished := fun _ => hr, exited := fun _ => by omega }, hr⟩

theorem create (h : t.Inv posts waits k unborn joined cont run) (hu : unborn) (hj : ¬joined) :
    Slot.Inv posts waits k False joined cont run { t with worker := .start } := by
  have hw := h.unborn.mpr hu
  have hs := h.start
  simp only [hw, Worker.inRound] at hs
  exact { h with
    start    := hs
    unborn   := by simp
    joined   := hj.elim
    running  := nofun
    leaving  := nofun
    finished := by simpa [hw] using h.finished }

theorem born_cont (h : t.Inv posts waits k unborn joined cont run) (hu : unborn) :
    t.Inv posts waits k unborn joined true run :=
  { h with
    running := fun _ => rfl
    leaving := by simp [h.unborn.mpr hu]
    exited  := nofun }

theorem semInit (h : t.Inv 0 0 0 unborn joined cont run) :
    Slot.Inv 0 0 0 unborn joined cont run { t with semStart := 0, semDone := 0 } := by
  have hd := h.done
  have hs := h.start
  exact { h with start := by simp only; omega, done := by simp only; omega }

theorem worker {t' : Slot} (h : t.Inv posts waits k unborn joined cont run)
    (he : Spin.worker cont run t = some t') : t'.Inv posts waits k unborn joined cont run := by
  obtain ⟨hs, hd, hu, hj, hr, hl, hf, hx⟩ := h
  cases hw : t.worker <;> simp only [Spin.worker, hw, Option.some.injEq, reduceCtorEq,
    Option.ite_none_right_eq_some] at he hs hd hu hj hr hl hf hx
  case wait =>
    obtain ⟨hp, rfl⟩ := he
    constructor <;> simp_all [Worker.inRound]
    omega
  all_goals subst he
  case test => cases cont <;> constructor <;> simp_all [Worker.inRound]
  case spin => cases run <;> constructor <;> simp_all [Worker.inRound]
  all_goals constructor <;> simp_all [Worker.inRound] <;> omega

end Slot.Inv

namespace Inv

theorem init (hu : ∀ u ∈ p.usecs, 1 ≤ u ∧ u < 1000000) : Inv p (init p) where
  flags := ⟨rfl, rfl, rfl⟩
  fresh := fun _ => rfl
  calls := Nat.zero_add _
  last  := nofun
  valid := trivial
  usecs := hu
  slots _ _ := {
    start    := rfl
    done     := rfl
    unborn   := ⟨fun _ => trivial, fun _ => rfl⟩
    joined   := nofun
    running  := nofun
    leaving  := nofun
    finished := fun _ => rfl
    exited   := fun _ => rfl
  }

theorem stepAlarm (hi : Inv p s) (he : stepAlarm s = some s') : Inv p s' := by
  simp only [Spin.stepAlarm, Option.ite_none_right_eq_some, Option.some.injEq] at he
  obtain ⟨ha, rfl⟩ := he
  refine { hi with flags := ?_, slots := fun i h => (hi.slots i h).clear_run }
  have hf := hi.flags
  cases hm : s.main <;> simp_all [Main.Flags]

theorem stepWorker (hi : Inv p s) (he : step p s (.worker j) = some s') : Inv p s' := by
  simp only [step, Option.ite_none_right_eq_some, Option.map_eq_some_iff] at he
  obtain ⟨⟨hj, _⟩, t, ht, rfl⟩ := he
  exact { hi with
    slots := State.setSlot_forall (fun i h _ => hi.slots i h) <| (hi.slots j hj).worker ht }

theorem lt_succ_iff_of_ne (h : i ≠ j) : i < j + 1 ↔ i < j := by
  omega

-- An iteration of the loops that post to all workers, in `spin_run` and in `spin_exit`, and their end.
theorem post_slots (hj : j < p.n)
    (ht : ∀ i < p.n, (s.slots i).Inv (if i < j then k + 1 else k) k k False False cont run) :
    let t := { s.slots j with semStart := (s.slots j).semStart + 1 }
    ∀ i < p.n, ((s.setSlot j t).slots i).Inv (if i < j + 1 then k + 1 else k) k k False False cont run := by
  refine State.setSlot_forall (fun i h hne => ?_) ?_
  · simpa [lt_succ_iff_of_ne hne] using ht i h
  · simpa using (ht j hj).post

theorem posted_slots (hj : ¬j < p.n)
    (ht : ∀ i < p.n, (s.slots i).Inv (if i < j then k + 1 else k) k k False False cont run) :
    ∀ i < p.n, (s.slots i).Inv (k + 1) k k False False cont run := by
  intro i h
  have hij : i < j := by omega
  simpa [hij] using ht i h

-- The loops of `spin_init`.
theorem initSem (hi : Inv p s) (hm : s.main = .initSem j) (he : stepMain p s = some s') : Inv p s' := by
  have ⟨hf, hn, hc, hl, _, hu, ht⟩ := hi
  simp only [Spin.stepMain, hm] at he hf hn hc hl ht
  split at he <;> cases he
  case isTrue hj =>
    have hk := hn trivial
    have h₀ : Slot.Inv 0 0 0 True False s.cont s.run (s.slots j) := by simpa [hk] using ht j hj
    refine ⟨hf, fun _ => hk, hc, hl, trivial, hu, State.setSlot_forall (fun i h _ => ht i h) ?_⟩
    simpa [State.setSlot, hk] using h₀.semInit
  case isFalse => exact ⟨hf, hn, hc, hl, trivial, hu, fun i h => by simpa using ht i h⟩

theorem initCreate (hi : Inv p s) (hm : s.main = .initCreate j) (he : stepMain p s = some s') : Inv p s' := by
  have ⟨hf, hn, hc, hl, _, hu, ht⟩ := hi
  simp only [Spin.stepMain, hm] at he hf hn hc hl ht
  split at he <;> cases he
  case isTrue hj =>
    refine ⟨hf, hn, hc, hl, trivial, hu, State.setSlot_forall (fun i h hne => ?_) ?_⟩
    · have hle : j + 1 ≤ i ↔ j ≤ i := by omega
      simpa [hle, State.setSlot] using ht i h
    · simpa [State.setSlot, Nat.not_succ_le_self] using (ht j hj).create (le_refl j) nofun
  case isFalse hj =>
    refine ⟨hf, nofun, hc, hl, trivial, hu, fun i h => ?_⟩
    have hle : ¬j ≤ i := by omega
    simpa [hle] using ht i h

-- The next call is made.
theorem next (hi : Inv p s) (hm : s.main = .next) (he : stepMain p s = some s') : Inv p s' := by
  have ⟨hf, _, hc, _, _, hu, ht⟩ := hi
  simp only [Spin.stepMain, hm] at he hf hc ht
  split at he <;> cases he
  case _ hus => exact ⟨hf, nofun, hc, fun _ => hus, trivial, hus ▸ hu, ht⟩
  case _ hus =>
    rw [hus] at hu hc
    have hc : _ + 0 + (_ + 1) = p.usecs.length := hc
    have ⟨hu, hus⟩ := List.forall_mem_cons.mp hu
    exact ⟨hf, nofun, by simp only [Main.calls]; omega, nofun, hu, hus, ht⟩

-- As the argument is valid, the timer is started.
theorem runTimer {u : ℤ} (hi : Inv p s) (hm : s.main = .runTimer u) (he : stepMain p s = some s') :
    Inv p s' := by
  have ⟨hf, _, hc, hl, hv, hu, ht⟩ := hi
  simp only [Spin.stepMain, hm] at he hf hc hl hv ht
  have hs : setitimer u = some true := by
    have ⟨h₁, h₂⟩ := hv
    rw [setitimer, if_pos (by omega)]
    simp; omega
  rw [hs] at he
  cases he
  exact ⟨⟨hf.left, hf.right.left.symm⟩, nofun, hc, hl, trivial, hu, ht⟩

theorem runWait (hi : Inv p s) (hm : s.main = .runWait j) (he : stepMain p s = some s') : Inv p s' := by
  have ⟨hf, _, hc, hl, _, hu, ht⟩ := hi
  simp only [Spin.stepMain, hm] at he hf hc hl ht
  split at he
  case isTrue hj =>
    split at he <;> cases he
    case isTrue hd =>
      refine ⟨hf, nofun, hc, hl, trivial, hu, State.setSlot_forall (fun i h hne => ?_) ?_⟩
      · simpa [lt_succ_iff_of_ne hne, State.setSlot] using ht i h
      · simpa [State.setSlot] using (ht j hj).wait hd
  case isFalse hj =>
    cases he
    have hij : ∀ i < p.n, i < j := by omega
    have ht' : ∀ i < p.n, _ := fun i h => Slot.Inv.next <| by
      simpa [hij i h] using ht i h
    have hr := (ht' 0 p.n_pos).right
    exact ⟨⟨hf.left, hr, hf.right.trans hr⟩, nofun, hc, hl, trivial, hu, fun i h => (ht' i h).left⟩

theorem exitJoin (hi : Inv p s) (hm : s.main = .exitJoin j) (he : stepMain p s = some s') : Inv p s' := by
  have ⟨hf, _, hc, hl, _, hu, ht⟩ := hi
  simp only [Spin.stepMain, hm] at he hf hc hl ht
  split at he
  case isTrue hj =>
    split at he <;> cases he
    case isTrue hw =>
      refine ⟨hf, nofun, hc, hl, trivial, hu, fun i h => ?_⟩
      by_cases hij : i = j
      case pos => subst hij; exact { ht i h with joined := fun _ => hw }
      case neg => simpa [lt_succ_iff_of_ne hij] using ht i h
  case isFalse hj =>
    cases he
    refine ⟨hf, nofun, hc, hl, trivial, hu, fun i h => ?_⟩
    have hij : i < j := by omega
    simpa [hij] using ht i h

theorem stepMain (hi : Inv p s) (he : stepMain p s = some s') : Inv p s' := by
  cases hm : s.main
  case initSem    => exact hi.initSem hm he
  case initCreate => exact hi.initCreate hm he
  case next       => exact hi.next hm he
  case runTimer   => exact hi.runTimer hm he
  case runWait    => exact hi.runWait hm he
  case exitJoin   => exact hi.exitJoin hm he
  all_goals
    have ⟨hf, hn, hc, hl, hv, hu, ht⟩ := hi
    simp only [Spin.stepMain, hm, Option.some.injEq, reduceCtorEq] at he hf hn hc hl hv ht
  case initTest =>
    subst he
    rw [if_neg <| by simp [hf.left]]
    exact ⟨hf, hn, hc, hl, trivial, hu, ht⟩
  case initCont =>
    subst he
    exact ⟨⟨rfl, hf.right⟩, hn, hc, hl, trivial, hu, fun i h => (ht i h).born_cont trivial⟩
  case runTest u =>
    rw [if_pos hf.left] at he
    cases he
    exact ⟨hf, nofun, hc, hl, hv, hu, ht⟩
  case runSet u =>
    subst he
    exact ⟨⟨hf.left, rfl, hf.right.right⟩, nofun, hc, hl, hv, hu, fun i h => (ht i h).set_run⟩
  case runPost j =>
    split at he <;> cases he
    case isTrue hj  => exact ⟨hf, nofun, hc, hl, trivial, hu, post_slots hj ht⟩
    case isFalse hj => exact ⟨hf, nofun, hc, hl, trivial, hu, posted_slots hj ht⟩
  case exitTest =>
    subst he
    rw [if_pos hf.left]
    exact ⟨hf, nofun, hc, hl, trivial, hu, ht⟩
  case exitCont =>
    subst he
    exact ⟨⟨rfl, hf.right⟩, nofun, hc, hl, trivial, hu, fun i h => (ht i h).clear_cont⟩
  case exitPost j =>
    split at he <;> cases he
    case isTrue hj  => exact ⟨hf, nofun, hc, hl, trivial, hu, post_slots hj ht⟩
    case isFalse hj => exact ⟨hf, nofun, hc, hl, trivial, hu, by simpa using posted_slots hj ht⟩
  case exitFree =>
    subst he
    exact ⟨hf, nofun, hc, hl, trivial, hu, ht⟩

theorem step (hi : Inv p s) (he : step p s e = some s') : Inv p s' := by
  cases e
  case main     => exact hi.stepMain he
  case worker j => exact hi.stepWorker he
  case alarm    => exact hi.stepAlarm he

theorem reachable (hu : ∀ u ∈ p.usecs, 1 ≤ u ∧ u < 1000000) (h : (spin p).Reachable s) : Inv p s :=
  h.invariant (init hu) fun hi _ he => hi.step he

end Inv
end WorkloadKit.Spin
