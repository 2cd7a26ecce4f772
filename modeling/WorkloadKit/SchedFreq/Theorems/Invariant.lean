import WorkloadKit.Library.TokenRing
import WorkloadKit.SchedFreq.State

namespace WorkloadKit.SchedFreq

open TokenRing

variable {exp : Experiment} {s s' : State} {rank r : ℕ} {w : Worker}

namespace Worker

-- The number of times that a worker has completed its `sem_wait`.
def waits (w : Worker) : ℕ :=
  match w.pc with
  | .post | .increment        => w.i + 1
  | .test | .wait | .returned => w.i

-- What the tests of its loop tell about the counter of a worker.
def Bounded (exp : Experiment) (w : Worker) : Prop :=
  match w.pc with
  | .test                      => w.i ≤ exp.repeats
  | .wait | .post | .increment => w.i < exp.repeats
  | .returned                  => w.i = exp.repeats

theorem Bounded.waits_le (h : w.Bounded exp) : w.waits ≤ exp.repeats := by
  obtain ⟨pc, i⟩ := w
  cases pc <;> simp only [Bounded, waits] at h ⊢ <;> omega

end Worker

theorem State.setWorker_forall (P : ℕ → Worker → Prop) (h : ∀ r < exp.n, P r (s.workers r))
    (hw : P rank w) : ∀ r < exp.n, P r ((s.setWorker rank w).workers r) := by
  intro r hr
  by_cases hc : r = rank
  case pos => subst hc; simpa using hw
  case neg => simpa [hc] using h r hr

-- Where the token is after `m` acquisitions: in the semaphore of the worker whose turn it is, or with
-- the worker that has completed the last acquisition.
inductive Token (exp : Experiment) (s : State) (m : ℕ) : Prop
  | rests
    (sems    : ∀ r < exp.n, s.sems r = if m % exp.n = r then 1 else 0)
    (holders : ∀ r < exp.n, (s.workers r).pc ≠ .post)
  | carried
    (last    : m = k + 1)
    (sems    : ∀ r < exp.n, s.sems r = 0)
    (holders : ∀ r < exp.n, (s.workers r).pc = .post ↔ k % exp.n = r)

structure Inv (exp : Experiment) (s : State) : Prop where
  order   : s.acquired = (turns exp.n).take s.acquired.length
  waits   : ∀ r < exp.n, (s.workers r).waits = visits exp.n s.acquired.length r
  bounded : ∀ r < exp.n, (s.workers r).Bounded exp
  token   : Token exp s s.acquired.length

namespace Inv

theorem init : Inv exp init where
  order     := rfl
  waits _ _ := rfl
  bounded _ _ := Nat.zero_le _
  token     := by
    refine .rests (fun r _ => ?_) fun _ _ => nofun
    cases r <;> simp [SchedFreq.init, semsInit]

-- A step by which a worker neither gets nor gives away the token.
theorem setWorker (hi : Inv exp s) (hw : w.waits = (s.workers rank).waits) (hr : rank < exp.n)
    (hb : w.Bounded exp) (hp : w.pc ≠ .post) (hp' : (s.workers rank).pc ≠ .post) :
    Inv exp (s.setWorker rank w) where
  order   := hi.order
  waits   :=
    State.setWorker_forall (fun r w => w.waits = visits _ _ r) hi.waits <| hw.trans <| hi.waits rank hr
  bounded := State.setWorker_forall (fun _ => Worker.Bounded exp) hi.bounded hb
  token   := by
    cases hi.token
    case rests hs hh => exact .rests hs <| State.setWorker_forall (fun _ w => w.pc ≠ .post) hh hp
    case carried k hk hs hh =>
      refine .carried hk hs <| State.setWorker_forall (fun r w => w.pc = .post ↔ _ = r) hh ?_
      have := hh rank hr
      simp_all

theorem wait (hi : Inv exp s) (hr : rank < exp.n) (hpc : (s.workers rank).pc = .wait)
    (hs : 0 < s.sems rank) :
    Inv exp { s.setWorker rank { s.workers rank with pc := .post } with
      sems     := Function.update s.sems rank (s.sems rank - 1)
      acquired := s.acquired ++ [rank] } := by
  have hb := hi.bounded rank hr
  have hw := hi.waits rank hr
  simp only [Worker.Bounded, Worker.waits, hpc] at hb hw
  cases hi.token
  case carried h _ => simp [h rank hr] at hs
  case rests h hh =>
    have ht : s.acquired.length % exp.n = rank := by
      by_contra hc
      simp [h rank hr, hc] at hs
    constructor
    case order =>
      simp only [List.length_append, List.length_singleton, Stream'.take_succ', ←hi.order]
      simp [turns, Stream'.get, ht]
    case waits =>
      simp only [List.length_append, List.length_singleton, visits_succ, ht]
      intro r hr
      by_cases hc : r = rank
      case pos => subst hc; simp [Worker.waits, hw]
      case neg => simpa [hc, Ne.symm hc] using hi.waits r hr
    case bounded => exact State.setWorker_forall (fun _ => Worker.Bounded exp) hi.bounded hb
    case token =>
      refine .carried (k := s.acquired.length) (by simp) (fun r hr => ?_) (fun r hr => ?_)
      all_goals by_cases hc : r = rank
      case pos => subst hc; simp [h r hr, ht]
      case neg => simp [hc, h r hr, ht, Ne.symm hc]
      case pos => subst hc; simp [ht]
      case neg => simp [hc, hh r hr, ht, Ne.symm hc]

theorem post (hi : Inv exp s) (hr : rank < exp.n) (hpc : (s.workers rank).pc = .post) :
    Inv exp { s.setWorker rank { s.workers rank with pc := .increment } with
      sems := Function.update s.sems ((rank + 1) % exp.n) (s.sems ((rank + 1) % exp.n) + 1) } := by
  have hb := hi.bounded rank hr
  have hw := hi.waits rank hr
  simp only [Worker.Bounded, Worker.waits, hpc] at hb hw
  cases hi.token
  case rests hh => exact absurd hpc <| hh rank hr
  case carried k hk h hh =>
    have ht : k % exp.n = rank := hh rank hr |>.mp hpc
    have hn : s.acquired.length % exp.n = (rank + 1) % exp.n := by
      rw [hk, ←ht, Nat.mod_add_mod]
    constructor
    case order   => exact hi.order
    case waits   => exact State.setWorker_forall (fun r w => w.waits = visits _ _ r) hi.waits hw
    case bounded => exact State.setWorker_forall (fun _ => Worker.Bounded exp) hi.bounded hb
    case token =>
      refine .rests (fun r hr => ?_) <| fun r hr => ?_
      · have hl := h _ <| Nat.mod_lt (rank + 1) exp.n_pos
        by_cases hc : r = (rank + 1) % exp.n
        case pos => subst hc; simp [hn, hl]
        case neg => simp [hn, hc, h r hr, Ne.symm hc]
      · by_cases hc : r = rank
        case pos => subst hc; simp
        case neg => simp [hc, hh r hr, ht, Ne.symm hc]

theorem step (hi : Inv exp s) (he : step exp s rank = some s') : Inv exp s' := by
  simp only [SchedFreq.step, Option.ite_none_right_eq_some] at he
  obtain ⟨hr, he⟩ := he
  have hb := hi.bounded rank hr
  cases hpc : (s.workers rank).pc <;> simp only [semsWrk, hpc, Option.some.injEq, reduceCtorEq,
    Option.ite_none_right_eq_some] at he <;> simp only [Worker.Bounded, hpc] at hb
  case test =>
    subst he
    split
    case isTrue h  => exact hi.setWorker (by simp [Worker.waits, hpc]) hr h nofun (by simp [hpc])
    case isFalse h =>
      have he := hb.antisymm <| not_lt.mp h
      exact hi.setWorker (by simp [Worker.waits, hpc]) hr he nofun (by simp [hpc])
  case wait =>
    obtain ⟨hs, rfl⟩ := he
    exact hi.wait hr hpc hs
  case post =>
    subst he
    exact hi.post hr hpc
  case increment =>
    subst he
    exact hi.setWorker (by simp [Worker.waits, hpc]) hr hb nofun (by simp [hpc])

theorem reachable (h : (ring exp).Reachable s) : Inv exp s :=
  h.invariant .init fun hi _ he => hi.step he

end Inv
end WorkloadKit.SchedFreq
