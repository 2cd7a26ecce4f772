import Mathlib.Algebra.Field.Rat
import WorkloadKit.Library.Barrier
import WorkloadKit.Library.Lock
import WorkloadKit.Library.System
import WorkloadKit.Utils.Timespec

namespace WorkloadKit.Sigbench

open Utils

-- The statement of the parallel region that a thread executes next, where `profileFunc` has the variable of
-- the loop of `profile_func`. The statements from `test` on are in the critical section, until `leave`.
inductive Pc
  | setaffinity | profileInit | barrierOne | waitingOne (ticket : ℕ) | clockOne | profileFunc (i : ℕ) | clockTwo
  | barrierTwo | waitingTwo (ticket : ℕ) | critical | test | set | leave | report | returned
  deriving DecidableEq

structure Worker where
  pc   : Pc
  t1   : Timespec
  t2   : Timespec
  data : List Timespec

-- The clock counts nanoseconds. The program has `crashed` when a null pointer has been used. The field `passed`
-- is a ghost, with the times at which the barrier has been passed, the last of them first.
structure State (n : ℕ) where
  workers  : Fin n → Worker
  barrier  : Barrier
  critical : Lock (Fin n)
  elapsed  : ℚ
  now      : ℕ
  crashed  : Bool
  passed   : List ℕ

-- The result of `clock_gettime`.
def clock (now : ℕ) : Timespec where
  tvSec  := now / 1000000000
  tvNsec := now % 1000000000

-- The variable `es`.
def Worker.es (w : Worker) : ℚ :=
  timespecToDoubleNs ℚ (timeSub w.t2 w.t1)

variable {n : ℕ}

def State.setWorker (s : State n) (self : Fin n) (w : Worker) : State n :=
  { s with workers := Function.update s.workers self w }

def State.goto (s : State n) (self : Fin n) (pc : Pc) : State n :=
  s.setWorker self { s.workers self with pc }

-- A thread arrives at the barrier, which it may be the last one to do.
def arrive (s : State n) (self : Fin n) (pc : Pc) : State n :=
  let barrier := s.barrier.arrive n
  { s.goto self pc with
    barrier
    passed := if barrier.generation = s.barrier.generation then s.passed else s.now :: s.passed }

def wait (s : State n) (self : Fin n) (ticket : ℕ) (next : Pc) : Option (State n) :=
  if s.barrier.generation = ticket then none else some <| s.goto self next

-- The size that `profile_init` allocates is an unsigned one, and is too large if the number of repetitions,
-- which is an `int`, is negative.
def sigbenchThread (repeats : ℤ) (s : State n) (self : Fin n) : Option (State n) :=
  let w := s.workers self
  match w.pc with
  | .setaffinity       => some <| s.goto self .profileInit
  | .profileInit       => some <| if repeats < 0 then { s with crashed := true } else s.goto self .barrierOne
  | .barrierOne        => some <| arrive s self (.waitingOne s.barrier.generation)
  | .waitingOne ticket => wait s self ticket .clockOne
  | .clockOne          => some <| s.setWorker self { w with pc := .profileFunc 0, t1 := clock s.now }
  | .profileFunc i     =>
    some <|
      if i < repeats then
        s.setWorker self { w with pc := .profileFunc (i + 1), data := w.data ++ [clock s.now] }
      else
        s.goto self .clockTwo
  | .clockTwo          => some <| s.setWorker self { w with pc := .barrierTwo, t2 := clock s.now }
  | .barrierTwo        => some <| arrive s self (.waitingTwo s.barrier.generation)
  | .waitingTwo ticket => wait s self ticket .critical
  | .critical          => (s.critical.acquire self).map fun l => { s.goto self .test with critical := l }
  | .test              => some <| s.goto self (if w.es > s.elapsed then .set else .leave)
  | .set               => some { s.goto self .leave with elapsed := w.es }
  | .leave             => some { s.goto self .report with critical := none }
  | .report            => some <| s.goto self .returned
  | .returned          => none

inductive Event (n : ℕ)
  | thread (self : Fin n) | tick
  deriving DecidableEq

def sigbenchOnce (n : ℕ) (repeats : ℤ) : System (State n) (Event n) where
  init := ⟨fun _ => ⟨.setaffinity, ⟨0, 0⟩, ⟨0, 0⟩, []⟩, .init, none, 0, 0, false, []⟩
  step s e :=
    if s.crashed then none
    else
      match e with
      | .thread self => sigbenchThread repeats s self
      | .tick        => some { s with now := s.now + 1 }

end WorkloadKit.Sigbench
