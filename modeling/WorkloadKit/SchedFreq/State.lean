import Mathlib.Algebra.BigOperators.Group.Finset.Basic
import WorkloadKit.Library.System

namespace WorkloadKit.SchedFreq

-- The number of threads, and the number of times that each of them repeats its loop.
structure Experiment where
  n       : ℕ
  repeats : ℕ
  n_pos   : 0 < n

-- The statement which `sems_wrk` executes next, or `returned` once it has left its loop.
inductive Pc
  | test | wait | post | increment | returned
  deriving DecidableEq

structure Worker where
  pc : Pc
  i  : ℕ

-- The field `acquired` is a ghost, which records the ranks of the workers that complete a `sem_wait`
-- in their order.
structure State where
  sems     : ℕ → ℕ
  workers  : ℕ → Worker
  acquired : List ℕ

-- The semaphores as `calloc` and the calls of `sem_init` leave them.
def semsInit : ℕ → ℕ
  | 0     => 1
  | _ + 1 => 0

def init : State where
  sems     := semsInit
  workers  := fun _ => { pc := .test, i := 0 }
  acquired := []

def State.setWorker (s : State) (rank : ℕ) (w : Worker) : State :=
  { s with workers := Function.update s.workers rank w }

@[simp]
theorem State.setWorker_acquired (s : State) : (s.setWorker rank w).acquired = s.acquired :=
  rfl

@[simp]
theorem State.setWorker_self (s : State) : (s.setWorker rank w).workers rank = w :=
  Function.update_self ..

@[simp]
theorem State.setWorker_of_ne (s : State) (h : r ≠ rank) :
    (s.setWorker rank w).workers r = s.workers r :=
  Function.update_of_ne h ..

def semsWrk (exp : Experiment) (s : State) (rank : ℕ) : Option State :=
  let w := s.workers rank
  let curr := rank
  let next := (rank + 1) % exp.n
  match w.pc with
  | .test      => some <| s.setWorker rank { w with pc := if w.i < exp.repeats then .wait else .returned }
  | .wait      =>
    if 0 < s.sems curr then
      some { s.setWorker rank { w with pc := .post } with
        sems     := Function.update s.sems curr (s.sems curr - 1)
        acquired := s.acquired ++ [rank] }
    else
      none
  | .post      =>
    some { s.setWorker rank { w with pc := .increment } with
      sems := Function.update s.sems next (s.sems next + 1) }
  | .increment => some <| s.setWorker rank { w with pc := .test, i := w.i + 1 }
  | .returned  => none

-- The scheduler picks the rank of the worker which executes its next statement.
def step (exp : Experiment) (s : State) (rank : ℕ) : Option State :=
  if rank < exp.n then semsWrk exp s rank else none

def ring (exp : Experiment) : System State ℕ where
  init := init
  step := step exp

-- The workers that are between their `sem_wait` and their `sem_post`.
def holders (exp : Experiment) (s : State) : Finset ℕ :=
  (Finset.range exp.n).filter fun r => (s.workers r).pc = .post

end WorkloadKit.SchedFreq
