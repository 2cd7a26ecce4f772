import Mathlib.Algebra.Ring.Nat
import WorkloadKit.Library.Barrier
import WorkloadKit.Library.System

namespace WorkloadKit.Imbalance

-- The macros `THREADS` and `CYCLES`, and the number of iterations that `main` has calibrated.
structure Experiment where
  threads     : ℕ
  cycles      : ℕ
  max         : ℤ
  threads_pos : 0 < threads

instance {exp : Experiment} : NeZero exp.threads where
  out := exp.threads_pos.ne'

-- The statement that a worker executes next. In `hog` it is in the loop of `do_hog`, and in `waiting` it has
-- arrived at the barrier.
inductive Pc
  | unborn | test | hog (niters : ℤ) | barrierWait | waiting (ticket : ℕ) | rotate | increment | returned
  deriving DecidableEq

-- The last two fields are ghosts. They record the position of the worker in each call of `do_hog`, and the
-- iterations that it has executed in each cycle.
structure Worker where
  pc         : Pc
  i          : ℕ
  pos        : ℕ
  hogs       : List ℕ
  iterations : ℕ → ℕ

-- The thread that `main` creates or joins next.
inductive Main
  | create (i : ℕ) | join (i : ℕ) | returned
  deriving DecidableEq

structure State (n : ℕ) where
  main    : Main
  workers : Fin n → Worker
  barrier : Barrier

variable {n : ℕ}

def State.setWorker (s : State n) (self : Fin n) (w : Worker) : State n :=
  { s with workers := Function.update s.workers self w }

-- The argument of `do_hog`, which is computed as an `int`.
def load (max : ℤ) (pos : ℕ) : ℤ :=
  ((pos + 1) * max).bmod (2 ^ 32)

-- A call of `do_hog`.
def doHog (niters : ℤ) : Pc :=
  .hog (if niters ≤ 0 then 1 else niters)

def worker (exp : Experiment) (s : State exp.threads) (self : Fin exp.threads) : Option (State exp.threads) :=
  let w := s.workers self
  match w.pc with
  | .unborn         => none
  | .test           =>
    if w.i < exp.cycles then
      some <| s.setWorker self { w with pc := doHog (load exp.max w.pos), hogs := w.hogs ++ [w.pos] }
    else
      some <| s.setWorker self { w with pc := .returned }
  | .hog niters     =>
    some <| s.setWorker self { w with
      pc         := if niters - 1 = 0 then .barrierWait else .hog (niters - 1)
      iterations := Function.update w.iterations w.i (w.iterations w.i + 1) }
  | .barrierWait    =>
    some { s.setWorker self { w with pc := .waiting s.barrier.generation } with
      barrier := s.barrier.arrive exp.threads }
  | .waiting ticket =>
    if s.barrier.generation = ticket then none else some <| s.setWorker self { w with pc := .rotate }
  | .rotate         => some <| s.setWorker self { w with pc := .increment, pos := (w.pos + 1) % exp.threads }
  | .increment      => some <| s.setWorker self { w with pc := .test, i := w.i + 1 }
  | .returned       => none

-- A worker in its first cycle.
def start (pos : ℕ) : Worker where
  pc         := .test
  i          := 0
  pos        := pos
  hogs       := []
  iterations := fun _ => 0

def main (s : State n) : Option (State n) :=
  match s.main with
  | .create i =>
    if h : i < n then
      some { s.setWorker ⟨i, h⟩ (start i) with main := .create (i + 1) }
    else
      some { s with main := .join 0 }
  | .join i   =>
    if h : i < n then
      if (s.workers ⟨i, h⟩).pc = .returned then some { s with main := .join (i + 1) } else none
    else
      some { s with main := .returned }
  | .returned => none

inductive Event (n : ℕ)
  | main | worker (self : Fin n)
  deriving DecidableEq

def step (exp : Experiment) (s : State exp.threads) : Event exp.threads → Option (State exp.threads)
  | .main        => main s
  | .worker self => worker exp s self

-- The barrier has been initialised and `max` has been set, but no thread has been created.
def init (n : ℕ) : State n where
  main    := .create 0
  workers := fun self => { start self with pc := .unborn }
  barrier := .init

def imbalance (exp : Experiment) : System (State exp.threads) (Event exp.threads) where
  init := init exp.threads
  step := step exp

end WorkloadKit.Imbalance
