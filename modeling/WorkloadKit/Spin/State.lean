import Mathlib.Logic.Function.Basic
import WorkloadKit.Library.System

namespace WorkloadKit.Spin

-- The number of threads, and the arguments of the calls of `spin_run` that are made between
-- `spin_init` and `spin_exit`.
structure Params where
  n     : ℕ
  usecs : List ℤ
  n_pos : 0 < n

-- The statement that `worker` executes next. A thread that has not been created yet is `unborn`.
inductive Worker
  | unborn | start | wait | test | spin | post | left | returned
  deriving DecidableEq

-- The elements of `sem_start`, `sem_done` and `threads` at one index. The field `rounds` is a ghost,
-- which counts the rounds that the worker has completed.
structure Slot where
  semStart : ℕ
  semDone  : ℕ
  worker   : Worker
  rounds   : ℕ

-- The statement that the calling thread executes next. It is in `next` between two calls, and in
-- `failed` if `setitimer` has made it exit. An iteration of a loop is one step.
inductive Main
  | initTest | initCont | initSem (i : ℕ) | initCreate (i : ℕ)
  | next
  | runTest (usec : ℤ) | runSet (usec : ℤ) | runTimer (usec : ℤ) | runPost (i : ℕ) | runWait (i : ℕ)
  | exitTest | exitCont | exitPost (i : ℕ) | exitJoin (i : ℕ) | exitFree
  | done | failed
  deriving DecidableEq

-- The field `alarm` tells whether there is an alarm that has not been delivered yet. The field
-- `returned` is a ghost, which counts the calls of `spin_run` that have returned.
structure State where
  main     : Main
  usecs    : List ℤ
  run      : Bool
  cont     : Bool
  alarm    : Bool
  slots    : ℕ → Slot
  returned : ℕ

def init (p : Params) : State where
  main     := .initTest
  usecs    := p.usecs
  run      := false
  cont     := false
  alarm    := false
  slots    := fun _ => { semStart := 0, semDone := 0, worker := .unborn, rounds := 0 }
  returned := 0

def State.setSlot (s : State) (i : ℕ) (t : Slot) : State :=
  { s with slots := Function.update s.slots i t }

-- Whether a timer without an interval is pending after the call, or `none` if the call fails.
def setitimer (usec : ℤ) : Option Bool :=
  if 0 ≤ usec ∧ usec < 1000000 then some (0 < usec) else none

def stepMain (p : Params) (s : State) : Option State :=
  match s.main with
  -- spin_init
  | .initTest     => some { s with main := if s.cont then .next else .initCont }
  | .initCont     => some { s with main := .initSem 0, cont := true }
  | .initSem i    =>
    if i < p.n then
      some { s.setSlot i { s.slots i with semStart := 0, semDone := 0 } with main := .initSem (i + 1) }
    else
      some { s with main := .initCreate 0 }
  | .initCreate i =>
    if i < p.n then
      some { s.setSlot i { s.slots i with worker := .start } with main := .initCreate (i + 1) }
    else
      some { s with main := .next }
  | .next         =>
    match s.usecs with
    | []            => some { s with main := .exitTest }
    | usec :: usecs => some { s with main := .runTest usec, usecs := usecs }
  -- spin_run
  | .runTest usec =>
    if s.cont then
      some { s with main := .runSet usec }
    else
      some { s with main := .next, returned := s.returned + 1 }
  | .runSet usec  => some { s with main := .runTimer usec, run := true }
  | .runTimer usec =>
    match setitimer usec with
    | some alarm => some { s with main := .runPost 0, alarm := alarm }
    | none       => some { s with main := .failed }
  | .runPost i    =>
    if i < p.n then
      some { s.setSlot i { s.slots i with semStart := (s.slots i).semStart + 1 } with
        main := .runPost (i + 1) }
    else
      some { s with main := .runWait 0 }
  | .runWait i    =>
    if i < p.n then
      if 0 < (s.slots i).semDone then
        some { s.setSlot i { s.slots i with semDone := (s.slots i).semDone - 1 } with
          main := .runWait (i + 1) }
      else
        none
    else
      some { s with main := .next, returned := s.returned + 1 }
  -- spin_exit
  | .exitTest     => some { s with main := if s.cont then .exitCont else .done }
  | .exitCont     => some { s with main := .exitPost 0, cont := false }
  | .exitPost i   =>
    if i < p.n then
      some { s.setSlot i { s.slots i with semStart := (s.slots i).semStart + 1 } with
        main := .exitPost (i + 1) }
    else
      some { s with main := .exitJoin 0 }
  | .exitJoin i   =>
    if i < p.n then
      if (s.slots i).worker = .returned then some { s with main := .exitJoin (i + 1) } else none
    else
      some { s with main := .exitFree }
  | .exitFree     => some { s with main := .done }
  | .done         => none
  | .failed       => none

-- The loop on `run` does not change anything that another thread can see.
def worker (cont run : Bool) (t : Slot) : Option Slot :=
  match t.worker with
  | .unborn   => none
  | .start    => some { t with worker := .wait }
  | .wait     =>
    if 0 < t.semStart then some { t with semStart := t.semStart - 1, worker := .test } else none
  | .test     => some { t with worker := if cont then .spin else .left }
  | .spin     => some { t with worker := if run then .spin else .post }
  | .post     => some { t with semDone := t.semDone + 1, worker := .wait, rounds := t.rounds + 1 }
  | .left     => some { t with worker := .returned }
  | .returned => none

-- The delivery of the pending alarm, which runs `signalhandler`.
def stepAlarm (s : State) : Option State :=
  if s.alarm then some { s with run := false, alarm := false } else none

inductive Event
  | main | worker (i : ℕ) | alarm
  deriving DecidableEq

def step (p : Params) (s : State) : Event → Option State
  | .main     => stepMain p s
  | .worker i =>
    if i < p.n ∧ s.main ≠ .failed then (worker s.cont s.run (s.slots i)).map (s.setSlot i) else none
  | .alarm    => stepAlarm s

def spin (p : Params) : System State Event where
  init := init p
  step := step p

end WorkloadKit.Spin
