import WorkloadKit.Library.System

namespace WorkloadKit.Calibrate

def HIST : ℕ := 10

-- The `SIGALRM` timer. Time is counted in executed statements, so `period` is the number of statements
-- which fit in one timer interval. The `offset` is the part of an interval that has passed when the
-- timer is started.
structure Timer where
  period : ℕ
  offset : ℕ
  period_pos : 0 < period

namespace Timer

def fires (timer : Timer) (time : ℕ) : Bool :=
  (time + timer.offset) % timer.period = 0

-- The number of the timer interval in which the statement at a given time is executed.
def interval (timer : Timer) (time : ℕ) : ℕ :=
  (time + timer.offset) / timer.period

end Timer

abbrev ULong := BitVec 64

def ULONG_MAX : ULong :=
  .allOnes 64

inductive Call
  | warmUp | gather
  deriving DecidableEq

-- The statement that is executed next. Those of `counter` come with the call that they belong to.
inductive Pc
  | setRun (c : Call) | loop (c : Call) | ret (c : Call)
  | initI | test | accumulate | increment | stop | divide
  | returned
  deriving DecidableEq

-- A value that is added to `result`, and the times of the iterations which it has counted.
structure Sample where
  value : ULong
  ticks : List ℕ

-- The fields `time`, `ticks` and `samples` are ghosts. The `ticks` are the times of the iterations
-- that the running or the last call of `counter` has counted.
structure State where
  pc      : Pc
  run     : Bool
  niters  : ULong
  i       : ℕ
  result  : ULong
  armed   : Bool
  time    : ℕ
  ticks   : List ℕ
  samples : List Sample

-- `calibrate` has just started the timer.
def init : State where
  pc      := .setRun .warmUp
  run     := false
  niters  := 0
  i       := 0
  result  := 0
  armed   := true
  time    := 0
  ticks   := []
  samples := []

-- The first statement of `counter` also binds its parameter, which is `ULONG_MAX` in each of the calls.
-- An iteration of its loop is one evaluation of `run && --niters`.
def exec (s : State) : Option State :=
  match s.pc with
  | .setRun c    => some { s with pc := .loop c, run := true, niters := ULONG_MAX, ticks := [] }
  | .loop c      =>
    if s.run then
      let niters := s.niters - 1
      some { s with
        pc     := if niters ≠ 0 then .loop c else .ret c
        niters := niters
        ticks  := s.ticks ++ [s.time] }
    else
      some { s with pc := .ret c }
  | .ret .warmUp => some { s with pc := .initI }
  | .ret .gather => some { s with pc := .accumulate }
  | .initI       => some { s with pc := .test, i := 0 }
  | .test        => some { s with pc := if s.i < HIST then .setRun .gather else .stop }
  | .accumulate  =>
    let value := ULONG_MAX - s.niters
    some { s with
      pc      := .increment
      result  := s.result + value
      samples := s.samples ++ [{ value, ticks := s.ticks }] }
  | .increment   => some { s with pc := .test, i := s.i + 1 }
  | .stop        => some { s with pc := .divide, armed := false }
  | .divide      => some { s with pc := .returned, result := s.result / HIST }
  | .returned    => none

-- Time passes, and `signalhandler` runs if an alarm is due before the next statement.
def tick (timer : Timer) (s : State) : State :=
  let time := s.time + 1
  { s with time, run := if s.armed && timer.fires time then false else s.run }

inductive Event
  | exec | delay
  deriving DecidableEq

def step (timer : Timer) (s : State) : Event → Option State
  | .exec  => (exec s).map (tick timer)
  | .delay => some (tick timer s)

def calibrate (timer : Timer) : System State Event where
  init := init
  step := step timer

end WorkloadKit.Calibrate
