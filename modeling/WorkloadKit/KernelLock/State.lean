import WorkloadKit.Library.Barrier
import WorkloadKit.Library.Lock
import WorkloadKit.Library.System

namespace WorkloadKit.KernelLock

inductive Thread
  | lowprio1 | highprio1 | highprio0
  deriving DecidableEq

-- The statement that a thread executes next, or `returned` once it has left its function. In `waiting` it
-- has arrived at the barrier.
inductive Pc
  | unborn | prctl | setAffinityPrio | openLock | barrierWait | waiting (ticket : ℕ)
  | busyWork | busyLoop | closeLock | returned
  deriving DecidableEq

-- The statement that `main` executes next.
inductive Main
  | setAffinityPrio | create (t : Thread) | barrierWait | waiting (ticket : ℕ) | join (t : Thread) | returned
  deriving DecidableEq

-- What the calls return, and the values that the variables `cnt` have by chance.
structure Outcome where
  mainSetAffinityPrio : ℤ
  create              : Thread → ℤ
  prctl               : Thread → ℤ
  setAffinityPrio     : Thread → ℤ
  openLock            : Thread → ℤ
  closeLock           : Thread → ℤ
  cnt                 : Thread → ℤ

structure State where
  main    : Main
  ret     : ℤ
  pc      : Thread → Pc
  cnt     : Thread → ℤ
  wkLock  : Lock Thread
  barrier : Barrier
  stderr  : List String

def Thread.name : Thread → String
  | lowprio1  => "lowprio1"
  | highprio1 => "highprio1"
  | highprio0 => "highprio0"

def State.goto (s : State) (t : Thread) (pc : Pc) : State :=
  { s with pc := Function.update s.pc t pc }

-- The messages after a call whose result is only checked in order to print one.
def State.perror (s : State) (ret : ℤ) (msg : String) : List String :=
  if ret ≠ 0 then s.stderr ++ [msg] else s.stderr

section

-- The statements that the functions of the threads have in common.
variable (o : Outcome) (s : State) (t : Thread) (next : Pc)

def prctl : State :=
  { s.goto t next with stderr := s.perror (o.prctl t) "set name" }

def setAffinityPrio : State :=
  if o.setAffinityPrio t ≠ 0 then
    { s.goto t .returned with stderr := s.stderr ++ [t.name ++ ": error setting the priority or affinity"] }
  else
    s.goto t next

-- Opening the file takes the lock of the module, unless it fails before it gets there.
def openLock : Option State :=
  if o.openLock t < 0 then
    some { s.goto t .returned with stderr := s.stderr ++ ["open /proc/wk_lock"] }
  else
    (s.wkLock.acquire t).map fun l => { s.goto t next with wkLock := l }

-- Closing the file gives the lock back, also if `close` returns an error.
def closeLock : State :=
  { s.goto t next with wkLock := none, stderr := s.perror (o.closeLock t) "close /proc/wk_lock" }

def busy : State :=
  if s.cnt t < 100000000 then
    { s with cnt := Function.update s.cnt t (s.cnt t + 1) }
  else
    s.goto t next

end

def highprio0 (o : Outcome) (s : State) : Option State :=
  match s.pc .highprio0 with
  | .prctl           => some <| prctl o s .highprio0 .setAffinityPrio
  | .setAffinityPrio => some <| setAffinityPrio o s .highprio0 .openLock
  | .openLock        => openLock o s .highprio0 .closeLock
  | .closeLock       => some <| closeLock o s .highprio0 .returned
  | _                => none

-- Both `lowprio1` and `main` pass the barrier when the generation in which they have arrived is over.
def lowprio1 (o : Outcome) (s : State) : Option State :=
  match s.pc .lowprio1 with
  | .prctl           => some <| prctl o s .lowprio1 .setAffinityPrio
  | .setAffinityPrio => some <| setAffinityPrio o s .lowprio1 .openLock
  | .openLock        => openLock o s .lowprio1 .barrierWait
  | .barrierWait     =>
    some { s.goto .lowprio1 (.waiting s.barrier.generation) with barrier := s.barrier.arrive 2 }
  | .waiting ticket  => if s.barrier.generation = ticket then none else some <| s.goto .lowprio1 .busyWork
  | .busyWork        => some <| busy s .lowprio1 .closeLock
  | .closeLock       => some <| closeLock o s .lowprio1 .returned
  | _                => none

def highprio1 (o : Outcome) (s : State) : Option State :=
  match s.pc .highprio1 with
  | .prctl           => some <| prctl o s .highprio1 .setAffinityPrio
  | .setAffinityPrio => some <| setAffinityPrio o s .highprio1 .busyLoop
  | .busyLoop        => some <| busy s .highprio1 .returned
  | _                => none

namespace Main

-- Where `main` continues after it has created a thread, after it could not create it, and after it has
-- joined it.
def created : Thread → Main
  | .lowprio1  => .barrierWait
  | .highprio1 => .create .highprio0
  | .highprio0 => .join .highprio0

def notCreated : Thread → Main
  | .lowprio1  => .returned
  | .highprio1 => .join .lowprio1
  | .highprio0 => .join .highprio1

def joined : Thread → Main
  | .highprio0 => .join .highprio1
  | .highprio1 => .join .lowprio1
  | .lowprio1  => .returned

end Main

def main (o : Outcome) (s : State) : Option State :=
  match s.main with
  | .setAffinityPrio =>
    if o.mainSetAffinityPrio ≠ 0 then
      some { s with
        main   := .returned
        ret    := o.mainSetAffinityPrio
        stderr := s.stderr ++ ["main: error setting the priority or affinity"] }
    else
      some { s with main := .create .lowprio1, ret := 0 }
  | .create t        =>
    if o.create t ≠ 0 then
      some { s with main := .notCreated t, ret := o.create t, stderr := s.stderr ++ ["pthread_create"] }
    else
      some { s.goto t .prctl with main := .created t, ret := 0 }
  | .barrierWait     => some { s with main := .waiting s.barrier.generation, barrier := s.barrier.arrive 2 }
  | .waiting ticket  =>
    if s.barrier.generation = ticket then none else some { s with main := .create .highprio1 }
  | .join t          => if s.pc t = .returned then some { s with main := .joined t } else none
  | .returned        => none

inductive Event
  | main | thread (t : Thread)
  deriving DecidableEq

def step (o : Outcome) (s : State) : Event → Option State
  | .main              => main o s
  | .thread .lowprio1  => lowprio1 o s
  | .thread .highprio1 => highprio1 o s
  | .thread .highprio0 => highprio0 o s

def init (o : Outcome) : State where
  main    := .setAffinityPrio
  ret     := 0
  pc      := fun _ => .unborn
  cnt     := o.cnt
  wkLock  := none
  barrier := .init
  stderr  := []

def kernelLock (o : Outcome) : System State Event where
  init := init o
  step := step o

end WorkloadKit.KernelLock
