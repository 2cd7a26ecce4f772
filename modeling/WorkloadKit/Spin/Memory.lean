import WorkloadKit.Library.Heap
import WorkloadKit.Spin.State

-- The module as seen by a thread that calls its functions in any order, and the arrays that they allocate.
namespace WorkloadKit.Spin.Memory

-- The static pointers.
inductive Arr
  | threads | semStart | semDone | args
  deriving DecidableEq

-- The order in which the arrays are allocated, and also freed.
def arrays : List Arr :=
  [.threads, .semStart, .semDone, .args]

-- A call that has returned. A call of `spin_init` succeeds if it does not take the error path.
inductive Call
  | init (ok : Bool) | run | exit
  deriving DecidableEq

-- Whether the last call of `spin_init` has succeeded, and `spin_exit` has not been called since. The last call
-- comes first.
def initialized : List Call → Bool
  | []             => false
  | .init ok :: _  => ok
  | .run :: calls  => initialized calls
  | .exit :: _     => false

-- The statement that the calling thread executes next, where `idle` is between two calls. An iteration of a loop
-- is one step. If `setitimer` fails, then the process exits.
inductive Pc
  | idle
  | initTest (n : ℤ) | initCalloc (as : List Arr) | initCheck | initCont | initSem (i : ℕ) | initCreate (i : ℕ)
  | initFree (as : List Arr)
  | runTest (usec : ℤ) | runSet (usec : ℤ) | runTimer (usec : ℤ) | runPost (i : ℕ) | runWait (i : ℕ)
  | exitTest | exitCont | exitPost (i : ℕ) | exitJoin (i : ℕ) | exitDestroy (i : ℕ) | exitFree (as : List Arr)
  | exited
  deriving DecidableEq

-- The elements of the arrays are kept in `slots`. The fields `calls` and `log` are ghosts, as is `next`, which
-- is the name of the next block that is allocated.
structure State where
  pc       : Pc
  ptr      : Arr → Option ℕ
  nrThread : ℤ
  run      : Bool
  cont     : Bool
  alarm    : Bool
  slots    : ℕ → Slot
  calls    : List Call
  next     : ℕ
  log      : Log (Option ℕ)

def init : State where
  pc       := .idle
  ptr      := fun _ => none
  nrThread := 0
  run      := false
  cont     := false
  alarm    := false
  slots    := fun _ => { semStart := 0, semDone := 0, worker := .unborn, rounds := 0 }
  calls    := []
  next     := 0
  log      := []

namespace State

variable (s : State)

def setSlot (i : ℕ) (t : Slot) : State :=
  { s with slots := Function.update s.slots i t }

-- Elements of the given arrays are read or written.
def use (as : List Arr) : State :=
  { s with log := as.map (.use <| s.ptr ·) ++ s.log }

def calloc (ok : Bool) (a : Arr) : State :=
  if ok then
    { s with
      ptr  := Function.update s.ptr a <| some s.next
      next := s.next + 1
      log  := .alloc (some s.next) :: s.log }
  else
    { s with ptr := Function.update s.ptr a none }

-- Nothing happens for a null pointer.
def free (a : Arr) : State :=
  if s.ptr a = none then s else { s with log := .free (s.ptr a) :: s.log }

-- The call that is being made returns.
def ret (call : Call) : State :=
  { s with pc := .idle, calls := call :: s.calls }

end State

-- The parameter says whether `calloc` succeeds. A thread that waits for a semaphore or another thread goes on
-- reading the array until it can proceed.
def stepMain (ok : Bool) (s : State) : Option State :=
  match s.pc with
  | .idle         => none
  -- spin_init
  | .initTest n   =>
    if s.cont then
      some <| s.ret <| .init true
    else
      some { s with pc := .initCalloc arrays, nrThread := n }
  | .initCalloc [] => some { s with pc := .initCheck }
  | .initCalloc (a :: as) => some { s.calloc ok a with pc := .initCalloc as }
  | .initCheck    =>
    if s.ptr .threads = none ∨ s.ptr .semStart = none ∨ s.ptr .semDone = none ∨ s.ptr .args = none then
      some { s with pc := .initFree arrays }
    else
      some { s with pc := .initCont }
  | .initCont     => some { s with pc := .initSem 0, cont := true }
  | .initSem i    =>
    if i < s.nrThread then
      some { (s.use [.semStart, .semDone]).setSlot i { s.slots i with semStart := 0, semDone := 0 } with
        pc := .initSem (i + 1) }
    else
      some { s with pc := .initCreate 0 }
  | .initCreate i =>
    if i < s.nrThread then
      some { (s.use [.args, .threads]).setSlot i { s.slots i with worker := .start } with
        pc := .initCreate (i + 1) }
    else
      some <| s.ret <| .init true
  | .initFree []  => some <| s.ret <| .init false
  | .initFree (a :: as) => some { s.free a with pc := .initFree as }
  -- spin_run
  | .runTest usec => if s.cont then some { s with pc := .runSet usec } else some <| s.ret .run
  | .runSet usec  => some { s with pc := .runTimer usec, run := true }
  | .runTimer usec =>
    match setitimer usec with
    | some alarm => some { s with pc := .runPost 0, alarm := alarm }
    | none       => some { s with pc := .exited }
  | .runPost i    =>
    if i < s.nrThread then
      some { (s.use [.semStart]).setSlot i { s.slots i with semStart := (s.slots i).semStart + 1 } with
        pc := .runPost (i + 1) }
    else
      some { s with pc := .runWait 0 }
  | .runWait i    =>
    if i < s.nrThread then
      if 0 < (s.slots i).semDone then
        some { (s.use [.semDone]).setSlot i { s.slots i with semDone := (s.slots i).semDone - 1 } with
          pc := .runWait (i + 1) }
      else
        some <| s.use [.semDone]
    else
      some <| s.ret .run
  -- spin_exit
  | .exitTest     => if s.cont then some { s with pc := .exitCont } else some <| s.ret .exit
  | .exitCont     => some { s with pc := .exitPost 0, cont := false }
  | .exitPost i   =>
    if i < s.nrThread then
      some { (s.use [.semStart]).setSlot i { s.slots i with semStart := (s.slots i).semStart + 1 } with
        pc := .exitPost (i + 1) }
    else
      some { s with pc := .exitJoin 0 }
  | .exitJoin i   =>
    if i < s.nrThread then
      if (s.slots i).worker = .returned then
        some { s.use [.threads] with pc := .exitJoin (i + 1) }
      else
        some <| s.use [.threads]
    else
      some { s with pc := .exitDestroy 0 }
  | .exitDestroy i =>
    if i < s.nrThread then
      some { s.use [.semStart] with pc := .exitDestroy (i + 1) }
    else
      some { s with pc := .exitFree arrays }
  | .exitFree []  => some <| s.ret .exit
  | .exitFree (a :: as) => some { s.free a with pc := .exitFree as }
  | .exited       => none

-- The arrays that a statement of `worker` reads or writes.
def workerUses : Worker → List Arr
  | .unborn   => []
  | .start    => [.args]
  | .wait     => [.args, .semStart]
  | .test     => []
  | .spin     => []
  | .post     => [.args, .semDone]
  | .left     => [.args]
  | .returned => []

-- A thread that can not go on at the moment still reads the arrays.
def stepWorker (s : State) (i : ℕ) : State :=
  let s' := s.use <| workerUses (s.slots i).worker
  match worker s.cont s.run (s.slots i) with
  | some t => s'.setSlot i t
  | none   => s'

inductive Event
  | init (n : ℤ) | run (usec : ℤ) | exit
  | main (ok : Bool) | worker (i : ℕ) | alarm
  deriving DecidableEq

def step (s : State) : Event → Option State
  | .init n   => if s.pc = .idle then some { s with pc := .initTest n } else none
  | .run usec => if s.pc = .idle then some { s with pc := .runTest usec } else none
  | .exit     => if s.pc = .idle then some { s with pc := .exitTest } else none
  | .main ok  => stepMain ok s
  | .worker i => if s.pc ≠ .exited then some <| stepWorker s i else none
  | .alarm    => if s.alarm ∧ s.pc ≠ .exited then some { s with run := false, alarm := false } else none

def spin : System State Event where
  init := init
  step := step

end WorkloadKit.Spin.Memory
