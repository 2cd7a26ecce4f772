import Mathlib.Algebra.BigOperators.Group.Finset.Basic
import Mathlib.Algebra.Ring.Nat
import Mathlib.Data.Fintype.Basic
import Mathlib.Data.Int.Notation
import WorkloadKit.Library.Barrier
import WorkloadKit.Library.CInt
import WorkloadKit.Library.System

namespace WorkloadKit.Perfuser

-- The fields of `struct args` that change between two calls of `do_one`, or that the threads use.
structure Args where
  iterOverhead : ℤ
  iterMain     : ℤ
  disable      : ℤ
  period       : ℤ
  dryrun       : Bool
  samplePeriod : ℤ
  deriving DecidableEq

def DISABLE_EARLY : ℤ := 1
def DISABLE_LATE : ℤ := 2

-- A line of the file, apart from the time. The field `overflows` is a ghost: how many overflows the kernel has
-- counted.
structure Row where
  args      : Args
  hits      : ℤ
  overflows : ℕ

-- A counter of the kernel that counts for one thread. It may be enabled for a limited number of overflows,
-- where zero stands for no limit.
structure PerfEvent where
  enabled : Bool
  limit   : ℕ

namespace PerfEvent

def disable (e : PerfEvent) : PerfEvent :=
  { e with enabled := false }

def enable (e : PerfEvent) : PerfEvent :=
  { e with enabled := true }

def refresh (e : PerfEvent) : PerfEvent where
  enabled := true
  limit   := e.limit + 1

-- The last one of a limited number of overflows disables the counter.
def overflow (e : PerfEvent) : PerfEvent :=
  if e.limit = 1 then ⟨false, 0⟩ else { e with limit := e.limit - 1 }

end PerfEvent

-- The fields `args` and `fd` are empty as long as they are zero. A file descriptor is named after the thread
-- that has opened it.
structure Counter (n : ℕ) where
  rank : Fin n
  args : Option Args
  fd   : Option (Fin n)
  hits : ℤ

-- The statement of `do_work` that a thread executes next, where `refresh` and `enable` are in `open_counter`.
inductive Pc
  | unborn | setRank | perfEventOpen | refresh | enable | barrierWait | waiting (ticket : ℕ) | hog
  | closeCounter | returned
  deriving DecidableEq

-- The statement of `signal_handler` that a thread executes next, if it is in there.
inductive Handler
  | idle | load | hit | hog | rearm | leave
  deriving DecidableEq

-- The last two fields are ghosts. They count the overflows of the counter of the thread, and the ones that its
-- handler has counted.
structure Worker (n : ℕ) where
  pc        : Pc
  rank      : Fin n
  event     : Option PerfEvent
  pending   : Bool
  handler   : Handler
  overflows : ℕ
  handled   : ℕ

-- The statement that `main` executes next, where `call` is the next call of `do_one`. In `crashed` a thread
-- has used a null pointer or memory that is not allocated.
inductive Main
  | call | create (i : ℕ) | join (i : ℕ) | after | free | returned | crashed
  deriving DecidableEq

-- The calls of `do_one` that are left are given by their arguments. The field `round` is a ghost. It counts
-- the calls that have returned.
structure State (n : ℕ) where
  main      : Main
  calls     : List Args
  args      : Args
  gCounters : Option (Fin n → Counter n)
  workers   : Fin n → Worker n
  barrier   : Barrier
  rows      : List Row
  round     : ℕ

section

variable {n : ℕ} [NeZero n] (s : State n) (self : Fin n)

-- A thread that has not been created.
def unborn : Worker n where
  pc        := .unborn
  rank      := 0
  event     := none
  pending   := false
  handler   := .idle
  overflows := 0
  handled   := 0

def State.setWorker (w : Worker n) : State n :=
  { s with workers := Function.update s.workers self w }

def State.setCounter (counters : Fin n → Counter n) (cnt : Counter n) : State n :=
  { s with gCounters := some <| Function.update counters self cnt }

-- What a thread does with an element of `g_counters` and the arguments that this points to.
def State.access (i : Fin n) (k : (Fin n → Counter n) → Args → Option (State n)) : Option (State n) :=
  match s.gCounters with
  | none          => some { s with main := .crashed }
  | some counters =>
    match (counters i).args with
    | none      => some { s with main := .crashed }
    | some args => k counters args

-- A call of `ioctl` has no effect if the file is not open.
def State.ioctl (fd : Option (Fin n)) (op : PerfEvent → PerfEvent) : State n :=
  match fd with
  | none   => s
  | some f => s.setWorker f { s.workers f with event := (s.workers f).event.map op }

def State.gotoHandler (handler : Handler) : State n :=
  s.setWorker self { s.workers self with handler }

def State.goto (pc : Pc) : State n :=
  s.setWorker self { s.workers self with pc }

def signalHandler : Option (State n) :=
  let w := s.workers self
  match w.handler with
  | .idle   => none
  | .load   => s.access w.rank fun counters args =>
    let s := s.gotoHandler self .hit
    some <| if args.disable = DISABLE_LATE then s.ioctl (counters w.rank).fd .disable else s
  | .hit    => s.access w.rank fun counters _ =>
    let cnt := counters w.rank
    some <| (s.setWorker self { w with handler := .hog, handled := w.handled + 1 }).setCounter
      w.rank counters { cnt with hits := CInt.wrap (cnt.hits + 1) }
  | .hog    => s.access w.rank fun _ _ => some <| s.gotoHandler self .rearm
  | .rearm  => s.access w.rank fun counters args =>
    let s := s.gotoHandler self .leave
    some <|
      if args.disable = DISABLE_EARLY then
        s.ioctl (counters w.rank).fd .refresh
      else if args.disable = DISABLE_LATE then
        s.ioctl (counters w.rank).fd .enable
      else s
  | .leave  => some <| s.gotoHandler self .idle

-- The argument of `do_work` is the element of `g_counters` with the number of the thread.
def doWork : Option (State n) :=
  let w := s.workers self
  match w.pc with
  | .unborn         => none
  | .setRank        => s.access self fun counters args =>
    some <| s.setWorker self { w with
      pc   := if args.dryrun then .barrierWait else .perfEventOpen
      rank := (counters self).rank }
  | .perfEventOpen  => s.access self fun counters _ =>
    some <| (s.setWorker self { w with pc := .refresh, event := some ⟨false, 0⟩ }).setCounter
      self counters { counters self with fd := some self }
  | .refresh        => s.access self fun counters args =>
    let s := s.goto self .enable
    some <| if args.disable = DISABLE_EARLY then s.ioctl (counters self).fd .refresh else s
  | .enable         => s.access self fun counters _ =>
    some <| (s.goto self .barrierWait).ioctl (counters self).fd .enable
  | .barrierWait    =>
    some { s.goto self (.waiting s.barrier.generation) with barrier := s.barrier.arrive n }
  | .waiting ticket => if s.barrier.generation = ticket then none else some <| s.goto self .hog
  | .hog            => s.access self fun _ args =>
    some <| s.goto self (if args.dryrun then .returned else .closeCounter)
  | .closeCounter   => s.access self fun _ _ =>
    some <| s.setWorker self { w with pc := .returned, event := none }
  | .returned       => none

-- A signal interrupts a thread before its next statement. In the handler it is blocked.
def thread : Option (State n) :=
  let w := s.workers self
  if w.handler ≠ .idle then signalHandler s self
  else if w.pending then
    some <| s.setWorker self { w with pending := false, handler := .load }
  else
    doWork s self

-- The counter of a thread overflows, and the kernel sends a signal to the thread. This gets lost if another
-- one is pending.
def overflow : Option (State n) :=
  let w := s.workers self
  match w.event with
  | none   => none
  | some e =>
    if e.enabled then
      some <| s.setWorker self { w with
        event     := some e.overflow
        pending   := true
        overflows := w.overflows + 1 }
    else none

end

open scoped BigOperators in
-- The calls of `do_one` in an experiment, where `call` allocates `g_counters` and `free` frees them.
def main {n : ℕ} [NeZero n] (s : State n) : Option (State n) :=
  match s.main with
  | .call     =>
    match s.calls with
    | []            => some { s with main := .returned }
    | args :: calls =>
      some { s with main := .create 0, calls, args, gCounters := some fun _ => ⟨0, none, none, 0⟩ }
  | .create i =>
    if h : i < n then
      match s.gCounters with
      | none          => some { s with main := .crashed }
      | some counters =>
        some { (s.goto ⟨i, h⟩ .setRank).setCounter ⟨i, h⟩ counters
            { counters ⟨i, h⟩ with args := some s.args, rank := ⟨i, h⟩ } with
          main := .create (i + 1) }
    else
      some { s with main := .join 0 }
  | .join i   =>
    if h : i < n then
      if (s.workers ⟨i, h⟩).pc = .returned then some { s with main := .join (i + 1) } else none
    else
      some { s with main := .after }
  | .after    =>
    match s.gCounters with
    | none          => some { s with main := .crashed }
    | some counters =>
      let hits := (List.finRange n).foldl (fun hits i => CInt.wrap (hits + (counters i).hits)) 0
      some { s with main := .free, rows := s.rows ++ [⟨s.args, hits, ∑ i, (s.workers i).overflows⟩] }
  | .free     =>
    some { s with main := .call, gCounters := none, workers := fun _ => unborn, round := s.round + 1 }
  | .returned => none
  | .crashed  => none

inductive Event (n : ℕ)
  | main | thread (self : Fin n) | overflow (self : Fin n)
  deriving DecidableEq

-- After a crash the threads are gone, too.
def step {n : ℕ} [NeZero n] (s : State n) (e : Event n) : Option (State n) :=
  if s.main = .crashed then none
  else
    match e with
    | .main          => main s
    | .thread self   => thread s self
    | .overflow self => overflow s self

def perfuser (n : ℕ) [NeZero n] (args : Args) (calls : List Args) : System (State n) (Event n) where
  init := ⟨.call, calls, args, none, fun _ => unborn, .init, [], 0⟩
  step := step

end WorkloadKit.Perfuser
