import WorkloadKit.Library.Lock
import WorkloadKit.Library.System

namespace WorkloadKit.Deadlock

inductive Mutex
  | a | b
  deriving DecidableEq

inductive Worker
  | a | b
  deriving DecidableEq

-- The statement that a worker executes next.
inductive Pc
  | unborn | lockFirst | usleep | lockSecond | returned
  deriving DecidableEq

-- The statement that `main` executes next. In `killed` one of the two `SIGKILL`s has ended the process.
inductive Main
  | create (w : Worker) | usleep | kill (w : Worker) | killed | returned
  deriving DecidableEq

structure State where
  main  : Main
  pc    : Worker → Pc
  owner : Mutex → Lock Worker

-- The threads of a process are gone once it has been killed or `main` has returned.
def State.Alive (s : State) : Prop :=
  s.main ≠ .killed ∧ s.main ≠ .returned

instance (s : State) : Decidable s.Alive :=
  inferInstanceAs <| Decidable (_ ∧ _)

def State.goto (s : State) (w : Worker) (pc : Pc) : State :=
  { s with pc := Function.update s.pc w pc }

def lock (s : State) (w : Worker) (m : Mutex) (next : Pc) : Option State :=
  ((s.owner m).acquire w).map fun l => { s.goto w next with owner := Function.update s.owner m l }

-- A worker that locks one mutex, sleeps, and locks another one. It returns without unlocking any of them.
def worker (w : Worker) (first second : Mutex) (s : State) : Option State :=
  match s.pc w with
  | .lockFirst          => lock s w first .usleep
  | .usleep             => some <| s.goto w .lockSecond
  | .lockSecond         => lock s w second .returned
  | .unborn | .returned => none

def workerA (s : State) : Option State :=
  worker .a .a .b s

def workerB (s : State) : Option State :=
  worker .b .b .a s

-- A `SIGKILL` ends the whole process, but only if the thread that it is sent to still exists.
def kill (s : State) (w : Worker) (next : Main) : State :=
  if s.pc w = .returned then { s with main := next } else { s with main := .killed }

def main (s : State) : Option State :=
  match s.main with
  | .create .a          => some { s.goto .a .lockFirst with main := .create .b }
  | .create .b          => some { s.goto .b .lockFirst with main := .usleep }
  | .usleep             => some { s with main := .kill .a }
  | .kill .a            => some <| kill s .a (.kill .b)
  | .kill .b            => some <| kill s .b .returned
  | .killed | .returned => none

inductive Event
  | main | worker (w : Worker)
  deriving DecidableEq

def step (s : State) : Event → Option State
  | .main      => main s
  | .worker .a => if s.Alive then workerA s else none
  | .worker .b => if s.Alive then workerB s else none

def deadlock : System State Event where
  init := ⟨.create .a, fun _ => .unborn, fun _ => none⟩
  step := step

end WorkloadKit.Deadlock
