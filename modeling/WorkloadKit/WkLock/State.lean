import WorkloadKit.Library.Lock
import WorkloadKit.Library.System

namespace WorkloadKit.WkLock

-- The statement of the module which the task that uses a file executes next. A file that is `closed` can
-- be opened, and one that is `opened` can be closed.
inductive Pc
  | closed
  | openMutex | openSpin | openSet | openUnspin | openPrint
  | opened
  | releaseSpin | releaseClear | releaseMutex | releaseUnspin | releasePrint
  deriving DecidableEq

-- The locks record the file by means of which they have been taken.
structure State (φ : Type) where
  pc           : φ → Pc
  wkLock       : Lock φ
  privSpinLock : Lock φ
  locked       : ℤ

variable {φ : Type} [DecidableEq φ]

-- The state after `wk_init`.
def init : State φ where
  pc           := fun _ => .closed
  wkLock       := none
  privSpinLock := none
  locked       := 0

def State.setPc (s : State φ) (f : φ) (pc : Pc) : State φ :=
  { s with pc := Function.update s.pc f pc }

def wkOpen (s : State φ) (f : φ) : Option (State φ) :=
  match s.pc f with
  | .openMutex  => (s.wkLock.acquire f).map fun l => { s.setPc f .openSpin with wkLock := l }
  | .openSpin   => (s.privSpinLock.acquire f).map fun l => { s.setPc f .openSet with privSpinLock := l }
  | .openSet    => some { s.setPc f .openUnspin with locked := 1 }
  | .openUnspin => some { s.setPc f .openPrint with privSpinLock := none }
  | .openPrint  => some <| s.setPc f .opened
  | _           => none

def wkRelease (s : State φ) (f : φ) : Option (State φ) :=
  match s.pc f with
  | .releaseSpin   => (s.privSpinLock.acquire f).map fun l => { s.setPc f .releaseClear with privSpinLock := l }
  | .releaseClear  => some { s.setPc f .releaseMutex with locked := 0 }
  | .releaseMutex  => some { s.setPc f .releaseUnspin with wkLock := none }
  | .releaseUnspin => some { s.setPc f .releasePrint with privSpinLock := none }
  | .releasePrint  => some <| s.setPc f .closed
  | _              => none

-- The scheduler picks the file whose task makes a step.
def step (s : State φ) (f : φ) : Option (State φ) :=
  match s.pc f with
  | .closed                                                                    => some <| s.setPc f .openMutex
  | .openMutex | .openSpin | .openSet | .openUnspin | .openPrint               => wkOpen s f
  | .opened                                                                    => some <| s.setPc f .releaseSpin
  | .releaseSpin | .releaseClear | .releaseMutex | .releaseUnspin | .releasePrint => wkRelease s f

def lockModule (φ : Type) [DecidableEq φ] : System (State φ) φ where
  init := init
  step := step

end WorkloadKit.WkLock
