import WorkloadKit.WkLock.Tasks

namespace WorkloadKit.WkLock

-- What can be seen of the module: that `wk_open` and `wk_release` are called for a file, and that they return.
inductive Call (φ : Type)
  | open (f : φ) | opened (f : φ) | release (f : φ) | released (f : φ)
  deriving DecidableEq

-- What the module is for: a lock that is taken in one step some time between the call of `wk_open` and its
-- return, and given back in one step between the call of `wk_release` and its return.
inductive Phase
  | closed | opening | taken | opened | releasing | given
  deriving DecidableEq

structure AtomicLock (φ : Type) where
  phase : φ → Phase
  lock  : Lock φ

variable {φ τ : Type} [DecidableEq φ] [DecidableEq τ]

def AtomicLock.goto (s : AtomicLock φ) (f : φ) (phase : Phase) : AtomicLock φ :=
  { s with phase := Function.update s.phase f phase }

-- Nobody but its holder gives the lock back.
def AtomicLock.step (s : AtomicLock φ) (f : φ) : Option (AtomicLock φ) :=
  match s.phase f with
  | .closed    => some <| s.goto f .opening
  | .opening   => (s.lock.acquire f).map fun l => { s.goto f .taken with lock := l }
  | .taken     => some <| s.goto f .opened
  | .opened    => some <| s.goto f .releasing
  | .releasing => if s.lock = some f then some { s.goto f .given with lock := none } else none
  | .given     => some <| s.goto f .closed

def atomicLock (φ : Type) [DecidableEq φ] : System (AtomicLock φ) φ where
  init := ⟨fun _ => .closed, none⟩
  step := AtomicLock.step

def AtomicLock.call (s : AtomicLock φ) (f : φ) : Option (Call φ) :=
  match s.phase f with
  | .closed => some <| .open f
  | .taken  => some <| .opened f
  | .opened => some <| .release f
  | .given  => some <| .released f
  | _       => none

def State.call (s : State φ) (f : φ) : Option (Call φ) :=
  match s.pc f with
  | .closed       => some <| .open f
  | .openPrint    => some <| .opened f
  | .opened       => some <| .release f
  | .releasePrint => some <| .released f
  | _             => none

-- The file for which a task executes a statement of the module.
def Kernel.active (s : Kernel τ φ) : TaskEvent τ φ → Option φ
  | .openFile _ f  => some f
  | .run t         => s.busy t
  | .closeFile t f => if s.isLast t f then some f else none
  | _              => none

def Kernel.call (s : Kernel τ φ) (e : TaskEvent τ φ) : Option (Call φ) :=
  (s.active e).bind s.base.call

end WorkloadKit.WkLock
