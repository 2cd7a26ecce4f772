import Mathlib.Data.Finset.Basic
import WorkloadKit.WkLock.State

namespace WorkloadKit.WkLock

-- The tasks that use the module. A task is `busy` with the file for which it executes `wk_open` or
-- `wk_release`, and has other `files` open. The `owner` is the task that has locked the mutex. The module can
-- only be removed while it has no `users`, which are the files that are not closed.
--
-- The fields `opener` and `unlocks` are ghosts: the task that has opened a file, and for each unlock of the
-- mutex the task that executes it together with the owner.
structure Kernel (τ φ : Type) where
  base    : State φ
  live    : Finset τ
  busy    : τ → Option φ
  files   : τ → Finset φ
  owner   : Option τ
  users   : Finset φ
  removed : Bool
  opener  : φ → Option τ
  unlocks : List (τ × Option τ)

variable {τ φ : Type} [DecidableEq τ] [DecidableEq φ]

def Kernel.init (live : Finset τ) : Kernel τ φ where
  base    := WkLock.init
  live    := live
  busy    := fun _ => none
  files   := fun _ => ∅
  owner   := none
  users   := ∅
  removed := false
  opener  := fun _ => none
  unlocks := []

namespace Kernel

-- A task that can make a system call.
def ready (s : Kernel τ φ) (t : τ) : Bool :=
  t ∈ s.live && (s.busy t).isNone

-- The kernel takes a reference to the module and calls `wk_open`.
def openFile (s : Kernel τ φ) (t : τ) (f : φ) : Option (Kernel τ φ) :=
  if s.ready t ∧ s.removed = false ∧ s.base.pc f = .closed then
    (WkLock.step s.base f).map fun base => { s with
      base
      busy   := Function.update s.busy t f
      users  := insert f s.users
      opener := Function.update s.opener f t }
  else
    none

-- The next statement of `wk_open` or of `wk_release`. After the former, the task has the file open.
def run (s : Kernel τ φ) (t : τ) : Option (Kernel τ φ) :=
  match s.busy t with
  | none   => none
  | some f =>
    (WkLock.step s.base f).map fun base =>
      match s.base.pc f with
      | .openMutex    => { s with base, owner := t }
      | .openPrint    => { s with
          base
          busy  := Function.update s.busy t none
          files := Function.update s.files t (insert f (s.files t)) }
      | .releaseMutex => { s with base, owner := none, unlocks := (t, s.owner) :: s.unlocks }
      | .releasePrint => { s with
          base
          busy  := Function.update s.busy t none
          users := s.users.erase f }
      | _             => { s with base }

-- The new task inherits the open files.
def fork (s : Kernel τ φ) (t child : τ) : Option (Kernel τ φ) :=
  if s.ready t ∧ child ∉ s.live then
    some { s with
      live  := insert child s.live
      files := Function.update s.files child (s.files t) }
  else
    none

-- Whether a file is open in no other task.
def isLast (s : Kernel τ φ) (t : τ) (f : φ) : Bool :=
  ∀ u ∈ s.live, u ≠ t → f ∉ s.files u

-- The kernel calls `wk_release` in the task that drops the last reference.
def closeFile (s : Kernel τ φ) (t : τ) (f : φ) : Option (Kernel τ φ) :=
  if s.ready t ∧ f ∈ s.files t then
    let files := Function.update s.files t ((s.files t).erase f)
    if s.isLast t f then
      (WkLock.step s.base f).map fun base => { s with base, files, busy := Function.update s.busy t f }
    else
      some { s with files }
  else
    none

-- The files of a task have been closed when it is gone.
def exit (s : Kernel τ φ) (t : τ) : Option (Kernel τ φ) :=
  if s.ready t ∧ s.files t = ∅ then some { s with live := s.live.erase t } else none

-- The module is removed. As it has no users, nobody else executes any of its statements meanwhile.
def wkExit (s : Kernel τ φ) (t : τ) : Option (Kernel τ φ) :=
  if s.ready t ∧ s.removed = false ∧ s.users = ∅ then
    if s.base.locked ≠ 0 then
      some { s with
        base    := { s.base with wkLock := none }
        owner   := none
        removed := true
        unlocks := (t, s.owner) :: s.unlocks }
    else
      some { s with removed := true }
  else
    none

end Kernel

inductive TaskEvent (τ φ : Type)
  | openFile (t : τ) (f : φ)
  | run (t : τ)
  | fork (t child : τ)
  | closeFile (t : τ) (f : φ)
  | exit (t : τ)
  | remove (t : τ)
  deriving DecidableEq

def Kernel.step (s : Kernel τ φ) : TaskEvent τ φ → Option (Kernel τ φ)
  | .openFile t f  => s.openFile t f
  | .run t         => s.run t
  | .fork t child  => s.fork t child
  | .closeFile t f => s.closeFile t f
  | .exit t        => s.exit t
  | .remove t      => s.wkExit t

def taskSystem (live : Finset τ) : System (Kernel τ φ) (TaskEvent τ φ) where
  init := .init live
  step := Kernel.step

end WorkloadKit.WkLock
