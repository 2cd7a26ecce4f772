import Mathlib.Data.Int.Notation
import WorkloadKit.Library.Lock
import WorkloadKit.Library.System

namespace WorkloadKit.Lockfight

-- The statement that a process executes next, where `setLock` is the call of `fcntl` in `lock_file`. The
-- result of `lock_file` is not used by `main`. It is kept here as a ghost: whether the process has the lock.
inductive Pc
  | parseOpts | openFile | lockFile | setLock | sleep (locked : Bool) | unlockFile (locked : Bool)
  | sleepAgain (locked : Bool) | exited (status : ℤ)
  deriving DecidableEq

-- Some processes that are all given the same file, and what they print about the lock.
structure State (φ : Type*) where
  pc     : φ → Pc
  lock   : Lock φ
  stdout : φ → List String
  stderr : φ → List String

section

variable {φ : Type*} [DecidableEq φ] (s : State φ) (self : φ)

def State.goto (pc : Pc) : State φ :=
  { s with pc := Function.update s.pc self pc }

def State.printf (msg : String) : State φ :=
  { s with stdout := Function.update s.stdout self (s.stdout self ++ [msg]) }

def State.perror (msg : String) : State φ :=
  { s with stderr := Function.update s.stderr self (s.stderr self ++ [msg]) }

-- The process waits in `fcntl` until it gets the lock, or until the call fails.
def setLock (succeeds : Bool) : Option (State φ) :=
  if succeeds then
    (s.lock.acquire self).map fun l =>
      { (s.goto self <| .sleep true).printf self "File lock succeeded" with lock := l }
  else
    some <| (s.goto self <| .sleep false).perror self "fcntl error"

-- A process that does not have the lock can not release it for another one.
def release : Lock φ :=
  if s.lock = some self then none else s.lock

def unlockFile (locked succeeds : Bool) : State φ :=
  let s := s.printf self "Try to unlock file..."
  if succeeds then
    { (s.goto self <| .sleepAgain false).printf self "File unlock succeeded" with lock := release s self }
  else
    (s.goto self <| .sleepAgain locked).perror self "fcntl error"

-- A process that ends gives back the lock if it still has it.
def exit (status : ℤ) : State φ :=
  { s.goto self (.exited status) with lock := release s self }

-- The parameter says whether the next call succeeds. After `do_sleep` the process goes on in any case.
def main (succeeds : Bool) : Option (State φ) :=
  match s.pc self with
  | .parseOpts         => some <| if succeeds then s.goto self .openFile else exit s self 1
  | .openFile          =>
    some <| if succeeds then s.goto self .lockFile else exit (s.perror self "Can't open output file") self (-1)
  | .lockFile          => some <| (s.goto self .setLock).printf self "Try to lock file..."
  | .setLock           => setLock s self succeeds
  | .sleep locked      => some <| s.goto self (.unlockFile locked)
  | .unlockFile locked => some <| unlockFile s self locked succeeds
  | .sleepAgain _      => some <| exit s self 0
  | .exited _          => none

end

structure Event (φ : Type*) where
  self     : φ
  succeeds : Bool

def lockfight (φ : Type*) [DecidableEq φ] : System (State φ) (Event φ) where
  init := ⟨fun _ => .parseOpts, none, fun _ => [], fun _ => []⟩
  step := fun s e => main s e.self e.succeeds

end WorkloadKit.Lockfight
