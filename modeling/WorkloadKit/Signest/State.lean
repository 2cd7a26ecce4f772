import Mathlib.Data.Fintype.Basic
import WorkloadKit.Library.Signals
import WorkloadKit.Library.System

namespace WorkloadKit.Signest

-- The signals that `main` installs handlers for, where `rt` is `signo`.
inductive Sig
  | usr1 | usr2 | rt | segv
  deriving DecidableEq

instance : Fintype Sig where
  elems        := {.usr1, .usr2, .rt, .segv}
  complete sig := by cases sig <;> decide

-- Real-time signals are queued.
def Sig.queued : Sig → Bool
  | rt                 => true
  | usr1 | usr2 | segv => false

inductive Function
  | handler1 | handler2 | handler3 | crash
  deriving DecidableEq

-- The texts that are written, where `start` is the one with the action.
inductive Message
  | start | bye | handler2 | handler3 | before | after
  deriving DecidableEq

-- In `load` the null pointer `x` is used. The calls that set up a set with one signal are a part of the call of
-- `sigprocmask` for that set. The calls of `print` and `doBt` are assumed to return, also in a handler.
inductive Stmt
  | signal (sig : Sig) (d : Disposition Function) | block (sig : Sig) | unblock (sig : Sig) | kill (sig : Sig)
  | print (msg : Message) | load | doBt | exit
  deriving DecidableEq

open Stmt

def main : List Stmt :=
  [print .start, signal .usr1 (.handler .handler1), signal .usr2 (.handler .handler2),
    signal .rt (.handler .handler3), signal .segv (.handler .crash), block .usr2, kill .usr2, kill .usr2,
    unblock .usr2, print .bye]

def handler1 (action : ℤ) : List Stmt :=
  if action = 0 then
    [block .segv, print .before, load, print .after, block .segv]
  else if action = 1 then
    [kill .usr2]
  else if action = 2 then
    [block .usr2, kill .usr2, unblock .usr2]
  else if action = 3 then
    [signal .usr2 .ignore, kill .usr2]
  else
    []

def Function.body (action : ℤ) : Function → List Stmt
  | handler1 => Signest.handler1 action
  | handler2 => [print .handler2, doBt]
  | handler3 => [print .handler3, doBt]
  | crash    => [doBt, exit]

-- A handler that has been called, with the statements that are left and the signals that are blocked when it
-- has returned.
structure Frame where
  fn    : Function
  code  : List Stmt
  saved : Sig → Bool

inductive Status
  | running | exited | killed (sig : Sig)
  deriving DecidableEq

-- The statements that are left of `main`, and the handlers that have not returned, the innermost one first.
-- The fields `calls` and `sent` are ghosts, which record the calls of handlers and the signals that other
-- processes have sent.
structure State where
  status   : Status
  signals  : Signals Sig Function Sig.queued
  main     : List Stmt
  handlers : List Frame
  output   : List Message
  calls    : List Function
  sent     : List Sig

def init : State where
  status   := .running
  signals  := .init
  main     := Signest.main
  handlers := []
  output   := []
  calls    := []
  sent     := []

variable (action : ℤ) (s : State)

-- A handler is called, during which its signal is blocked.
def call (sig : Sig) (f : Function) : State :=
  { s with
    signals  := s.signals.setBlocked <| Function.update s.signals.blocked sig true
    handlers := ⟨f, f.body action, s.signals.blocked⟩ :: s.handlers
    calls    := s.calls ++ [f] }

-- The effect of a statement other than `load`.
def exec : Stmt → State
  | signal sig d => { s with signals := s.signals.signal sig d }
  | block sig    => { s with signals := s.signals.setBlocked <| Function.update s.signals.blocked sig true }
  | unblock sig  => { s with signals := s.signals.setBlocked <| Function.update s.signals.blocked sig false }
  | kill sig     => { s with signals := s.signals.send sig }
  | print msg    => { s with output := s.output ++ [msg] }
  | exit         => { s with status := .exited }
  | load | doBt  => s

-- The signal of a statement that fails. The process is killed if it is blocked or not handled. Otherwise the
-- statement is executed again after the handler.
def fault (sig : Sig) : State :=
  match s.signals.blocked sig, s.signals.disposition sig with
  | false, .handler f => call action s sig f
  | _, _              => { s with status := .killed sig }

-- The statements that are left of the innermost handler, or of `main`.
def State.code : List Stmt :=
  match s.handlers with
  | []         => s.main
  | frame :: _ => frame.code

def State.setCode (code : List Stmt) : State :=
  match s.handlers with
  | []              => { s with main := code }
  | frame :: frames => { s with handlers := { frame with code } :: frames }

-- The innermost handler returns, or `main`.
def leave : State :=
  match s.handlers with
  | []              => { s with status := .exited }
  | frame :: frames => { s with signals := s.signals.setBlocked frame.saved, handlers := frames }

def run : State :=
  match s.code with
  | []           => leave s
  | load :: _    => fault action s .segv
  | stmt :: code => exec (s.setCode code) stmt

def deliver (sig : Sig) : State :=
  let s := { s with signals := s.signals.take sig }
  match s.signals.disposition sig with
  | .default   => { s with status := .killed sig }
  | .ignore    => s
  | .handler f => call action s sig f

-- In `send` another process sends a signal.
inductive Event
  | run | deliver (sig : Sig) | send (sig : Sig)
  deriving DecidableEq

-- The process does not go on before all signals are delivered that are pending and not blocked.
def step (s : State) (e : Event) : Option State :=
  if s.status = .running then
    match e with
    | .run         => if ∃ sig, s.signals.Deliverable sig then none else some (run action s)
    | .deliver sig => if s.signals.Deliverable sig then some (deliver action s sig) else none
    | .send sig    => some { s with signals := s.signals.send sig, sent := s.sent ++ [sig] }
  else
    none

def signest : System State Event where
  init := init
  step := step action

end WorkloadKit.Signest
