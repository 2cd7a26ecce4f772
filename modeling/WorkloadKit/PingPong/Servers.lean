import Mathlib.Data.Nat.Notation
import Mathlib.Logic.Function.Basic
import WorkloadKit.Library.System

namespace WorkloadKit.PingPong.Servers

-- The statement of `run` of a `ClientWorker` that is executed next. A `new` worker has not been started.
inductive Run
  | new | send | recv | close | finished
  deriving DecidableEq

-- A socket is identified by the index of the server that it is for.
structure Worker where
  run    : Run
  socket : Option ℕ

-- The statement of `ping_servers` that is executed next, where `i` is an index of the list of servers. A worker
-- is identified by the index of the server for which it has been created.
inductive Pc
  | create (i : ℕ) | connect (i : ℕ) | setSocket (i : ℕ) | start (i w : ℕ) | join (i : ℕ) | returned | raised
  deriving DecidableEq

-- The last three fields are ghosts: the workers for which `start` has been called, whether `set_socket` has been
-- called for a worker that was running, and the sockets that a ping has been sent to.
structure State (α : Type*) where
  pc         : Pc
  workersDic : α → Option ℕ
  workers    : ℕ → Worker
  starts     : List ℕ
  swapped    : Bool
  pings      : List ℕ

inductive Event
  | main | worker (w : ℕ)
  deriving DecidableEq

-- What `is_alive` returns.
def Worker.isAlive (t : Worker) : Prop :=
  t.run ≠ .new ∧ t.run ≠ .finished

instance : DecidablePred Worker.isAlive :=
  fun _ => inferInstanceAs <| Decidable (_ ∧ _)

variable {α : Type*} [DecidableEq α]

def init : State α where
  pc         := .create 0
  workersDic := fun _ => none
  workers    := fun _ => { run := .new, socket := none }
  starts     := []
  swapped    := false
  pings      := []

def State.setWorker (s : State α) (w : ℕ) (t : Worker) : State α :=
  { s with workers := Function.update s.workers w t }

-- The parameter `ok` says which of the connections succeed.
def stepMain (servers : List α) (ok : ℕ → Bool) (s : State α) : Option (State α) :=
  match s.pc with
  | .create i    =>
    match servers[i]? with
    | some server =>
      some { s with pc := .create (i + 1), workersDic := Function.update s.workersDic server <| some i }
    | none        => some { s with pc := .connect 0 }
  | .connect i   =>
    if i < servers.length then
      some { s with pc := if ok i then .setSocket i else .connect (i + 1) }
    else
      some { s with pc := .join 0 }
  | .setSocket i =>
    match servers[i]?.bind s.workersDic with
    | some w =>
      some { s.setWorker w { s.workers w with socket := some i } with
        pc := .start i w, swapped := s.swapped || (s.workers w).isAlive }
    | none   => some { s with pc := .raised }
  -- A thread can only be started once.
  | .start i w   =>
    if (s.workers w).run = .new then
      some { s.setWorker w { s.workers w with run := .send } with
        pc := .connect (i + 1), starts := s.starts ++ [w] }
    else
      some { s with pc := .raised, starts := s.starts ++ [w] }
  | .join i      =>
    if i < servers.length then
      match servers[i]?.bind s.workersDic with
      | some w => if (s.workers w).isAlive then none else some { s with pc := .join (i + 1) }
      | none   => some { s with pc := .raised }
    else
      some { s with pc := .returned }
  | .returned    => none
  | .raised      => none

-- A worker without a socket ends with an exception.
def stepWorker (s : State α) (w : ℕ) : Option (State α) :=
  match (s.workers w).run with
  | .new      => none
  | .send     =>
    match (s.workers w).socket with
    | some i => some { s.setWorker w { s.workers w with run := .recv } with pings := s.pings ++ [i] }
    | none   => some <| s.setWorker w { s.workers w with run := .finished }
  | .recv     => some <| s.setWorker w { s.workers w with run := .close }
  | .close    => some <| s.setWorker w { s.workers w with run := .finished }
  | .finished => none

def pingServers (servers : List α) (ok : ℕ → Bool) : System (State α) Event where
  init := init
  step s
    | .main     => stepMain servers ok s
    | .worker w => stepWorker s w

end WorkloadKit.PingPong.Servers
