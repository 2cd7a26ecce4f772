import Mathlib.Data.Int.Notation
import Mathlib.Data.Nat.Notation
import WorkloadKit.Library.System

namespace WorkloadKit.SockPair

-- The statement of `create_socketpair` that is executed next.
inductive Pc
  | socketListener | bind | listen | socketConnector | getsocknameListener | checkListenerSize | connect
  | accept | checkSize | closeListener | getsocknameConnector | store
  | returned (ret : ℤ)
  deriving DecidableEq

-- Who a connection to the listener has been made by.
inductive Client
  | connector | other
  deriving DecidableEq

inductive Side
  | client | server
  deriving DecidableEq

-- An end of a connection. A connection is identified by its place among all connections to the listener.
structure End where
  connection : ℕ
  side       : Side
  deriving DecidableEq

-- The connections that have not been accepted yet are `pending`. The field `arrivals` is a ghost, for all
-- connections that have been made.
structure State where
  pc        : Pc
  listening : Bool
  pending   : List ℕ
  arrivals  : List Client
  connector : Option End
  acceptor  : Option End
  fd        : Option (End × End)

def init : State where
  pc        := .socketListener
  listening := false
  pending   := []
  arrivals  := []
  connector := none
  acceptor  := none
  fd        := none

-- A new connection, behind those that have been made before.
def State.arrive (s : State) (c : Client) : State :=
  { s with pending := s.pending ++ [s.arrivals.length], arrivals := s.arrivals ++ [c] }

-- A statement for which a call succeeds, and its result is as expected.
def stepOk (s : State) : Option State :=
  match s.pc with
  | .socketListener       => some { s with pc := .bind }
  | .bind                 => some { s with pc := .listen }
  | .listen               => some { s with pc := .socketConnector, listening := true }
  | .socketConnector      => some { s with pc := .getsocknameListener }
  | .getsocknameListener  => some { s with pc := .checkListenerSize }
  | .checkListenerSize    => some { s with pc := .connect }
  | .connect              =>
    some { s.arrive .connector with pc := .accept, connector := some ⟨s.arrivals.length, .client⟩ }
  | .accept               =>
    match s.pending with
    | []              => none
    | conn :: pending => some { s with pc := .checkSize, pending, acceptor := some ⟨conn, .server⟩ }
  | .checkSize            => some { s with pc := .closeListener }
  | .closeListener        => some { s with pc := .getsocknameConnector, listening := false, pending := [] }
  | .getsocknameConnector => some { s with pc := .store }
  | .store                =>
    match s.connector, s.acceptor with
    | some connector, some acceptor => some { s with pc := .returned 0, fd := some (connector, acceptor) }
    | _, _                          => none
  | .returned _           => none

-- A statement for which a call fails. The result of `close` is ignored, and nothing is called at the end.
def stepFail (s : State) : Option State :=
  match s.pc with
  | .closeListener => none
  | .store         => none
  | .returned _    => none
  | _              => some { s with pc := .returned (-1) }

inductive Event
  | ok | fail | client
  deriving DecidableEq

def step (s : State) : Event → Option State
  | .ok     => stepOk s
  | .fail   => stepFail s
  | .client => if s.listening then some <| s.arrive .other else none

def sockpair : System State Event where
  init := init
  step := step

end WorkloadKit.SockPair
