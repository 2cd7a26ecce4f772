import Mathlib.Data.Nat.Notation
import WorkloadKit.Library.System

namespace WorkloadKit.PingPong

-- Where the sending worker is in `send_msg`.
inductive Sender
  | sending | returned | raised
  deriving DecidableEq

-- The local variables of `send_msg` and `recv_msg` on the two ends of a connection, and the bytes that have been
-- sent but not received. The field `results` is a ghost for what the calls of `send` have returned.
structure State (α : Type*) where
  sender    : Sender
  totalsent : ℕ
  results   : List ℕ
  wire      : List α
  closed    : Bool
  rep       : List α
  totalrecv : ℕ

-- The number of bytes that a call of `send` accepts, or that a call of `recv` returns, is up to the system.
inductive Event
  | send (sent : ℕ) | endSend | close | recv (len : ℕ)
  deriving DecidableEq

variable {α : Type*}

def init : State α where
  sender    := .sending
  totalsent := 0
  results   := []
  wire      := []
  closed    := false
  rep       := []
  totalrecv := 1

-- The worker that sends closes the socket after `send_msg`.
def step (msg : List α) (s : State α) : Event → Option (State α)
  | .send sent =>
    if s.sender = .sending ∧ s.totalsent < msg.length ∧ sent ≤ (msg.drop s.totalsent).length then
      if sent = 0 then
        some { s with sender := .raised, results := s.results ++ [sent] }
      else
        some { s with
          totalsent := s.totalsent + sent
          results   := s.results ++ [sent]
          wire      := s.wire ++ (msg.drop s.totalsent).take sent }
    else
      none
  | .endSend   =>
    if s.sender = .sending ∧ ¬s.totalsent < msg.length then some { s with sender := .returned } else none
  | .close     => if s.sender ≠ .sending ∧ ¬s.closed then some { s with closed := true } else none
  -- The empty string is returned only at the end.
  | .recv len  =>
    if 0 < s.totalrecv ∧ len ≤ 1024 ∧ len ≤ s.wire.length ∧ (len = 0 → s.closed ∧ s.wire.length = 0) then
      let chunk := s.wire.take len
      some { s with wire := s.wire.drop len, rep := s.rep ++ chunk, totalrecv := chunk.length }
    else
      none

def message (msg : List α) : System (State α) Event where
  init := init
  step := step msg

end WorkloadKit.PingPong
