import Mathlib.Data.Finset.Basic
import Mathlib.Data.Finset.Card
import WorkloadKit.SockPair.State

namespace WorkloadKit.SockPair

-- The process that calls `create_socketpair`: the local variables, the array `fd`, and the descriptors that
-- are open. The field `opened` is a ghost, for the descriptors that the function has opened.
structure Process where
  base      : State
  listener  : ℤ
  connector : ℤ
  acceptor  : ℤ
  table     : Finset ℕ
  fd        : ℤ × ℤ
  opened    : List ℕ

def Process.init (table : Finset ℕ) (fd : ℤ × ℤ) : Process where
  base      := SockPair.init
  listener  := -1
  connector := -1
  acceptor  := -1
  table     := table
  fd        := fd
  opened    := []

-- The lowest number that is not the one of an open descriptor.
def lowest (table : Finset ℕ) : ℕ :=
  ((List.range (table.card + 1)).find? (· ∉ table)).getD 0

-- A call that opens a descriptor.
def Process.opens (s : Process) : Process :=
  { s with table := insert (lowest s.table) s.table, opened := lowest s.table :: s.opened }

-- A call that fails returns -1, which is the value that the variable already has.
def Process.step (s : Process) (e : Event) : Option Process :=
  (SockPair.step s.base e).map fun base =>
    match e, s.base.pc with
    | .ok, .socketListener  => { s.opens with base, listener := lowest s.table }
    | .ok, .socketConnector => { s.opens with base, connector := lowest s.table }
    | .ok, .accept          => { s.opens with base, acceptor := lowest s.table }
    | .ok, .closeListener   => { s with base, table := s.table.erase s.listener.toNat }
    | .ok, .store           => { s with base, fd := (s.connector, s.acceptor) }
    | _, _                  => { s with base }

def createSocketpair (table : Finset ℕ) (fd : ℤ × ℤ) : System Process Event where
  init := .init table fd
  step := Process.step

end WorkloadKit.SockPair
