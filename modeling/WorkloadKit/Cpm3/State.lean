import WorkloadKit.Library.System

namespace WorkloadKit.Cpm3

-- The sizes that `do_server_run` and `do_client_run` pass to `do_send` and `do_recv`.
def doServerRun (size : ℕ) : List ℕ :=
  let full := size
  let half := size / 2
  [full, half, half, full]

def doClientRun (size : ℕ) : List ℕ :=
  let full := size
  let half := size / 2
  [full, full, half, half]

-- How many times `server` and `client` call them.
def runs : ℕ := 3

-- The size of the `j`-th call in all runs, each of which makes four calls.
def sendSize (size j : ℕ) : ℕ :=
  (doServerRun size).getD (j % 4) 0

def recvSize (size j : ℕ) : ℕ :=
  (doClientRun size).getD (j % 4) 0

-- The bytes that the calls of `send` and `recv` have transferred, and those that are on their way. Each byte
-- stands for its number in the order in which they are sent, as the contents of the buffers are arbitrary.
-- What `do_send` and `do_recv` print and how long they take does not change what they do next.
structure State where
  sends  : List (List ℕ)
  recvs  : List (List ℕ)
  stream : List ℕ

def init : State where
  sends  := []
  recvs  := []
  stream := []

def doSend (size : ℕ) (s : State) : Option State :=
  if s.sends.length < 4 * runs then
    let bytes := List.range' s.sends.flatten.length (sendSize size s.sends.length)
    some { s with sends := s.sends ++ [bytes], stream := s.stream ++ bytes }
  else
    none

-- A call of `recv` returns some of the bytes that have arrived. It does not return any if it does not ask
-- for any, or if the stream has ended.
def doRecv (size : ℕ) (s : State) (n : ℕ) : Option State :=
  let requested := recvSize size s.recvs.length
  let ended := s.stream = [] ∧ 4 * runs ≤ s.sends.length
  if s.recvs.length < 4 * runs ∧ n ≤ requested ∧ n ≤ s.stream.length ∧ (n = 0 → requested = 0 ∨ ended) then
    some { s with recvs := s.recvs ++ [s.stream.take n], stream := s.stream.drop n }
  else
    none

-- The event of `recv` comes with the number of bytes that the call returns.
inductive Event
  | send | recv (n : ℕ)
  deriving DecidableEq

def step (size : ℕ) (s : State) : Event → Option State
  | .send   => doSend size s
  | .recv n => doRecv size s n

def cpm3 (size : ℕ) : System State Event where
  init := init
  step := step size

end WorkloadKit.Cpm3
