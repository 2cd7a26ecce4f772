import WorkloadKit.Rpc.State

-- The outer loop of the server, with clients that connect to it at any time.
namespace WorkloadKit.Rpc.Accept

-- The second argument of `listen`. A connection can still be added to a queue of this length.
def backlog : ℕ := 5

-- The connections come with the state that the inner loop begins with for each of them. The field `current`
-- is `newsockfd`. The fields `arrivals` and `accepted` are ghosts, which record the order in which the clients
-- have connected and in which `accept` has returned their connections.
structure State (ι : Type*) where
  conns    : ι → Rpc.State
  queue    : List ι
  current  : Option ι
  arrivals : List ι
  accepted : List ι

-- Each of the clients runs `rpc_experiment` with options of its own.
def clients {ι : Type*} (opts : ι → Opts) (count : BitVec 64) (i : ι) : Params where
  msgs  := (opts i).messages
  count := count

-- The events of a connection are those of its client, and those of the server while it is in the inner loop
-- for that connection.
inductive Event (ι : Type*)
  | connect (i : ι) | accept | conn (i : ι) (e : Rpc.Event)
  deriving DecidableEq

variable {ι : Type*} [DecidableEq ι] (p : ι → Params) (s : State ι)

def init : State ι where
  conns i  := Rpc.init (p i)
  queue    := []
  current  := none
  arrivals := []
  accepted := []

-- The call of `connect` in `rpc_connect`, which blocks while the queue is full.
def connect (i : ι) : Option (State ι) :=
  if i ∉ s.arrivals ∧ s.queue.length ≤ backlog then
    some { s with queue := s.queue ++ [i], arrivals := s.arrivals ++ [i] }
  else
    none

-- The server has left the inner loop, or it has not been in there.
def State.AtAccept : Prop :=
  ∀ i ∈ s.current, (s.conns i).server.pc = .closed

instance : Decidable s.AtAccept :=
  inferInstanceAs <| Decidable (∀ i ∈ s.current, _)

def accept : Option (State ι) :=
  if s.AtAccept then
    match s.queue with
    | []         => none
    | i :: queue => some { s with queue, current := some i, accepted := s.accepted ++ [i] }
  else
    none

-- The kernel completes connections before the server accepts them, so that a client does not wait for that.
def State.Takes (i : ι) : Rpc.Event → Prop
  | .client | .readClient _ => i ∈ s.arrivals
  | .server | .readServer _ => s.current = some i

instance (i : ι) : (e : Rpc.Event) → Decidable (s.Takes i e)
  | .client | .readClient _ => inferInstanceAs <| Decidable (i ∈ s.arrivals)
  | .server | .readServer _ => inferInstanceAs <| Decidable (s.current = some i)

def step (s : State ι) : Event ι → Option (State ι)
  | .connect i => connect s i
  | .accept    => accept s
  | .conn i e  =>
    if s.Takes i e then
      (Rpc.step (p i) (s.conns i) e).map fun c => { s with conns := Function.update s.conns i c }
    else
      none

def server : System (State ι) (Event ι) where
  init := init p
  step := step p

end WorkloadKit.Rpc.Accept
