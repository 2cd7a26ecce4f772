import WorkloadKit.Library.Bytes
import WorkloadKit.Library.Segment
import WorkloadKit.Library.System

namespace WorkloadKit.Pipette

def PAGE_SIZE : ℕ := 4096

-- The arguments of the two children, and the number of bytes that the pipe can hold.
structure Params where
  size     : ℕ
  count    : ℕ
  capacity : ℕ

-- The statement that a child executes next: it is in `close` after `fork`, in `calloc` to `fill` in
-- `producer` or `consumer`, and in `transfer` in the loop of `do_transfer`. The delays do not change
-- anything that can be observed.
inductive Child.Pc
  | unborn | close | calloc | test | fill | transfer | exited (ret : ℤ)
  deriving DecidableEq

-- The fields `touched` and `blocks` are ghosts. They record the offsets of the bytes that the last call of
-- `do_transfer` has transferred, and the contents of `buf`: those that the producer has filled in, and
-- those that the consumer holds after each call of `do_transfer`.
structure Child where
  pc      : Child.Pc
  i       : ℕ
  buf     : List Byte
  len     : ℕ
  touched : List ℕ
  blocks  : List (List Byte)

-- The statement that the parent executes next. In `wait`, it has waited for `k` children.
inductive Main
  | forkProducer | forkConsumer | wait (k : ℕ) | exited
  deriving DecidableEq

structure State where
  main     : Main
  producer : Child
  consumer : Child
  pipe     : List Byte

def Child.init : Child where
  pc      := .unborn
  i       := 0
  buf     := []
  len     := 0
  touched := []
  blocks  := []

-- The parent has created the pipe.
def init : State where
  main     := .forkProducer
  producer := .init
  consumer := .init
  pipe     := []

namespace Child.Pc

def Exited : Pc → Prop
  | exited _ => True
  | _        => False

def Alive : Pc → Prop
  | unborn | exited _ => False
  | _                 => True

instance : DecidablePred Exited
  | exited _ => .isTrue trivial
  | unborn | close | calloc | test | fill | transfer => .isFalse id

instance : DecidablePred Alive
  | unborn | exited _ => .isFalse id
  | close | calloc | test | fill | transfer => .isTrue trivial

end Child.Pc

-- Whether a process has one of the ends of the pipe open. The parent does not close any of them, and each
-- of the children closes the end that it does not use.
def State.ReadOpen (s : State) : Prop :=
  s.main ≠ .exited ∨ s.consumer.pc.Alive ∨ s.producer.pc = .close

def State.WriteOpen (s : State) : Prop :=
  s.main ≠ .exited ∨ s.producer.pc.Alive ∨ s.consumer.pc = .close

instance {s : State} : Decidable s.ReadOpen :=
  inferInstanceAs <| Decidable (_ ∨ _ ∨ _)

instance {s : State} : Decidable s.WriteOpen :=
  inferInstanceAs <| Decidable (_ ∨ _ ∨ _)

-- The number of bytes that an iteration of `do_transfer` asks for.
def chunk (size len : ℕ) : ℕ :=
  if size - len < PAGE_SIZE then size - len else PAGE_SIZE

-- A child that calls `do_transfer`.
def Child.startTransfer (c : Child) : Child :=
  { c with pc := .transfer, len := 0, touched := [] }

-- The effect of a call of `write` or `read` that has transferred `n` bytes.
def Child.advance (c : Child) (n : ℕ) : Child :=
  { c with len := c.len + n, touched := c.touched ++ List.range' c.len n }

-- The statements of the children other than the calls of `write` and `read`.
def stepProducer (p : Params) (c : Child) : Option Child :=
  match c.pc with
  | .unborn   => none
  | .close    => some { c with pc := .calloc }
  | .calloc   => some { c with pc := .test, i := 0, buf := List.replicate p.size 0 }
  | .test     => some { c with pc := if c.i < p.count then .fill else .exited 0 }
  | .fill     =>
    let buf := List.replicate p.size (BitVec.ofNat 8 c.i)
    some { c with buf, blocks := c.blocks ++ [buf] }.startTransfer
  | .transfer => if c.len < p.size then none else some { c with pc := .test, i := c.i + 1 }
  | .exited _ => none

def stepConsumer (p : Params) (c : Child) : Option Child :=
  match c.pc with
  | .unborn   => none
  | .close    => some { c with pc := .calloc }
  | .calloc   => some { c with pc := .test, i := 0, buf := List.replicate p.size 0 }
  | .test     => some (if c.i < p.count then c.startTransfer else { c with pc := .exited 0 })
  | .fill     => none
  | .transfer =>
    if c.len < p.size then
      none
    else
      some { c with pc := .test, i := c.i + 1, blocks := c.blocks ++ [c.buf] }
  | .exited _ => none

-- Whether a child is about to call `write` or `read`.
def Child.Calling (p : Params) (c : Child) : Prop :=
  c.pc = .transfer ∧ c.len < p.size

instance {c : Child} : Decidable (c.Calling p) :=
  inferInstanceAs <| Decidable (_ ∧ _)

-- The number of children that have exited.
def State.exitedChildren (s : State) : ℕ :=
  (if s.producer.pc.Exited then 1 else 0) + if s.consumer.pc.Exited then 1 else 0

def stepMain (s : State) : Option State :=
  match s.main with
  | .forkProducer => some { s with main := .forkConsumer, producer := { s.producer with pc := .close } }
  | .forkConsumer => some { s with main := .wait 0, consumer := { s.consumer with pc := .close } }
  | .wait k       =>
    if k < 2 then
      if k < s.exitedChildren then some { s with main := .wait (k + 1) } else none
    else
      some { s with main := .exited }
  | .exited       => none

-- A call of `write` transfers a part of the chunk at least, as soon as the pipe has room for it.
def write (p : Params) (s : State) (n : ℕ) : Option State :=
  let c := s.producer
  if c.Calling p ∧ s.ReadOpen ∧ 1 ≤ n ∧ n ≤ chunk p.size c.len ∧ s.pipe.length + n ≤ p.capacity then
    some { s with producer := c.advance n, pipe := s.pipe ++ (c.buf.drop c.len).take n }
  else
    none

-- A call of `read` transfers some of the bytes in the pipe, or nothing if it is empty and there is nobody
-- who could write to it.
def read (p : Params) (s : State) (n : ℕ) : Option State :=
  let c := s.consumer
  if c.Calling p ∧ n ≤ chunk p.size c.len ∧ n ≤ s.pipe.length ∧ (n = 0 → s.pipe = [] ∧ ¬s.WriteOpen) then
    some { s with
      consumer := { c.advance n with buf := splice c.buf c.len (s.pipe.take n) }
      pipe     := s.pipe.drop n }
  else
    none

-- A call of `calloc`, `write` or `read` that returns an error makes the child return -1.
def failProducer (p : Params) (s : State) : Option State :=
  if s.producer.pc = .calloc ∨ s.producer.Calling p ∧ ¬s.ReadOpen then
    some { s with producer := { s.producer with pc := .exited (-1) } }
  else
    none

def failConsumer (p : Params) (s : State) : Option State :=
  if s.consumer.pc = .calloc ∨ s.consumer.Calling p then
    some { s with consumer := { s.consumer with pc := .exited (-1) } }
  else
    none

inductive Event
  | main | producer | consumer | write (n : ℕ) | read (n : ℕ) | failProducer | failConsumer
  deriving DecidableEq

def step (p : Params) (s : State) : Event → Option State
  | .main         => stepMain s
  | .producer     => (stepProducer p s.producer).map fun c => { s with producer := c }
  | .consumer     => (stepConsumer p s.consumer).map fun c => { s with consumer := c }
  | .write n      => write p s n
  | .read n       => read p s n
  | .failProducer => failProducer p s
  | .failConsumer => failConsumer p s

def pipette (p : Params) : System State Event where
  init := init
  step := step p

end WorkloadKit.Pipette
