import Mathlib.Logic.Function.Basic
import WorkloadKit.Library.CChar
import WorkloadKit.Library.System

namespace WorkloadKit.Pipeline

-- The constants of the program, and how its platform reads a plain `char`.
structure Params where
  queueLength : ℕ
  maxItems    : ℕ
  charSigned  : Bool
  queueLength_pos : 0 < queueLength

-- The fields `puts` and `gets` are ghosts. They record the accesses to `data` in their order, each
-- as the slot and the value that was written to or read from it.
structure Queue where
  data    : ℕ → CChar
  semFree : ℕ
  semBusy : ℕ
  ip      : ℕ
  ic      : ℕ
  puts    : List (ℕ × CChar)
  gets    : List (ℕ × CChar)

namespace Queue

-- `memset` and the two calls of `sem_init` in `main`.
def init (p : Params) : Queue where
  data    := fun _ => 0
  semFree := p.queueLength
  semBusy := 0
  ip      := 0
  ic      := 0
  puts    := []
  gets    := []

def waitFree (q : Queue) : Option Queue :=
  if 0 < q.semFree then some { q with semFree := q.semFree - 1 } else none

def waitBusy (q : Queue) : Option Queue :=
  if 0 < q.semBusy then some { q with semBusy := q.semBusy - 1 } else none

def postFree (q : Queue) : Queue :=
  { q with semFree := q.semFree + 1 }

def postBusy (q : Queue) : Queue :=
  { q with semBusy := q.semBusy + 1 }

-- q.data[q.ip] = c
def put (q : Queue) (c : CChar) : Queue :=
  { q with data := Function.update q.data q.ip c, puts := q.puts ++ [(q.ip, c)] }

-- The value of q.data[q.ic].
def front (q : Queue) : CChar :=
  q.data q.ic

def get (q : Queue) : Queue :=
  { q with gets := q.gets ++ [(q.ic, q.front)] }

def advanceIp (p : Params) (q : Queue) : Queue :=
  { q with ip := (q.ip + 1) % p.queueLength }

def advanceIc (p : Params) (q : Queue) : Queue :=
  { q with ic := (q.ic + 1) % p.queueLength }

end Queue

-- The statement on `*data` of `do_action`.
def doAction (c : CChar) : CChar :=
  c + 1

-- The statement which `worker_1` executes next. There is one constructor for each statement that
-- has an effect, and `returned` once the worker has left its loop.
inductive Worker1.Pc
  | waitFree | test
  | putMarker | postMarker
  | action | put | advance | postBusy | reset | count
  | returned
  deriving DecidableEq

-- The field `acted` is a ghost, which records the value of `c` after each `do_action`.
structure Worker1 where
  pc        : Worker1.Pc
  c         : CChar
  processed : ℕ
  acted     : List CChar

inductive Worker2.Pc
  | waitBusy | waitFree | get | test
  | putMarker | postMarker
  | action | put | advanceIc | advanceIp | postFree | postBusy
  | returned
  deriving DecidableEq

-- The field `rounds` is another ghost, the number of completed iterations of the loop.
structure Worker2 where
  pc     : Worker2.Pc
  c      : CChar
  rounds : ℕ
  acted  : List CChar

inductive Worker3.Pc
  | waitBusy | get | test | action | advance | postFree | returned
  deriving DecidableEq

structure Worker3 where
  pc     : Worker3.Pc
  c      : CChar
  rounds : ℕ
  acted  : List CChar

structure State where
  q₀ : Queue
  q₁ : Queue
  w₁ : Worker1
  w₂ : Worker2
  w₃ : Worker3

def worker1 (p : Params) (w : Worker1) (q₀ : Queue) : Option (Worker1 × Queue) :=
  match w.pc with
  | .waitFree   => q₀.waitFree.map fun q₀ => ({ w with pc := .test }, q₀)
  | .test       => some ({ w with pc := if w.processed ≥ p.maxItems then .putMarker else .action }, q₀)
  | .putMarker  => some ({ w with pc := .postMarker }, q₀.put (-1))
  | .postMarker => some ({ w with pc := .returned }, q₀.postBusy)
  | .action     => some ({ w with pc := .put, c := doAction w.c, acted := w.acted ++ [doAction w.c] }, q₀)
  | .put        => some ({ w with pc := .advance }, q₀.put w.c)
  | .advance    => some ({ w with pc := .postBusy }, q₀.advanceIp p)
  | .postBusy   => some ({ w with pc := .reset }, q₀.postBusy)
  | .reset      => some ({ w with pc := .count, c := 0 }, q₀)
  | .count      => some ({ w with pc := .waitFree, processed := w.processed + 1 }, q₀)
  | .returned   => none

def worker2 (p : Params) (w : Worker2) (q₀ q₁ : Queue) : Option (Worker2 × Queue × Queue) :=
  match w.pc with
  | .waitBusy   => q₀.waitBusy.map fun q₀ => ({ w with pc := .waitFree }, q₀, q₁)
  | .waitFree   => q₁.waitFree.map fun q₁ => ({ w with pc := .get }, q₀, q₁)
  | .get        => some ({ w with pc := .test, c := q₀.front }, q₀.get, q₁)
  | .test       => some ({ w with pc := if w.c.promote p.charSigned < 0 then .putMarker else .action }, q₀, q₁)
  | .putMarker  => some ({ w with pc := .postMarker }, q₀, q₁.put w.c)
  | .postMarker => some ({ w with pc := .returned }, q₀, q₁.postBusy)
  | .action     =>
    some ({ w with pc := .put, c := doAction w.c, acted := w.acted ++ [doAction w.c] }, q₀, q₁)
  | .put        => some ({ w with pc := .advanceIc }, q₀, q₁.put w.c)
  | .advanceIc  => some ({ w with pc := .advanceIp }, q₀.advanceIc p, q₁)
  | .advanceIp  => some ({ w with pc := .postFree }, q₀, q₁.advanceIp p)
  | .postFree   => some ({ w with pc := .postBusy }, q₀.postFree, q₁)
  | .postBusy   => some ({ w with pc := .waitBusy, rounds := w.rounds + 1 }, q₀, q₁.postBusy)
  | .returned   => none

def worker3 (p : Params) (w : Worker3) (q₁ : Queue) : Option (Worker3 × Queue) :=
  match w.pc with
  | .waitBusy => q₁.waitBusy.map fun q₁ => ({ w with pc := .get }, q₁)
  | .get      => some ({ w with pc := .test, c := q₁.front }, q₁.get)
  | .test     => some ({ w with pc := if w.c.promote p.charSigned < 0 then .returned else .action }, q₁)
  | .action   =>
    some ({ w with pc := .advance, c := doAction w.c, acted := w.acted ++ [doAction w.c] }, q₁)
  | .advance  => some ({ w with pc := .postFree }, q₁.advanceIc p)
  | .postFree => some ({ w with pc := .waitBusy, rounds := w.rounds + 1 }, q₁.postFree)
  | .returned => none

inductive Thread
  | worker1 | worker2 | worker3
  deriving DecidableEq

def init (p : Params) : State where
  q₀ := .init p
  q₁ := .init p
  w₁ := { pc := .waitFree, c := 0, processed := 0, acted := [] }
  w₂ := { pc := .waitBusy, c := 0, rounds := 0, acted := [] }
  w₃ := { pc := .waitBusy, c := 0, rounds := 0, acted := [] }

-- The scheduler picks the thread which executes its next statement.
def step (p : Params) (s : State) : Thread → Option State
  | .worker1 => (worker1 p s.w₁ s.q₀).map fun (w, q₀) => { s with w₁ := w, q₀ := q₀ }
  | .worker2 => (worker2 p s.w₂ s.q₀ s.q₁).map fun (w, q₀, q₁) => { s with w₂ := w, q₀ := q₀, q₁ := q₁ }
  | .worker3 => (worker3 p s.w₃ s.q₁).map fun (w, q₁) => { s with w₃ := w, q₁ := q₁ }

def pipeline (p : Params) : System State Thread where
  init := init p
  step := step p

end WorkloadKit.Pipeline
