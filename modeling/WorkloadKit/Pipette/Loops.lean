import WorkloadKit.Library.CChar
import WorkloadKit.Library.CInt
import WorkloadKit.Library.CString
import WorkloadKit.Pipette.State

namespace WorkloadKit.Pipette

open CInt CString

-- The fields that the options set. As `main` clears the structure, they are 0 at first.
structure Vars where
  delayProd : ℤ
  delayCons : ℤ
  size      : ℤ
  count     : ℤ
  rrobin    : Bool

-- What `getopt_long` returns for the options of `parse_opts`. Anything else is `unknown`.
inductive Opt
  | help | verbose | rrobin | unknown
  | size (optarg : List Char)
  | count (optarg : List Char)
  | delayProd (optarg : List Char)
  | delayCons (optarg : List Char)

def DEFAULT_BLOCK_SIZE : ℤ := 4096
def DEFAULT_BLOCK_COUNT : ℤ := 1

-- The result is `none` if `usage` ends the program.
def parseOpt (vars : Vars) : Opt → Option Vars
  | .size optarg      => some { vars with size := atoi optarg }
  | .count optarg     => some { vars with count := atoi optarg }
  | .delayProd optarg => some { vars with delayProd := atoi optarg }
  | .delayCons optarg => some { vars with delayCons := atoi optarg }
  | .rrobin           => some { vars with rrobin := true }
  | .verbose          => some vars
  | .help             => none
  | .unknown          => none

def Vars.init : Vars where
  delayProd := 0
  delayCons := 0
  size      := 0
  count     := 0
  rrobin    := false

def Vars.withDefaults (vars : Vars) : Vars :=
  { vars with
    size  := if vars.size = 0 then DEFAULT_BLOCK_SIZE else vars.size
    count := if vars.count = 0 then DEFAULT_BLOCK_COUNT else vars.count }

-- The conditions of the calls of `ARG_CHECK`, any of which ends the program.
def Vars.Rejected (vars : Vars) : Prop :=
  vars.delayProd < 0 ∨ vars.delayCons < 0 ∨ vars.size < 0 ∨ vars.count < 0 ∨
    wrap (vars.size * vars.count) > INT_MAX

instance : DecidablePred Vars.Rejected :=
  fun _ => inferInstanceAs <| Decidable (_ ∨ _ ∨ _ ∨ _ ∨ _)

def parseOpts (opts : List Opt) : Option Vars := do
  let vars ← opts.foldlM parseOpt .init
  let vars := vars.withDefaults
  if vars.Rejected then none else some vars

-- The loop of `do_transfer` from its call of `f` with the index `k` on, as far as the fuel goes. The call
-- asks for `chunk size c.len` bytes, and it returns `results k`.
def transferLoop (results : ℕ → ℤ) (size : ℕ) : (fuel k : ℕ) → Child → Option (ℤ × Child)
  | 0,        _, _ => none
  | fuel + 1, k, c =>
    if c.len < size then
      if results k < 0 then
        some (-1, c)
      else
        transferLoop results size fuel (k + 1) <| c.advance (results k).toNat
    else
      some (c.len, c)

def doTransfer (results : ℕ → ℤ) (size fuel : ℕ) (c : Child) : Option (ℤ × Child) :=
  transferLoop results size fuel 0 c.startTransfer

-- The values that `sum` has while the consumer adds the chars of a block to it.
def partialSums (signed : Bool) (sum : ℤ) : List Byte → List ℤ
  | []       => [sum]
  | c :: buf => sum :: partialSums signed (sum + CChar.promote signed c) buf

-- The value of `sum` after the loop over a block.
def blockSum (signed : Bool) (buf : List Byte) : ℤ :=
  buf.foldl (fun sum c => wrap <| sum + CChar.promote signed c) 0

def READ : ℕ := 0
def WRITE : ℕ := 1

-- The values of the `int` expressions that a child with the given id evaluates in its loop and in the one of
-- `do_transfer`. The sum of the id and the turn is the one of `do_sleep_rrobin`.
def Child.ints (p : Params) (id : ℕ) (c : Child) : List ℤ :=
  match c.pc with
  | .test     => c.i :: if c.i < p.count then [c.i + id] else []
  | .transfer =>
    if c.len < p.size then [c.len, p.size - c.len, chunk p.size c.len] else [c.len, c.i + 1]
  | _         => []

-- The values of those that the consumer evaluates for a block after the call of `do_transfer`.
def Child.checkInts (p : Params) (signed : Bool) (c : Child) : List ℤ :=
  if c.pc = .transfer ∧ ¬c.len < p.size then
    (c.i * p.size : ℤ) :: (List.range (p.size + 1)).map Nat.cast ++ partialSums signed 0 c.buf
  else
    []

def State.ints (p : Params) (signed : Bool) (s : State) : List ℤ :=
  s.producer.ints p WRITE ++ s.consumer.ints p READ ++ s.consumer.checkInts p signed

-- The arguments of the two children.
def Vars.params (vars : Vars) (capacity : ℕ) : Params where
  size     := vars.size.toNat
  count    := vars.count.toNat
  capacity := capacity

end WorkloadKit.Pipette
