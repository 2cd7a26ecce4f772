import Mathlib.Data.Int.Notation
import Mathlib.Data.Nat.Notation

namespace WorkloadKit.IoBurst

-- How a call of `do_io` ends. The function `throw` of the library prints a message and exits.
inductive Outcome
  | returned (ret : ℤ) | exited
  deriving DecidableEq

-- The next `k` iterations of the loop, the first of which has the index `i`. The parameter gives the result of
-- each call of `write`, which is the number of bytes that it appends to the file unless it is negative.
def ioLoop (write : ℕ → ℤ) (buf : List UInt8) (i : ℕ) (file : List UInt8) : ℕ → Outcome × List UInt8
  | 0     => (.returned 0, file)
  | k + 1 =>
    if write i < 0 then
      (.exited, file)
    else
      ioLoop write buf (i + 1) (file ++ buf.take (write i).toNat) k

-- The result, and the contents of the file, which is empty at first. The parameter `calloc` says whether the
-- allocation succeeds.
def doIo (calloc : Bool) (write : ℕ → ℤ) (size count : ℤ) : Outcome × List UInt8 :=
  if calloc then ioLoop write (List.replicate size.toNat 0) 0 [] count.toNat else (.returned (-1), [])

end WorkloadKit.IoBurst
