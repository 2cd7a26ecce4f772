import Mathlib.Algebra.Field.Rat
import WorkloadKit.Library.CString
import WorkloadKit.Utils.Timespec

namespace WorkloadKit.Utils

open CString

-- The fields of `struct profile` that `profile_stats` uses, with `K` in place of `double`. The
-- pointer `data` is `none` when it is `NULL`.
structure Profile (K : Type*) where
  repeats : ℤ
  mean    : K
  sd      : K
  data    : Option (ℕ → Timespec)

variable {K : Type*} [Field K]

namespace Profile

-- The variable `delta` of the iteration `i` of either loop.
def delta (data : ℕ → Timespec) (i : ℕ) : Timespec :=
  timeSub (data (i + 1)) (data i)

-- The variable `total` after `n` iterations of the first loop.
def total (data : ℕ → Timespec) : ℕ → Timespec
  | 0     => { tvSec := 0, tvNsec := 0 }
  | i + 1 => timeAdd (total data i) (delta data i)

-- The field `sd` after `n` iterations of the second loop.
def squares (data : ℕ → Timespec) (mean : K) : ℕ → K
  | 0     => 0
  | i + 1 =>
    let nsec := timespecToDoubleNs K (delta data i)
    let diff := nsec - mean
    squares data mean i + diff * diff

end Profile

-- The number of iterations of the loops is the one of `for (i = 0; i < prof->repeat - 1; i++)`.
def profileStats (sqrt : K → K) (prof : Profile K) : Profile K :=
  match prof.data with
  | none      => prof
  | some data =>
    let n := (prof.repeats - 1).toNat
    let mean := timespecToDoubleNs K (Profile.total data n) / prof.repeats
    { prof with mean, sd := sqrt (Profile.squares data mean n / prof.repeats) }

-- The conversion of a `double` to a `long`, which drops the fraction.
def toLong (x : ℚ) : ℤ :=
  x.num.tdiv x.den

-- A line of the file that `profile_save` writes.
structure Row where
  iter : ℕ
  nsec : ℤ
  deriving DecidableEq

def Row.format (row : Row) : List Char :=
  printd row.iter ++ ";".toList ++ printd row.nsec ++ ";\n".toList

-- The lines after the first one. There are none if `profile_save` is called without any data, as it does
-- not check for this.
def Profile.rows (prof : Profile ℚ) : Option (List Row) :=
  prof.data.map fun data =>
    (List.range (prof.repeats - 1).toNat).map fun i =>
      { iter := i, nsec := toLong <| timespecToDoubleNs ℚ <| delta data i }

-- The content of the file.
def profileSave (prof : Profile ℚ) : Option (List Char) :=
  prof.rows.map fun rows => "iter;nsec;\n".toList ++ rows.flatMap Row.format

end WorkloadKit.Utils
