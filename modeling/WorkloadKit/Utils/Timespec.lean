import Mathlib.Algebra.Field.Defs
import Mathlib.Data.Int.Cast.Defs

namespace WorkloadKit.Utils

@[ext]
structure Timespec where
  tvSec  : ℤ
  tvNsec : ℤ
  deriving DecidableEq

-- Computes the time difference `x - y`.
def timeSub (x y : Timespec) : Timespec :=
  let res : Timespec := { tvSec := x.tvSec - y.tvSec, tvNsec := x.tvNsec - y.tvNsec }
  if x.tvNsec < y.tvNsec then
    { tvSec := res.tvSec - 1, tvNsec := res.tvNsec + 1000000000 }
  else
    res

-- The value of `x` after the call.
def timeAdd (x y : Timespec) : Timespec :=
  let x : Timespec := { tvSec := x.tvSec + y.tvSec, tvNsec := x.tvNsec + y.tvNsec }
  if x.tvNsec ≥ 1000000000 then
    { tvSec := x.tvSec + 1, tvNsec := x.tvNsec - 1000000000 }
  else
    x

-- The type of the result takes the place of `double`.
def timespecToDoubleNs (K : Type*) [Field K] (t : Timespec) : K :=
  let sec : K := t.tvSec * 1000000000
  let nsec : K := t.tvNsec
  sec + nsec

end WorkloadKit.Utils
