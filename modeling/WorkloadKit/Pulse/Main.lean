import WorkloadKit.Pulse.State
import WorkloadKit.Spin.State
import WorkloadKit.Utils.Timespec

namespace WorkloadKit.Pulse

open CString Utils

def USEC_PER_SEC : ℤ := 1000000

-- The operations of a run that can go wrong.
inductive Op
  | divide (divisor : ℤ)
  | nanosleep (ts : Timespec)
  | setitimer (usec : ℤ)
  deriving DecidableEq

-- The number of iterations, which is converted from `long` to `int`. If the product is too large for a `long`,
-- then it is taken to wrap around, which makes no difference to the lower bits.
def nrIter (exp : Experiment) : ℤ :=
  toInt <| exp.duration.tdiv USEC_PER_SEC * exp.freq

def period (exp : Experiment) : ℤ :=
  USEC_PER_SEC.tdiv exp.freq

def sync (exp : Experiment) (usec : ℤ) : ℤ :=
  period exp - usec.tmod (period exp)

def sleepTime (exp : Experiment) (usec : ℤ) : Timespec where
  tvSec  := 0
  tvNsec := sync exp usec * 1000

-- The value of `cont` after the call of `spin_init`. The allocations always fail for a negative number of
-- threads, as it is converted to a `size_t`. Otherwise, `alloc` says whether all of them succeed.
def spinInit (alloc : Bool) (exp : Experiment) : Bool :=
  0 ≤ exp.nrThread && alloc

-- Whether a call of `spin_run` with `cont` set returns. It exits if the timer is not accepted, and it waits
-- forever if there are threads but no alarm.
def spinRunReturns (exp : Experiment) : Bool :=
  match Spin.setitimer exp.spin with
  | some alarm => alarm || exp.nrThread ≤ 0
  | none       => false

-- The operations of an iteration, and whether there can be another iteration after it. The value of
-- `tv.tv_usec` is given by `usec`.
def iteration (cont : Bool) (exp : Experiment) (usec : ℤ) : List Op × Bool :=
  if exp.freq = 0 then
    ([.divide exp.freq], false)
  else if period exp = 0 then
    ([.divide exp.freq, .divide <| period exp], false)
  else
    let ops := [.divide exp.freq, .divide <| period exp, .nanosleep <| sleepTime exp usec]
    if cont then (ops ++ [.setitimer exp.spin], spinRunReturns exp) else (ops, true)

-- The operations of the next `k` iterations, the first of which has the index `i`.
def loop (cont : Bool) (exp : Experiment) (clock : ℕ → ℤ) (i : ℕ) : ℕ → List Op
  | 0     => []
  | k + 1 =>
    let (ops, next) := iteration cont exp <| clock i
    if next then ops ++ loop cont exp clock (i + 1) k else ops

-- The operations of `main` after `parse_opts`, together with those of `pulse_pincpu` in the threads.
def mainOps (alloc : Bool) (exp : Experiment) (clock : ℕ → ℤ) : List Op :=
  let cont := spinInit alloc exp
  let pin := if cont then List.replicate exp.nrThread.toNat <| .divide exp.cpuset.nrcpus else []
  .divide USEC_PER_SEC :: pin ++ loop cont exp clock 0 (nrIter exp).toNat

-- The part of a second that `gettimeofday` returns, where the time is given in nanoseconds.
def tvUsec (now : ℤ) : ℤ :=
  now / 1000 % USEC_PER_SEC

-- The time at which `nanosleep` returns. A call with an invalid argument fails at once.
def nanosleep (now : ℤ) (ts : Timespec) : ℤ :=
  if 0 ≤ ts.tvSec ∧ 0 ≤ ts.tvNsec ∧ ts.tvNsec < 1000000000 then
    now + ts.tvSec * 1000000000 + ts.tvNsec
  else
    now

-- The times at which the next `k` bursts start, if only `nanosleep` and `spin_run` take time.
def bursts (exp : Experiment) (now : ℤ) : ℕ → List ℤ
  | 0     => []
  | k + 1 =>
    let start := nanosleep now <| sleepTime exp <| tvUsec now
    start :: bursts exp (start + exp.spin * 1000) k

end WorkloadKit.Pulse
