import WorkloadKit.Utils.Timespec

namespace WorkloadKit.Utils

-- The value that `do_sleep` computes for `nanosleep`.
def sleepTime (mili : ℤ) : Timespec where
  tvSec  := mili.tdiv 1000
  tvNsec := mili.tmod 1000 * 1000000

-- The value that is passed to `nanosleep`, if it is called at all.
def sleepRequest (mili : ℤ) : Option Timespec :=
  if mili = 0 then none else some <| sleepTime mili

-- The parameter says whether a call of `nanosleep` succeeds.
def doSleep (nanosleep : Timespec → Bool) (mili : ℤ) : ℤ :=
  match sleepRequest mili with
  | none   => 0
  | some t => if nanosleep t then 0 else -1

end WorkloadKit.Utils
