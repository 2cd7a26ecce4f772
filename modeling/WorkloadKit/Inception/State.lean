import WorkloadKit.Library.CInt
import WorkloadKit.Utils.Sleep

namespace WorkloadKit.Inception

open CInt Utils

-- Which calls succeed, by the depth of the process that makes them.
structure Sys where
  nanosleep : ℕ → Timespec → Bool
  fork      : ℕ → Bool

-- A process of the chain, with what it has passed to `nanosleep`, if it has called it.
structure Process where
  request : Option Timespec

-- The rest of a process after it has slept. The parameter `run` is the call of `do_run` in the child, which
-- has a copy of the two variables. The result are the processes that come into being.
def spawnChild (sys : Sys) (depth : ℕ) (mili children : ℤ) (run : ℤ → ℤ → Option (List Process)) :
    Option (List Process) :=
  let children := wrap <| children - 1
  let mili := wrap <| mili * 2
  if children = 0 then
    some []
  else if sys.fork depth then
    run mili children
  else
    some []

-- The process at the given depth of the chain and those after it, as far as the fuel goes.
def doRun (sys : Sys) : (fuel depth : ℕ) → (mili children : ℤ) → Option (List Process)
  | 0,        _,     _,    _        => none
  | fuel + 1, depth, mili, children =>
    let self : Process := { request := sleepRequest mili }
    if doSleep (sys.nanosleep depth) mili < 0 then
      some [self]
    else
      (spawnChild sys depth mili children <| doRun sys fuel (depth + 1)).map (self :: ·)

end WorkloadKit.Inception
