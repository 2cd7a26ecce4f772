import WorkloadKit.Calibrate.Hog
import WorkloadKit.Library.CInt
import WorkloadKit.Library.ForkJoin

namespace WorkloadKit.Cpm

open Calibrate CInt ForkJoin

inductive Process
  | master | child1 | child2
  deriving DecidableEq

-- A process that forks. It returns if the call fails.
def forkOr {ω : Type} (fork : Bool) (name : Process) (child next : Task Process ω) : Task Process ω :=
  if fork then .fork name child next else .exit

-- The programs call `waitpid(res)` without the status and the options. It is taken to wait until the child
-- exits, as the comments of the source describe.
namespace Cpm1

-- The calls of `do_hog`, in the order of the source.
inductive Hog
  | master | masterJoined | child1 | child1Joined | child2
  deriving DecidableEq

def Hog.niters (unit : ℤ) : Hog → Option ℤ
  | master       => checkLong (4 * unit)
  | masterJoined => some unit
  | child1       => some unit
  | child1Joined => checkLong (2 * unit)
  | child2       => checkLong (2 * unit)

-- How many iterations each call makes.
def Lasts (unit : ℤ) (dur : Hog → ℕ) : Prop :=
  ∀ h, ∃ niters, h.niters unit = some niters ∧ DoHog niters (dur h)

def child2 : Task Process Hog :=
  .work .child2 .exit

-- The parameter says which calls of `fork` succeed, by the process that makes them.
def child1 (fork : Process → Bool) : Task Process Hog :=
  .work .child1 <| forkOr (fork .child1) .child2 child2 <| .wait <| .work .child1Joined .exit

def master (fork : Process → Bool) : Task Process Hog :=
  forkOr (fork .master) .child1 (child1 fork) <| .work .master <| .wait <| .work .masterJoined .exit

end Cpm1

namespace Cpm2

inductive Hog
  | master | child1
  deriving DecidableEq

def Hog.niters (unit : ℤ) : Hog → Option ℤ
  | master => checkLong (2 * unit)
  | child1 => some unit

def Lasts (unit : ℤ) (dur : Hog → ℕ) : Prop :=
  ∀ h, ∃ niters, h.niters unit = some niters ∧ DoHog niters (dur h)

def child1 : Task Process Hog :=
  .work .child1 .exit

def master (fork : Bool) : Task Process Hog :=
  forkOr fork .child1 child1 <| .work .master <| .wait .exit

end Cpm2
end WorkloadKit.Cpm
