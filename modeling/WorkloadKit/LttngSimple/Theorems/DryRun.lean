import WorkloadKit.LttngSimple.Theorems.Cleanup
import WorkloadKit.LttngSimple.Theorems.Issued

namespace WorkloadKit.LttngSimple

open Script

variable {ω : Type} {sys : Sys ω} {opts : Options} {x : ω}

-- The output directory does not exist yet.
def fresh : Sys Bool where
  environ    := fun _ => none
  uuid4      := fun _ => "0"
  call       := fun _ _ x => (.ok 0, x)
  pathExists := fun _ x => x
  isdir      := fun _ _ => false
  isfile     := fun _ _ => false
  listdir    := fun _ _ => .ok []
  makedirs   := fun _ _ => (.ok (), true)
  rmtree     := fun _ x => (.ok (), x)

end WorkloadKit.LttngSimple
