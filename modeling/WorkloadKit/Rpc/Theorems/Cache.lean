import WorkloadKit.Rpc.Cache

namespace WorkloadKit.Rpc

variable {file : File} {info : BitVec 32} {calibrated count : BitVec 64} {bytes : List Byte}
variable {calls : List (BitVec 32 × BitVec 64)}

-- The positive count that a regular file holds.
def File.stored : File → Option (BitVec 64)
  | regular bytes => if 8 ≤ bytes.length ∧ ofLe64 bytes ≠ 0 then some (ofLe64 bytes) else none
  | _             => none

end WorkloadKit.Rpc
