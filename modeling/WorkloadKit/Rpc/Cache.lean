import WorkloadKit.Library.Bytes
import WorkloadKit.Library.CInt

-- The calibration of the client, which is kept in a file.
namespace WorkloadKit.Rpc

-- The part of `st_mode` that is the type of a file.
def S_IFMT : BitVec 32 := 0xf000
def S_IFREG : BitVec 32 := 0x8000

def S_ISREG (mode : BitVec 32) : Bool :=
  mode &&& S_IFMT = S_IFREG

-- What is found at a path. A file that is not a regular one has some other mode, and can be opened for writing
-- or not.
inductive File
  | absent
  | regular (bytes : List Byte)
  | other (mode : BitVec 32) (writable : Bool) (notReg : S_ISREG mode = false)

namespace File

end File

end WorkloadKit.Rpc
