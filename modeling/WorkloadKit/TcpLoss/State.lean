import WorkloadKit.Library.Bytes

namespace WorkloadKit.TcpLoss

-- The fields that a header has if it starts with the first of the given bytes.
namespace IP

def version (bytes : List Byte) : ℕ :=
  (bytes.getD 0 0).toNat / 16

def ihl (bytes : List Byte) : ℕ :=
  (bytes.getD 0 0).toNat % 16

def proto (bytes : List Byte) : Byte :=
  bytes.getD 9 0

def src (bytes : List Byte) : List Byte :=
  (bytes.drop 12).take 4

end IP

def TCP.flags (bytes : List Byte) : Byte :=
  bytes.getD 13 0

-- A packet of the queue, which starts with a well-formed header.
structure Packet where
  payload : List Byte
  version : IP.version payload = 4
  ihl     : 5 ≤ IP.ihl payload
  length  : 4 * IP.ihl payload ≤ payload.length

namespace Packet

def getPayload (pkt : Packet) : List Byte :=
  pkt.payload

def isTcp (pkt : Packet) : Bool :=
  IP.proto pkt.payload == 0x06

-- The bytes behind the header of the packet.
def body (pkt : Packet) : List Byte :=
  pkt.payload.drop (4 * IP.ihl pkt.payload)

-- Whether the packet is a TCP packet that has the PSH flag set in its TCP header.
def psh (pkt : Packet) : Bool :=
  pkt.isTcp && TCP.flags pkt.body &&& (1 <<< 3) != 0

end Packet

inductive Verdict
  | drop | accept
  deriving DecidableEq

-- The variable `found` before and after a packet, and the verdict on the packet. The messages that are
-- printed do not depend on anything else.
def printAndAccept (found : Bool) (pkt : Packet) : Bool × Verdict :=
  if IP.proto pkt.getPayload = 0x06 then
    let flags := TCP.flags pkt.getPayload
    let psh := flags &&& (1 <<< 3) != 0
    if psh && !found then
      (true, .drop)
    else
      (found, .accept)
  else
    (found, .accept)

-- The queue calls `printAndAccept` for one packet after the other.
def run (found : Bool) : List Packet → List Verdict
  | []          => []
  | pkt :: pkts =>
    let (found, verdict) := printAndAccept found pkt
    verdict :: run found pkts

end WorkloadKit.TcpLoss
