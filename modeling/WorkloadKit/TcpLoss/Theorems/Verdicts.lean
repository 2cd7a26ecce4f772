import WorkloadKit.Library.First
import WorkloadKit.TcpLoss.State

namespace WorkloadKit.TcpLoss

variable {pkt : Packet} {pkts : List Packet}

-- What `printAndAccept` takes for a TCP packet that has the PSH flag set. As it decodes the header of the
-- packet itself as a TCP header, the flags are the second octet of the source address.
def Packet.srcPsh (pkt : Packet) : Bool :=
  pkt.isTcp && (IP.src pkt.payload).getD 1 0 &&& (1 <<< 3) != 0

def Verdict.ofDrop (drop : Bool) : Verdict :=
  if drop then .drop else .accept

theorem Verdict.ofDrop_injective : Function.Injective ofDrop := by
  unfold Function.Injective
  decide

theorem TCP.flags_payload : TCP.flags pkt.payload = (IP.src pkt.payload).getD 1 0 := by
  simp [TCP.flags, IP.src, List.getD_eq_getElem?_getD]

theorem printAndAccept_true : printAndAccept true pkt = (true, .accept) := by
  simp [printAndAccept]

theorem printAndAccept_false : printAndAccept false pkt = (pkt.srcPsh, .ofDrop pkt.srcPsh) := by
  simp only [printAndAccept, Packet.srcPsh, Packet.isTcp, Packet.getPayload, TCP.flags_payload]
  by_cases hp : IP.proto pkt.payload = 0x06
  case neg => rw [if_neg hp, beq_false_of_ne hp]; rfl
  case pos =>
    rw [if_pos hp, hp]
    cases (IP.src pkt.payload).getD 1 0 &&& (1 <<< 3) != 0 <;> rfl

-- Nothing is dropped after the first packet that is taken for one with the PSH flag.
theorem run_true : run true pkts = pkts.map fun _ => .accept := by
  induction pkts
  case nil     => rfl
  case cons hi => simp only [run, printAndAccept_true, hi, List.map_cons]

theorem run_false : run false pkts = (markFirst Packet.srcPsh pkts).map .ofDrop := by
  induction pkts
  case nil => rfl
  case cons pkt pkts hi =>
    simp only [run, printAndAccept_false]
    cases h : pkt.srcPsh
    case true  => simp [run_true, markFirst_cons_of_pos h, Verdict.ofDrop]
    case false => simp [hi, markFirst_cons_of_neg h]

-- Exactly the first TCP packet with the PSH flag is dropped, if and only if it is the first TCP packet which
-- has the bit of the flag set in the second octet of its source address.
theorem run_eq_iff :
    run false pkts = (markFirst Packet.psh pkts).map .ofDrop ↔
      pkts.findIdx Packet.srcPsh = pkts.findIdx Packet.psh := by
  rw [run_false, List.map_inj_right fun _ _ h => Verdict.ofDrop_injective h, markFirst_eq_iff]

-- A TCP packet with the flags PSH and ACK, which has been sent from 10.0.0.1 to 10.0.0.2.
def pshPacket : Packet where
  payload := [
    0x45, 0x00, 0x00, 0x28, 0x00, 0x00, 0x00, 0x00, 0x40, 0x06, 0x66, 0xce, 10, 0, 0, 1, 10, 0, 0, 2,
    0xc3, 0x50, 0x00, 0x50, 0x00, 0x00, 0x00, 0x01, 0x00, 0x00, 0x00, 0x01, 0x50, 0x18, 0x20, 0x00,
    0xb8, 0x27, 0x00, 0x00]
  version := by decide
  ihl     := by decide
  length  := by decide

theorem not_run_eq : ¬∀ pkts, run false pkts = (markFirst Packet.psh pkts).map .ofDrop := by
  intro h
  exact absurd (h [pshPacket]) (by decide)

end WorkloadKit.TcpLoss
