import WorkloadKit.Cpm3.State
import WorkloadKit.Library.Pieces

namespace WorkloadKit.Cpm3

open Finset

variable {size i j k n : ℕ} {s s' : State} {e : Event}

-- Each run makes the same calls.
theorem sendSize_mul_add (k c : ℕ) : sendSize size (4 * k + c) = sendSize size c := by
  rw [sendSize, sendSize, Nat.mul_add_mod]

theorem recvSize_mul_add (k c : ℕ) : recvSize size (4 * k + c) = recvSize size c := by
  rw [recvSize, recvSize, Nat.mul_add_mod]

theorem sum_run (f : ℕ → ℕ) (k : ℕ) : ∑ j ∈ range (4 * (k + 1)), f j =
    ∑ j ∈ range (4 * k), f j + (f (4 * k + 0) + f (4 * k + 1) + f (4 * k + 2) + f (4 * k + 3)) := by
  rw [Nat.mul_succ, sum_range_succ, sum_range_succ, sum_range_succ, sum_range_succ]
  simp only [Nat.add_assoc, Nat.add_zero]

-- The bytes that all calls in the first `k` runs send or ask for.
theorem sum_sendSize : ∑ j ∈ range (4 * k), sendSize size j = k * (2 * size + 2 * (size / 2)) := by
  induction k
  case zero      => simp
  case succ k hi =>
    rw [sum_run, hi, Nat.succ_mul k]
    simp only [sendSize_mul_add]
    change _ + (size + size / 2 + size / 2 + size) = _
    omega

theorem sum_recvSize : ∑ j ∈ range (4 * k), recvSize size j = k * (2 * size + 2 * (size / 2)) := by
  induction k
  case zero      => simp
  case succ k hi =>
    rw [sum_run, hi, Nat.succ_mul k]
    simp only [recvSize_mul_add]
    change _ + (size + size + size / 2 + size / 2) = _
    omega

-- The bytes of the first `c` calls of a run come after those of the runs before it.
theorem sum_sendSize_add (k c : ℕ) : ∑ j ∈ range (4 * k + c), sendSize size j =
    ∑ j ∈ range (4 * k), sendSize size j + ∑ j ∈ range c, sendSize size j := by
  rw [sum_range_add]
  simp only [sendSize_mul_add]

theorem sum_recvSize_add (k c : ℕ) : ∑ j ∈ range (4 * k + c), recvSize size j =
    ∑ j ∈ range (4 * k), recvSize size j + ∑ j ∈ range c, recvSize size j := by
  rw [sum_range_add]
  simp only [recvSize_mul_add]

structure Inv (size : ℕ) (s : State) : Prop where
  flow     : s.sends.flatten = s.recvs.flatten ++ s.stream
  sends_le : s.sends.length ≤ 4 * runs
  sends    : ∀ j < s.sends.length, (s.sends.getD j []).length = sendSize size j
  recvs_le : s.recvs.length ≤ 4 * runs
  recvs    : ∀ j < s.recvs.length, (s.recvs.getD j []).length ≤ recvSize size j
  pos      : ∀ j < s.recvs.length, 0 < recvSize size j → 0 < (s.recvs.getD j []).length

namespace Inv

theorem init : Inv size init where
  flow     := rfl
  sends_le := Nat.zero_le _
  sends    := nofun
  recvs_le := Nat.zero_le _
  recvs    := nofun
  pos      := nofun

-- Before a call that asks for a byte, the client has read less than the server sends up to the same run.
theorem consumed_lt (h : Inv size s) (hr : 0 < recvSize size s.recvs.length) :
    s.recvs.flatten.length < ∑ j ∈ range (4 * (s.recvs.length / 4 + 1)), sendSize size j :=
  calc s.recvs.flatten.length
    _ = offset s.recvs s.recvs.length := offset_length.symm
    _ ≤ ∑ j ∈ range s.recvs.length, recvSize size j := offset_le_sum h.recvs
    _ < ∑ j ∈ range (s.recvs.length + 1), recvSize size j := by rw [sum_range_succ]; omega
    _ ≤ ∑ j ∈ range (4 * (s.recvs.length / 4 + 1)), recvSize size j :=
      sum_le_sum_of_subset <| range_subset_range.mpr <| by omega
    _ = ∑ j ∈ range (4 * (s.recvs.length / 4 + 1)), sendSize size j := by rw [sum_recvSize, sum_sendSize]

theorem sent_eq (h : Inv size s) :
    s.sends.flatten.length = ∑ j ∈ range s.sends.length, sendSize size j := by
  rw [←offset_length, offset_eq_sum h.sends]

theorem sent_of_finished (h : Inv size s) (hf : 4 * runs ≤ s.sends.length) :
    s.sends.flatten.length = ∑ j ∈ range (4 * runs), sendSize size j := by
  rw [h.sent_eq, h.sends_le.antisymm hf]

-- The client does not get to the end of the stream.
theorem not_ended (h : Inv size s) (hl : s.recvs.length < 4 * runs)
    (hr : 0 < recvSize size s.recvs.length) : ¬(s.stream = [] ∧ 4 * runs ≤ s.sends.length) := by
  rintro ⟨hs, hf⟩
  have hc := h.consumed_lt hr
  have hm : s.recvs.length / 4 + 1 ≤ runs := by omega
  have := sum_le_sum_of_subset (f := sendSize size) <| range_subset_range.mpr <| Nat.mul_le_mul_left 4 hm
  rw [←h.sent_of_finished hf, h.flow, hs, List.append_nil] at this
  omega

theorem send (h : Inv size s) (he : doSend size s = some s') : Inv size s' := by
  simp only [doSend, Option.ite_none_right_eq_some, Option.some.injEq] at he
  obtain ⟨hl, rfl⟩ := he
  exact {
    flow     := by simp [h.flow]
    sends_le := by simpa using Nat.succ_le_of_lt hl
    sends    := forall_getD_append (P := fun j l => l.length = sendSize size j) h.sends List.length_range'
    recvs_le := h.recvs_le
    recvs    := h.recvs
    pos      := h.pos }

theorem recv (h : Inv size s) (he : doRecv size s n = some s') : Inv size s' := by
  simp only [doRecv, Option.ite_none_right_eq_some, Option.some.injEq] at he
  obtain ⟨⟨hl, hn, hs, hz⟩, rfl⟩ := he
  have hb : (s.stream.take n).length = n := List.length_take_of_le hs
  have hp (hr : 0 < recvSize size s.recvs.length) : 0 < n :=
    Nat.pos_of_ne_zero fun hn => (hz hn).elim hr.ne' (h.not_ended hl hr)
  exact {
    flow     := by simp [h.flow]
    sends_le := h.sends_le
    sends    := h.sends
    recvs_le := by simpa using Nat.succ_le_of_lt hl
    recvs    := forall_getD_append (P := fun j l => l.length ≤ recvSize size j) h.recvs <| hb.trans_le hn
    pos      := forall_getD_append (P := fun j l => 0 < recvSize size j → 0 < l.length) h.pos fun hr =>
      (hp hr).trans_eq hb.symm }

theorem step (h : Inv size s) (he : step size s e = some s') : Inv size s' := by
  cases e
  case send => exact h.send he
  case recv => exact h.recv he

theorem reachable (h : (cpm3 size).Reachable s) : Inv size s :=
  h.invariant init fun h _ he => h.step he

end Inv
end WorkloadKit.Cpm3
