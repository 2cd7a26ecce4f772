import Mathlib.Algebra.Ring.Nat
import WorkloadKit.Cpm3.Theorems.Invariant

namespace WorkloadKit.Cpm3

open Finset

variable {size i j k n : ℕ} {s s' : State} {e : Event}

-- The client is about to call `do_recv` with a size that is not zero.
def State.Requests (size : ℕ) (s : State) : Prop :=
  s.recvs.length < 4 * runs ∧ 0 < recvSize size s.recvs.length

theorem doServerRun_sum : (doServerRun size).sum = 2 * size + 2 * (size / 2) := by
  simp only [doServerRun, List.sum_cons, List.sum_nil]
  omega

theorem size_pos (h : 0 < recvSize size j) : 0 < size := by
  by_contra hn
  obtain rfl : size = 0 := by omega
  have hz : ∀ c < 4, (doClientRun 0).getD c 0 = 0 := by decide
  rw [recvSize, hz _ <| Nat.mod_lt j (by decide)] at h
  omega

-- When the client asks for a byte, it has read less than the server sends in its runs up to the same one. So
-- there is a byte on its way, or there is a message that has yet to be sent.
theorem no_starvation (h : (cpm3 size).Reachable s) (hr : s.Requests size) :
    s.recvs.flatten.length < (s.recvs.length / 4 + 1) * (doServerRun size).sum ∧
    (s.stream ≠ [] ∨ ∃ j, s.sends.length ≤ j ∧ j < 4 * (s.recvs.length / 4 + 1) ∧ 0 < sendSize size j) := by
  have h := Inv.reachable h
  have hc := h.consumed_lt hr.right
  constructor
  case left => rwa [doServerRun_sum, ←sum_sendSize]
  case right =>
    by_contra hn
    have ⟨hs, hj⟩ := not_or.mp hn
    have hl : 4 * (s.recvs.length / 4 + 1) ≤ s.sends.length := by
      by_contra hl
      refine hj ⟨4 * (s.recvs.length / 4) + 3, by omega, by omega, ?_⟩
      rw [sendSize_mul_add]
      exact size_pos hr.right
    have := sum_le_sum_of_subset (f := sendSize size) <| range_subset_range.mpr hl
    rw [←h.sent_eq, h.flow, not_not.mp hs, List.append_nil] at this
    omega

-- After the first three messages have been sent and a part of them has been read.
theorem no_starvation_three :
    ∃ s, (cpm3 3).Reachable s ∧ s.Requests 3 ∧
      s.recvs.flatten.length < (s.recvs.length / 4 + 1) * (doServerRun 3).sum := by
  let es : List Event := [.send, .send, .send, .recv 2, .recv 1]
  have he : ((cpm3 3).exec init es).map (·.recvs) = some [[0, 1], [2]] := by decide
  have ⟨s, he, hs⟩ := Option.map_eq_some_iff.mp he
  have hr : s.Requests 3 := by
    rw [State.Requests, hs]
    decide
  exact ⟨s, .of_exec he, hr, (no_starvation (.of_exec he) hr).left⟩

namespace State

-- The bytes of the calls of `do_send` and `do_recv` in a run.
def sendIn (s : State) (k c : ℕ) : List ℕ :=
  s.sends.getD (4 * k + c) []

def recvIn (s : State) (k c : ℕ) : List ℕ :=
  s.recvs.getD (4 * k + c) []

-- The client reads exactly what the server sends in the same run. The first call of `do_recv` returns the
-- first message, the second one returns both half messages, and the other two return the last message.
structure RunMatches (s : State) (k : ℕ) : Prop where
  run    : s.recvIn k 0 ++ s.recvIn k 1 ++ s.recvIn k 2 ++ s.recvIn k 3 =
    s.sendIn k 0 ++ s.sendIn k 1 ++ s.sendIn k 2 ++ s.sendIn k 3
  first  : s.recvIn k 0 = s.sendIn k 0
  second : s.recvIn k 1 = s.sendIn k 1 ++ s.sendIn k 2
  last   : s.recvIn k 2 ++ s.recvIn k 3 = s.sendIn k 3

-- All calls of `recv` in a run return as many bytes as they ask for.
def FullRun (size : ℕ) (s : State) (k : ℕ) : Prop :=
  ∀ c < 4, (s.recvIn k c).length = recvSize size (4 * k + c)

end State

namespace Inv

variable {c : ℕ}

theorem recvIn_eq (h : Inv size s) (k c : ℕ) :
    s.recvIn k c = (s.sends.flatten.drop (offset s.recvs (4 * k + c))).take (s.recvIn k c).length :=
  getD_eq_take_drop h.flow.symm

theorem sendIn_eq (h : Inv size s) (hk : 4 * k + c < s.sends.length) : s.sendIn k c =
    (s.sends.flatten.drop (∑ j ∈ range (4 * k + c), sendSize size j)).take (sendSize size c) := by
  have hl : (s.sendIn k c).length = sendSize size c := (h.sends _ hk).trans <| sendSize_mul_add k c
  have ho : offset s.sends (4 * k + c) = _ := offset_eq_sum fun i hi => h.sends i <| hi.trans hk
  rw [←ho, ←hl]
  exact getD_eq_take_drop <| List.append_nil _

theorem lt_of_sendIn_ne (hn : s.sendIn k c ≠ []) : 4 * k + c < s.sends.length := by
  by_contra hl
  exact hn <| by simp [State.sendIn, Nat.le_of_not_lt hl]

section

variable (hf : ∀ k' ≤ k, s.FullRun size k')
include hf

theorem length_of_full (hi : i < 4 * (k + 1)) : (s.recvs.getD i []).length = recvSize size i := by
  have h := hf (i / 4) (by omega) (i % 4) (by omega)
  rwa [State.recvIn, Nat.div_add_mod] at h

theorem offset_of_full (hj : j ≤ 4 * (k + 1)) : offset s.recvs j = ∑ i ∈ range j, recvSize size i :=
  offset_eq_sum fun _ hi => length_of_full hf <| hi.trans_le hj

-- The client has only read the bytes of a whole run if the server has sent them.
theorem le_sends_of_full (h : Inv size s) (hs : 0 < size) : 4 * (k + 1) ≤ s.sends.length := by
  by_contra hl
  have hlt :=
    calc ∑ j ∈ range s.sends.length, sendSize size j
      _ ≤ ∑ j ∈ range (4 * k + 3), sendSize size j :=
        sum_le_sum_of_subset <| range_subset_range.mpr <| by omega
      _ < ∑ j ∈ range (4 * (k + 1)), sendSize size j := by
        rw [Nat.mul_succ, sum_range_succ _ (4 * k + 3), sendSize_mul_add]
        exact Nat.lt_add_of_pos_right hs
      _ = offset s.recvs (4 * (k + 1)) := by rw [offset_of_full hf le_rfl, sum_sendSize, sum_recvSize]
      _ ≤ s.recvs.flatten.length := offset_le_length
  have := congrArg List.length h.flow
  rw [List.length_append] at this
  rw [←h.sent_eq] at hlt
  omega

theorem runMatches_of_full (h : Inv size s) (hs : 0 < size) (he : size % 2 = 0) :
    s.RunMatches k := by
  have hl := le_sends_of_full hf h hs
  let o := ∑ j ∈ range (4 * k), sendSize size j
  let half := size / 2
  have hh : size = half + half := by omega
  have hr (c : ℕ) (hc : c < 4) : s.recvIn k c =
      (s.sends.flatten.drop (o + ∑ j ∈ range c, recvSize size j)).take (recvSize size c) := by
    have := h.recvIn_eq k c
    rwa [offset_of_full hf (by omega), hf k le_rfl c hc, recvSize_mul_add, sum_recvSize_add, sum_recvSize,
      ←sum_sendSize] at this
  have hw (c : ℕ) (hc : c < 4) : s.sendIn k c =
      (s.sends.flatten.drop (o + ∑ j ∈ range c, sendSize size j)).take (sendSize size c) := by
    rw [h.sendIn_eq (by omega), sum_sendSize_add]
  have hr₀ : s.recvIn k 0 = (s.sends.flatten.drop o).take size := hr 0 (by decide)
  have hr₁ : s.recvIn k 1 = (s.sends.flatten.drop (o + size)).take size := hr 1 (by decide)
  have hr₂ : s.recvIn k 2 = (s.sends.flatten.drop (o + (size + size))).take half := by
    simpa [sum_range_succ, recvSize, doClientRun] using hr 2 (by decide)
  have hr₃ : s.recvIn k 3 = (s.sends.flatten.drop (o + (size + size) + half)).take half := by
    simpa [sum_range_succ, recvSize, doClientRun, Nat.add_assoc] using hr 3 (by decide)
  have hw₀ : s.sendIn k 0 = (s.sends.flatten.drop o).take size := hw 0 (by decide)
  have hw₁ : s.sendIn k 1 = (s.sends.flatten.drop (o + size)).take half := hw 1 (by decide)
  have hw₂ : s.sendIn k 2 = (s.sends.flatten.drop (o + size + half)).take half := by
    simpa [sum_range_succ, sendSize, doServerRun, Nat.add_assoc] using hw 2 (by decide)
  have hw₃ : s.sendIn k 3 = (s.sends.flatten.drop (o + (size + size))).take size := by
    have := hw 3 (by decide)
    rw [show ∑ j ∈ range 3, sendSize size j = size + size by
      simp only [sum_range_succ, sendSize, doServerRun]; simp; omega] at this
    exact this
  have hfirst : s.recvIn k 0 = s.sendIn k 0 := hr₀.trans hw₀.symm
  have hsecond : s.recvIn k 1 = s.sendIn k 1 ++ s.sendIn k 2 := by
    rw [hr₁, hw₁, hw₂, take_drop_append, ←hh]
  have hlast : s.recvIn k 2 ++ s.recvIn k 3 = s.sendIn k 3 := by
    rw [hr₂, hr₃, hw₃, take_drop_append, ←hh]
  refine ⟨?_, hfirst, hsecond, hlast⟩
  rw [hfirst, hsecond, List.append_assoc _ (s.recvIn k 2), hlast]
  simp

end

-- If a run matches, then the last two calls of `recv` have returned two halves of a whole message.
theorem full_of_runMatches (h : Inv size s) (hs : 2 ≤ size) (hk : 4 * (k + 1) ≤ s.recvs.length)
    (hm : s.RunMatches k) : s.FullRun size k ∧ size % 2 = 0 := by
  have hle (c : ℕ) (hc : c < 4) : (s.recvIn k c).length ≤ recvSize size c :=
    (h.recvs (4 * k + c) (by omega)).trans_eq <| recvSize_mul_add k c
  have hpos : 0 < (s.recvIn k 2).length := by
    refine h.pos (4 * k + 2) (by omega) ?_
    rw [recvSize_mul_add]
    exact Nat.div_pos hs (by decide)
  have hlast := congrArg List.length hm.last
  rw [List.length_append] at hlast
  have hl : 4 * k + 3 < s.sends.length := lt_of_sendIn_ne <| List.ne_nil_of_length_pos <| by omega
  have hw (c : ℕ) (hc : c < 4) : (s.sendIn k c).length = sendSize size c :=
    (h.sends (4 * k + c) (by omega)).trans <| sendSize_mul_add k c
  have h₀ : (s.recvIn k 0).length = size := hm.first ▸ hw 0 (by decide)
  have h₁ : (s.recvIn k 1).length = size / 2 + size / 2 := by
    rw [hm.second, List.length_append, hw 1 (by decide), hw 2 (by decide)]
    rfl
  have h₂ : (s.recvIn k 2).length ≤ size / 2 := hle 2 (by decide)
  have h₃ : (s.recvIn k 3).length ≤ size / 2 := hle 3 (by decide)
  have hw₃ : (s.sendIn k 3).length = size := hw 3 (by decide)
  refine ⟨fun c hc => ?_, by omega⟩
  rw [recvSize_mul_add]
  match c with
  | 0 => exact h₀
  | 1 => exact h₁.trans (by change _ = size; omega)
  | 2 => change _ = size / 2; omega
  | 3 => change _ = size / 2; omega

end Inv

-- In the runs that the client has completed so far the phases match those of the server if and only if each
-- call of `recv` has returned all bytes that it asked for and the two halves make up a whole message.
theorem runMatches_iff (hs : 2 ≤ size) (h : (cpm3 size).Reachable s) :
    (∀ k, 4 * (k + 1) ≤ s.recvs.length → s.RunMatches k) ↔
      ∀ k, 4 * (k + 1) ≤ s.recvs.length → s.FullRun size k ∧ size % 2 = 0 := by
  have h := Inv.reachable h
  constructor
  case mp  => exact fun hm k hk => h.full_of_runMatches hs hk <| hm k hk
  case mpr =>
    intro hf k hk
    have hf' : ∀ k' ≤ k, s.FullRun size k' := fun k' hk' => (hf k' <| by omega).left
    exact Inv.runMatches_of_full hf' h (by omega) (hf k hk).right

theorem runMatches_two :
    ∃ s, (cpm3 2).Reachable s ∧ s.recvs.length = 4 ∧
      ∀ k, 4 * (k + 1) ≤ s.recvs.length → s.RunMatches k := by
  let es : List Event := [.send, .send, .send, .recv 2, .recv 2, .send, .recv 1, .recv 1]
  have he : ((cpm3 2).exec init es).map (·.recvs) = some [[0, 1], [2, 3], [4], [5]] := by decide
  obtain ⟨s, he, hr⟩ := Option.map_eq_some_iff.mp he
  refine ⟨s, .of_exec he, by rw [hr]; rfl, (runMatches_iff (by decide) (.of_exec he)).mpr fun k hk => ?_⟩
  obtain rfl : k = 0 := by
    rw [hr] at hk
    simp at hk
    omega
  refine ⟨fun c hc => ?_, rfl⟩
  rw [State.recvIn, hr]
  obtain rfl | rfl | rfl | rfl : c = 0 ∨ c = 1 ∨ c = 2 ∨ c = 3 := by omega
  all_goals rfl

-- The first call of `recv` only returns one of the two bytes that it asks for.
theorem not_runMatches :
    ¬∀ size s k, 2 ≤ size → (cpm3 size).Reachable s → 4 * (k + 1) ≤ s.recvs.length → s.RunMatches k := by
  intro h
  let es : List Event := [.send, .send, .send, .send, .recv 1, .recv 2, .recv 1, .recv 1]
  have he : ((cpm3 2).exec init es).map (·.recvs) = some [[0], [1, 2], [3], [4]] := by decide
  have ⟨s, he, hr⟩ := Option.map_eq_some_iff.mp he
  have hl : 4 * (0 + 1) ≤ s.recvs.length := by
    rw [hr]
    decide
  have hm := h 2 s 0 (by decide) (.of_exec he) hl
  have := ((Inv.reachable <| .of_exec he).full_of_runMatches (by decide) hl hm).left 0 (by decide)
  rw [State.recvIn, hr] at this
  contradiction

end WorkloadKit.Cpm3
