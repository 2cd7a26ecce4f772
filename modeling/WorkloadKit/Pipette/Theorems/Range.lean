import WorkloadKit.Pipette.Theorems.EarlyExit
import WorkloadKit.Pipette.Theorems.SelfCheck

namespace WorkloadKit.Pipette

open CInt

variable {p : Params} {s s' : State} {e : Event} {vars : Vars} {opts : List Opt} {signed : Bool}
  {id n : ℕ} {a : ℤ}

-- No child has returned an error.
def State.Sound (s : State) : Prop :=
  (∀ ret, s.producer.pc = .exited ret → ret = 0) ∧ ∀ ret, s.consumer.pc = .exited ret → ret = 0

theorem read_pos (hm : s.MainInv) (he : read p s n = some s') : 1 ≤ n := by
  simp only [read, Option.ite_none_right_eq_some] at he
  obtain ⟨⟨hc, _, _, hz⟩, _⟩ := he
  refine Nat.one_le_iff_ne_zero.mpr fun hn => (hz hn).right <| .inl fun hx => ?_
  rw [State.MainInv, hx] at hm
  exact hc.not_exited hm.right

theorem State.Sound.of_step (hm : s.MainInv) (he : step p s e = some s') (h : s'.Sound) :
    s.Sound ∧ Succeeds s e := by
  have ⟨hp, hc⟩ := exited_step hm he
  have hs : s.Sound := by
    constructor
    · exact fun ret hr => h.left ret <| by rw [hp <| by simp [hr, Child.Pc.Exited], hr]
    · exact fun ret hr => h.right ret <| by rw [hc <| by simp [hr, Child.Pc.Exited], hr]
  refine ⟨hs, ?_⟩
  cases e
  case read n => exact read_pos hm he
  case failProducer =>
    simp only [step, failProducer, Option.ite_none_right_eq_some, Option.some.injEq] at he
    obtain ⟨_, rfl⟩ := he
    exact absurd (h.left _ rfl) (by decide)
  case failConsumer =>
    simp only [step, failConsumer, Option.ite_none_right_eq_some, Option.some.injEq] at he
    obtain ⟨_, rfl⟩ := he
    exact absurd (h.right _ rfl) (by decide)
  all_goals trivial

-- As failures are final, nothing has failed before a state in which no child has returned an error.
theorem State.Sound.reachable (hr : (pipette p).Reachable s) (h : s.Sound) :
    (pipette p).ReachableUnder Succeeds s := by
  induction hr
  case init => exact .init
  case step hr _ he hi =>
    have ⟨_, hf⟩ := Flow.reachable hr
    have ⟨hs, hc⟩ := h.of_step hf.main he
    exact .step (hi hs) hc he

-- A block is intact as soon as the consumer has received all of it.
theorem buf_eq_block (hr : (pipette p).Reachable s) (hs : 0 < p.size) (hp : s.consumer.pc = .transfer)
    (hl : ¬s.consumer.len < p.size) : s.consumer.buf = block p s.consumer.i := by
  have ⟨k, hf⟩ := Flow.reachable hr
  have hk := hf.read <| by simp [hp]
  have hpos : s.consumer.pos p = s.consumer.i * p.size + s.consumer.len := by simp [Child.pos, hp]
  have h : s.Sound := by
    refine ⟨fun ret hx => ?_, by simp [hp]⟩
    by_contra hn
    have hi := hf.failed ret hx
    rw [if_neg hn] at hi
    have hb := hf.pipe
    simp only [Child.pos, hx, hi] at hb
    omega
  have hc := (Inv.reachable <| h.reachable hr).consumer
  have hlen := hc.len_le.antisymm <| not_lt.mp hl
  have hb := hc.filled hp
  rw [hlen, ←hc.buf (.inr hp), List.take_length, hc.buf (.inr hp)] at hb
  rw [hb]
  exact segment_stream (k := 0) (by omega)

theorem mem_partialSums {c : Byte} {x : ℤ} (h : x ∈ partialSums signed a (List.replicate n c)) :
    ∃ j ≤ n, x = a + j * CChar.promote signed c := by
  induction n generalizing a
  case zero =>
    rw [List.replicate_zero, partialSums, List.mem_singleton] at h
    exact ⟨0, le_rfl, by simp [h]⟩
  case succ n hi =>
    rw [List.replicate_succ, partialSums, List.mem_cons] at h
    rcases h with rfl | h
    · exact ⟨0, Nat.zero_le _, by simp⟩
    · have ⟨j, hj, hx⟩ := hi h
      refine ⟨j + 1, Nat.succ_le_succ hj, ?_⟩
      rw [hx]
      push_cast
      ring

-- The arguments of the children are positive, and the program transfers at most `INT_MAX` bytes.
structure Fits (p : Params) : Prop where
  size  : 0 < p.size
  count : 0 < p.count
  total : (p.size * p.count : ℤ) ≤ INT_MAX

namespace Fits

theorem size_le (h : Fits p) : (p.size : ℤ) ≤ INT_MAX :=
  le_trans (by exact_mod_cast Nat.le_mul_of_pos_right _ h.count) h.total

theorem count_le (h : Fits p) : (p.count : ℤ) ≤ INT_MAX :=
  le_trans (by exact_mod_cast Nat.le_mul_of_pos_left _ h.size) h.total

theorem ints (h : Fits p) {c : Child} (hc : c.Counts p) (hid : id ≤ 1) :
    ∀ x ∈ c.ints p id, IsInt x := by
  have hs := h.size_le
  have hn := h.count_le
  have hi := hc.le_count
  rw [INT_MAX] at hs hn
  cases hp : c.pc <;> simp only [Child.ints, hp, List.not_mem_nil, IsEmpty.forall_iff, implies_true]
  case test =>
    split <;> simp only [List.forall_mem_cons, List.not_mem_nil, isInt_iff] <;> grind
  case transfer =>
    have := hc.len_le hp
    have := hc.lt_count <| .inr hp
    have : chunk p.size c.len ≤ p.size - c.len := chunk_le
    split <;> simp only [List.forall_mem_cons, List.not_mem_nil, isInt_iff] <;> grind

theorem checkInts (h : Fits p) (hr : (pipette p).Reachable s) :
    ∀ x ∈ s.consumer.checkInts p signed, IsInt x := by
  have ⟨_, hf⟩ := Flow.reachable hr
  rw [Child.checkInts]
  split
  case isFalse => simp
  case isTrue hc =>
    obtain ⟨hp, hl⟩ := hc
    have hi := hf.consumer.lt_count <| .inr hp
    have hs := h.size_le
    rw [buf_eq_block hr h.size hp hl, List.cons_append, List.forall_mem_cons, List.forall_mem_append]
    refine ⟨?_, fun x hx => ?_, fun x hx => ?_⟩
    · rw [Int.mul_comm]
      exact isInt_mul le_rfl hi h.total <| by omega
    · obtain ⟨j, hj, rfl⟩ := List.mem_map.mp hx
      have := List.mem_range.mp hj
      rw [INT_MAX] at hs
      rw [isInt_iff]
      omega
    · obtain ⟨j, hj, rfl⟩ := mem_partialSums hx
      rw [Int.zero_add]
      exact isInt_mul hj hi h.total <| charOf_bounds signed _

-- No expression in the loops overflows, whatever the calls return and however the children are scheduled.
theorem reachable (h : Fits p) (hr : (pipette p).Reachable s) : ∀ x ∈ s.ints p signed, IsInt x := by
  have ⟨_, hf⟩ := Flow.reachable hr
  simp only [State.ints, List.forall_mem_append]
  exact ⟨⟨h.ints hf.producer le_rfl, h.ints hf.consumer (Nat.zero_le _)⟩, h.checkInts hr⟩

end Fits

-- The product is an `int`, so the last check never rejects anything.
theorem rejected_iff :
    vars.Rejected ↔ vars.delayProd < 0 ∨ vars.delayCons < 0 ∨ vars.size < 0 ∨ vars.count < 0 := by
  have := (isInt_wrap <| vars.size * vars.count).right
  simp only [Vars.Rejected, gt_iff_lt, not_lt.mpr this, or_false]

theorem parseOpts_pos (h : parseOpts opts = some vars) : 0 < vars.size ∧ 0 < vars.count := by
  obtain ⟨vars, _, h⟩ := Option.bind_eq_some_iff.mp h
  obtain ⟨hr, rfl⟩ := Option.ite_none_left_eq_some.mp h |>.imp_right Option.some.inj
  rw [rejected_iff] at hr
  simp only [Vars.withDefaults, DEFAULT_BLOCK_SIZE, DEFAULT_BLOCK_COUNT] at hr ⊢
  split_ifs at hr ⊢ <;> omega

-- The accepted values are small enough for all expressions in the loops, if and only if their product does
-- not exceed `INT_MAX`.
theorem parse_opts_fits_iff (signed : Bool) (h : parseOpts opts = some vars) :
    (vars.size * vars.count ≤ INT_MAX ∧
      ∀ capacity s, (pipette <| vars.params capacity).Reachable s →
        ∀ x ∈ s.ints (vars.params capacity) signed, IsInt x) ↔
    vars.size ≤ INT_MAX / vars.count := by
  have ⟨hs, hc⟩ := parseOpts_pos h
  rw [Int.le_ediv_iff_mul_le hc, and_iff_left_iff_imp]
  intro hm capacity s hr
  have hf : Fits (vars.params capacity) :=
    ⟨Int.pos_iff_toNat_pos.mp hs, Int.pos_iff_toNat_pos.mp hc, by simpa [Vars.params, hs.le, hc.le] using hm⟩
  exact hf.reachable hr

theorem parse_opts_fits_default :
    ∃ vars, parseOpts [.count ['8']] = some vars ∧ vars.size * vars.count ≤ INT_MAX := by
  have hp : (parseOpts [.count ['8']]).isSome := by decide
  have ⟨vars, hp⟩ := Option.isSome_iff_exists.mp hp
  have hv : (parseOpts [.count ['8']]).map (fun vars => (vars.size, vars.count)) = some (4096, 8) := by decide
  rw [hp] at hv
  have ⟨hs, hc⟩ := Prod.mk.inj <| Option.some.inj hv
  exact ⟨vars, hp, ((parse_opts_fits_iff true hp).mpr <| by rw [hs, hc]; decide).left⟩

-- The product wraps around to 0.
theorem not_parse_opts_fits :
    ¬∀ opts vars, parseOpts opts = some vars → vars.size * vars.count ≤ INT_MAX := by
  intro h
  let opts : List Opt := [.size ['6', '5', '5', '3', '6'], .count ['6', '5', '5', '3', '6']]
  have hv : (parseOpts opts).map (fun vars => (vars.size, vars.count)) = some (65536, 65536) := by decide
  have ⟨vars, hp, hv⟩ := Option.map_eq_some_iff.mp hv
  have ⟨hs, hc⟩ := Prod.mk.inj hv
  have hm := h opts vars hp
  rw [hs, hc] at hm
  exact absurd hm (by decide)

end WorkloadKit.Pipette
