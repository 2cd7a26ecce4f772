import WorkloadKit.Pipette.Theorems.Transfer

namespace WorkloadKit.Pipette

variable {p : Params} {s s' : State} {e : Event} {c c' : Child} {n : ℕ}

namespace Child

theorem Calling.pos_lt (hc : c.Calling p) (hi : c.i < p.count) : c.pos p < p.count * p.size := by
  have ⟨hp, hl⟩ := hc
  have := Nat.mul_le_mul_right p.size hi
  rw [Nat.succ_mul] at this
  simp only [pos, hp]
  omega

theorem Inv.pos_lt (h : c.Inv p) (hc : c.Calling p) : c.pos p < p.count * p.size :=
  hc.pos_lt <| h.lt_count <| .inr hc.left

theorem Inv.pos_le (h : c.Inv p) : c.pos p ≤ (if c.pc = .transfer then c.i + 1 else c.i) * p.size := by
  have := h.len_le
  cases hp : c.pc <;> simp only [pos, hp, reduceCtorEq, if_true, if_false, Nat.add_mul] <;> omega

theorem le_pos : c.i * p.size ≤ c.pos p := by
  cases hp : c.pc <;> simp [pos, hp]

theorem Inv.pos_of_exited (h : c.Inv p) (hx : c.pc.Exited) : c.pos p = p.count * p.size := by
  cases hp : c.pc <;> simp only [hp, Pc.Exited] at hx
  case exited ret =>
    obtain ⟨_, hi⟩ := h.exited ret hp
    simp only [pos, hp, hi]

end Child

theorem exists_stepProducer (hu : c.pc ≠ .unborn) (hx : ¬c.pc.Exited) (hc : ¬c.Calling p) :
    ∃ c', stepProducer p c = some c' := by
  cases hp : c.pc <;> simp_all [stepProducer, Child.Calling, Child.Pc.Exited]

theorem exists_stepConsumer (hu : c.pc ≠ .unborn) (hf : c.pc ≠ .fill) (hx : ¬c.pc.Exited)
    (hc : ¬c.Calling p) : ∃ c', stepConsumer p c = some c' := by
  cases hp : c.pc <;> simp_all [stepConsumer, Child.Calling, Child.Pc.Exited]

theorem enabled_producer (he : stepProducer p s.producer = some c) : (pipette p).Enabled s .producer := by
  simp [System.Enabled, pipette, step, he]

theorem enabled_consumer (he : stepConsumer p s.consumer = some c) : (pipette p).Enabled s .consumer := by
  simp [System.Enabled, pipette, step, he]

theorem enabled_read (hc : s.consumer.Calling p) (hb : s.pipe ≠ []) : (pipette p).Enabled s (.read 1) := by
  have hn := chunk_pos hc.right
  have hl := List.length_pos_iff.mpr hb
  have hg : s.consumer.Calling p ∧ 1 ≤ chunk p.size s.consumer.len ∧ 1 ≤ s.pipe.length ∧
      (1 = 0 → s.pipe = [] ∧ ¬s.WriteOpen) :=
    ⟨hc, hn, hl, nofun⟩
  simp only [System.Enabled, pipette, step, read, if_pos hg, Option.isSome_some]

theorem enabled_write (hc : s.producer.Calling p) (hr : s.ReadOpen) (hb : s.pipe = [])
    (hcap : PAGE_SIZE ≤ p.capacity) :
    (pipette p).Enabled s (.write <| chunk p.size s.producer.len) := by
  have hn := chunk_pos hc.right
  have hl : s.pipe.length + chunk p.size s.producer.len ≤ p.capacity := by
    rw [hb, List.length_nil, Nat.zero_add]
    exact chunk_le_PAGE_SIZE.trans hcap
  have hg : s.producer.Calling p ∧ s.ReadOpen ∧ 1 ≤ chunk p.size s.producer.len ∧
      chunk p.size s.producer.len ≤ chunk p.size s.producer.len ∧ _ :=
    ⟨hc, hr, hn, le_rfl, hl⟩
  simp only [System.Enabled, pipette, step, write, if_pos hg, Option.isSome_some]

namespace Inv

theorem pipe_eq_nil_iff (hi : Inv p s) : s.pipe = [] ↔ s.producer.pos p = s.consumer.pos p := by
  have := hi.pos_le
  rw [hi.pipe, ←List.length_eq_zero_iff, segment_length]
  omega

theorem consumer_progress (hi : Inv p s) (hu : s.consumer.pc ≠ .unborn) (hx : ¬s.consumer.pc.Exited)
    (hb : s.consumer.Calling p → s.pipe ≠ []) :
    ∃ e, Succeeds s e ∧ (pipette p).Enabled s e ∧ ∀ n, e ≠ .write n := by
  by_cases hc : s.consumer.Calling p
  case pos => exact ⟨.read 1, le_rfl, enabled_read hc <| hb hc, nofun⟩
  case neg =>
    have ⟨c, he⟩ := exists_stepConsumer hu hi.consumer.pc hx hc
    exact ⟨.consumer, trivial, enabled_consumer he, nofun⟩

-- A child that is blocked waits for the other one. As the chunks fit into the pipe, they can not both be
-- blocked, even if `write` does not transfer only a part of a chunk.
theorem progress (hi : Inv p s) (hcap : PAGE_SIZE ≤ p.capacity)
    (hx : ¬(s.producer.pc.Exited ∧ s.consumer.pc.Exited)) :
    ∃ e, Succeeds s e ∧ (pipette p).Enabled s e ∧ ∀ n, e = .write n → n = chunk p.size s.producer.len := by
  have hm := hi.main
  simp only [State.MainInv] at hm
  cases h : s.main <;> simp only [h] at hm
  case forkProducer | forkConsumer =>
    exact ⟨.main, trivial, by simp [System.Enabled, pipette, Pipette.step, Pipette.stepMain, h], by rintro _ ⟨⟩⟩
  case exited => contradiction
  case wait k =>
    obtain ⟨hu, hu', _⟩ := hm
    have hcons (hx : ¬s.consumer.pc.Exited) (hb : s.consumer.Calling p → s.pipe ≠ []) :
        ∃ e, Succeeds s e ∧ (pipette p).Enabled s e ∧
          ∀ n, e = .write n → n = chunk p.size s.producer.len := by
      obtain ⟨e, hs, he, hn⟩ := hi.consumer_progress hu' hx hb
      exact ⟨e, hs, he, fun n h => absurd h <| hn n⟩
    by_cases hpx : s.producer.pc.Exited
    case pos =>
      refine hcons (fun hcx => hx ⟨hpx, hcx⟩) fun hc => hi.pipe_eq_nil_iff.not.mpr ?_
      have := hi.consumer.pos_lt hc
      have := hi.producer.pos_of_exited hpx
      omega
    case neg =>
      by_cases hp : s.producer.Calling p
      case neg =>
        obtain ⟨c, he⟩ := exists_stepProducer hu hpx hp
        exact ⟨.producer, trivial, enabled_producer he, by rintro _ ⟨⟩⟩
      case pos =>
        by_cases hb : s.pipe = []
        case pos =>
          have he := enabled_write hp (.inl <| by simp [h]) hb hcap
          exact ⟨.write _, trivial, he, fun _ he => (Event.write.inj he).symm⟩
        case neg =>
          refine hcons (fun hcx => ?_) fun _ => hb
          have := hi.producer.pos_lt hp
          have := hi.consumer.pos_of_exited hcx
          have := hi.pos_le
          omega

theorem blocks_prefix (hi : Inv p s) (hs : 1 ≤ p.size) : s.consumer.blocks <+: s.producer.blocks := by
  have hle := s.consumer.le_pos.trans <| hi.pos_le.trans hi.producer.pos_le
  have hle := Nat.le_of_mul_le_mul_right hle hs
  rw [hi.consumer.blocks, hi.producer.blocks]
  refine List.IsPrefix.map _ <| List.prefix_iff_eq_take.mpr ?_
  rw [List.length_range, List.take_range, Nat.min_eq_left hle]

end Inv

-- What holds of the transfers of a child, which has transferred `blocks` blocks if it has returned.
structure Child.Transfers (p : Params) (c : Child) : Prop where
  touched  : c.touched = List.range c.len
  len_le   : c.len ≤ p.size
  complete : 0 < c.i → c.pc ≠ .transfer → c.touched = List.range p.size
  returns  : ∀ ret, c.pc = .exited ret → ret = 0 ∧ c.blocks.length = p.count

theorem Child.Inv.transfers (h : c.Inv p)
    (hb : c.pc ≠ .transfer → c.blocks = (List.range c.i).map (block p)) : c.Transfers p where
  touched  := h.touched
  len_le   := h.len_le
  complete := fun hi hp => h.complete hi hp ▸ h.touched
  returns  := fun ret hp =>
    have ⟨hr, hi⟩ := h.exited ret hp
    ⟨hr, by rw [hb <| by simp [hp], List.length_map, List.length_range, hi]⟩

-- How many statements and transferred bytes a child has behind it, of which there are at most `size + 3` for
-- each block.
def Child.work (p : Params) (c : Child) : ℕ :=
  match c.pc with
  | .unborn   => 0
  | .close    => 1
  | .calloc   => 2
  | .test     => c.i * (p.size + 3) + 3
  | .fill     => c.i * (p.size + 3) + 4
  | .transfer => c.i * (p.size + 3) + c.len + 5
  | .exited _ => p.count * (p.size + 3) + 4

def Main.work : Main → ℕ
  | .forkProducer => 0
  | .forkConsumer => 1
  | .wait k       => k + 2
  | .exited       => 5

def State.work (p : Params) (s : State) : ℕ :=
  s.main.work + s.producer.work p + s.consumer.work p

theorem State.exitedChildren_le (s : State) : s.exitedChildren ≤ 2 := by
  rw [exitedChildren]
  split
  all_goals
    split
    all_goals decide

namespace Child

theorem Inv.work_le (h : c.Inv p) : c.work p ≤ p.count * (p.size + 3) + 4 := by
  have hl := h.len_le
  have hi := Nat.mul_le_mul_right (p.size + 3) h.le_count
  cases hp : c.pc <;> simp only [work, hp]
  case transfer | fill =>
    have := Nat.mul_le_mul_right (p.size + 3) <| Nat.succ_le_of_lt <| h.lt_count <| by simp [hp]
    rw [Nat.succ_mul] at this
    omega
  all_goals omega

theorem work_startTransfer (hp : c.pc = .test ∨ c.pc = .fill) : c.work p < c.startTransfer.work p := by
  rcases hp with hp | hp <;> simp only [work, startTransfer, hp] <;> omega

theorem work_finishTransfer (hp : c.pc = .transfer) (hl : c.len ≤ p.size) :
    c.work p < (c.i + 1) * (p.size + 3) + 3 := by
  simp only [work, hp, Nat.add_mul]
  omega

theorem work_advance (hp : c.pc = .transfer) (hn : 1 ≤ n) : c.work p < (c.advance n).work p := by
  simp only [work, advance, hp]
  omega

theorem Inv.work_stepProducer (h : c.Inv p) (he : stepProducer p c = some c') : c.work p < c'.work p := by
  have hi := Nat.mul_le_mul_right (p.size + 3) h.le_count
  cases ProducerStep.of_eq he
  case fill hp        => exact work_startTransfer (.inr hp)
  case transfer hp hl => exact work_finishTransfer hp h.len_le
  all_goals
    simp only [work, *]
    omega

theorem Inv.work_stepConsumer (h : c.Inv p) (he : stepConsumer p c = some c') : c.work p < c'.work p := by
  have hi := Nat.mul_le_mul_right (p.size + 3) h.le_count
  cases ConsumerStep.of_eq he
  case next hp _      => exact work_startTransfer (.inl hp)
  case transfer hp hl => exact work_finishTransfer hp h.len_le
  all_goals
    simp only [work, *]
    omega

end Child

namespace Inv

theorem main_work_le (hi : Inv p s) : s.main.work ≤ 5 := by
  have hm := hi.main
  simp only [State.MainInv] at hm
  cases h : s.main <;> simp only [h] at hm <;> simp only [Main.work]
  case wait k =>
    have := hm.right.right.trans s.exitedChildren_le
    omega
  all_goals omega

theorem work_le (hi : Inv p s) : s.work p ≤ 2 * (p.count * (p.size + 3)) + 13 := by
  have := hi.main_work_le
  have := hi.producer.work_le
  have := hi.consumer.work_le
  rw [State.work]
  omega

theorem work_stepMain (hi : Inv p s) (he : Pipette.stepMain s = some s') : s.work p < s'.work p := by
  have hm := hi.main
  simp only [State.MainInv] at hm
  cases h : s.main <;> simp only [Pipette.stepMain, h, Option.some.injEq, reduceCtorEq] at he hm
  case forkProducer =>
    subst he
    simp only [State.work, Main.work, Child.work, h, hm.left]
    omega
  case forkConsumer =>
    subst he
    simp only [State.work, Main.work, Child.work, h, hm.right]
    omega
  case wait k =>
    split at he
    case isTrue hk =>
      obtain ⟨_, he⟩ := Option.ite_none_right_eq_some.mp he
      cases he
      simp only [State.work, Main.work, h]
      omega
    case isFalse hk =>
      cases he
      have := hm.right.right.trans s.exitedChildren_le
      simp only [State.work, Main.work, h]
      omega

-- Each step of a run in which no call fails does a part of the work.
theorem work_step (hi : Inv p s) (hs : Succeeds s e) (he : Pipette.step p s e = some s') :
    s.work p < s'.work p := by
  cases e
  case main => exact hi.work_stepMain he
  case producer =>
    obtain ⟨c, hc, rfl⟩ := Option.map_eq_some_iff.mp he
    have := hi.producer.work_stepProducer hc
    simp only [State.work]
    omega
  case consumer =>
    obtain ⟨c, hc, rfl⟩ := Option.map_eq_some_iff.mp he
    have := hi.consumer.work_stepConsumer hc
    simp only [State.work]
    omega
  case write n =>
    simp only [Pipette.step, write, Option.ite_none_right_eq_some, Option.some.injEq] at he
    obtain ⟨⟨hc, _, hn, _⟩, rfl⟩ := he
    have := Child.work_advance (p := p) hc.left hn
    simp only [State.work]
    omega
  case read n =>
    simp only [Pipette.step, read, Option.ite_none_right_eq_some, Option.some.injEq] at he
    obtain ⟨⟨hc, _⟩, rfl⟩ := he
    have := Child.work_advance (p := p) hc.left hs
    simp only [State.work, Child.work, Child.advance, hc.left] at this ⊢
    omega
  case failProducer | failConsumer => exact hs.elim

theorem enabled_main (hi : Inv p s) (hx : s.producer.pc.Exited ∧ s.consumer.pc.Exited) (hm : s.main ≠ .exited) :
    (pipette p).Enabled s .main := by
  have h := hi.main
  simp only [State.MainInv] at h
  cases hs : s.main <;> simp only [hs] at h
  case wait k =>
    by_cases hk : k < 2 <;>
      simp [System.Enabled, pipette, Pipette.step, Pipette.stepMain, hs, hk, State.exitedChildren, hx]
  case exited => exact absurd hs hm
  all_goals simp [System.Enabled, pipette, Pipette.step, Pipette.stepMain, hs]

-- A run in which no call fails can only end when all processes have exited.
theorem ended (hi : Inv p s) (hcap : PAGE_SIZE ≤ p.capacity)
    (hn : ∀ e, Succeeds s e → ¬(pipette p).Enabled s e) :
    s.main = .exited ∧ s.producer.pc = .exited 0 ∧ s.consumer.pc = .exited 0 := by
  have hx : s.producer.pc.Exited ∧ s.consumer.pc.Exited := by
    by_contra hx
    obtain ⟨e, hs, he, _⟩ := hi.progress hcap hx
    exact hn e hs he
  refine ⟨?_, ?_, ?_⟩
  · by_contra hm
    exact hn .main trivial <| hi.enabled_main hx hm
  · cases hp : s.producer.pc <;> simp only [hp, Child.Pc.Exited, false_and] at hx
    case exited ret => rw [(hi.producer.exited ret hp).left]
  · cases hp : s.consumer.pc <;> simp only [hp, Child.Pc.Exited, and_false] at hx
    case exited ret => rw [(hi.consumer.exited ret hp).left]

end Inv

-- The consumer receives the blocks that the producer has filled in, in a run in which no call fails. Every such
-- run is finite, and can only end when both children have returned after `count` blocks.
theorem transfer_blocks (p : Params) (hs : 1 ≤ p.size) (hc : PAGE_SIZE ≤ p.capacity) {es : List Event}
    {s : State}
    (hu : ∀ e ∈ es, ∀ s, Succeeds s e) (he : (pipette p).exec init es = some s) :
    es.length ≤ 2 * (p.count * (p.size + 3)) + 13 ∧
    s.consumer.blocks <+: s.producer.blocks ∧
    (∀ i block, s.producer.blocks[i]? = some block → block = List.replicate p.size (BitVec.ofNat 8 i)) ∧
    s.producer.Transfers p ∧ s.consumer.Transfers p ∧
    (¬(s.producer.pc.Exited ∧ s.consumer.pc.Exited) → ∃ e, Succeeds s e ∧ (pipette p).Enabled s e ∧
      ∀ n, e = .write n → n = chunk p.size s.producer.len) ∧
    ((∀ e, Succeeds s e → ¬(pipette p).Enabled s e) → s.main = .exited ∧ s.producer.pc = .exited 0 ∧
      s.consumer.pc = .exited 0 ∧ s.producer.blocks.length = p.count ∧ s.consumer.blocks.length = p.count) := by
  have hi : Inv p s := .reachable <| System.ReachableUnder.init.exec_of_forall hu he
  have producer : s.producer.Transfers p := hi.producer.transfers fun hp => by rw [hi.producer.blocks, if_neg hp]
  have consumer : s.consumer.Transfers p := hi.consumer.transfers fun _ => hi.consumer.blocks
  refine ⟨?finite, hi.blocks_prefix hs, ?filled, producer, consumer, hi.progress hc, fun hn => ?ended⟩
  case finite =>
    have := System.work_add_length_le_of_forall (State.work p)
      (fun hi hs he => ⟨Inv.step hi (hs _) he, hi.work_step (hs _) he⟩) Inv.init hu he
    have := hi.work_le
    omega
  case filled =>
    rw [hi.producer.blocks]
    intro i b hb
    obtain ⟨_, hj, rfl⟩ := List.getElem?_eq_some_iff.mp hb
    simp [block]
  case ended =>
    obtain ⟨hm, hp, hc⟩ := hi.ended hc hn
    exact ⟨hm, hp, hc, (producer.returns 0 hp).right, (consumer.returns 0 hc).right⟩

-- Two blocks of two bytes. The first one is written at once and read one byte after the other, the second one
-- is written one byte after the other and read at once.
theorem transfer_blocks_two :
    let p : Params := { size := 2, count := 2, capacity := PAGE_SIZE }
    ∃ es s, (pipette p).exec init es = some s ∧ s.consumer.blocks = [[0, 0], [1, 1]] ∧
      s.consumer.blocks <+: s.producer.blocks ∧ s.consumer.pc = .exited 0 := by
  intro p
  let es : List Event := [.main, .producer, .producer, .producer, .producer, .main, .consumer, .consumer,
    .consumer, .write 2, .read 1, .read 1, .consumer, .consumer, .producer, .producer, .producer, .write 1,
    .write 1, .read 2, .producer, .producer, .consumer, .consumer, .main, .main, .main]
  have he : ((pipette p).exec init es).map (fun s => (s.consumer.blocks, s.producer.pc, s.consumer.pc, s.main)) =
      some ([[0, 0], [1, 1]], .exited 0, .exited 0, .exited) := by
    decide
  have ⟨s, hs, hb⟩ := Option.map_eq_some_iff.mp he
  obtain ⟨hb, hp, hc, hm⟩ : s.consumer.blocks = _ ∧ s.producer.pc = _ ∧ s.consumer.pc = _ ∧ s.main = _ := by
    simpa using hb
  have ⟨_, hpre, _, _, _, _, hend⟩ := transfer_blocks p (by decide) le_rfl (by simp [es, Succeeds]) hs
  have hn (e : Event) (_ : Succeeds s e) : ¬(pipette p).Enabled s e := by
    cases e <;>
      simp [System.Enabled, pipette, step, stepMain, stepProducer, stepConsumer, write, read, failProducer,
        failConsumer, Child.Calling, hm, hp, hc]
  exact ⟨es, s, hs, hb, hpre, (hend hn).right.right.left⟩

end WorkloadKit.Pipette
