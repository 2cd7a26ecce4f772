import WorkloadKit.Pipette.Theorems.Flow

namespace WorkloadKit.Pipette

variable {p : Params} {s s' s₁ s₂ : State} {e : Event} {c c' : Child} {k n : ℕ}

-- A child that has exited does nothing any more.
theorem exited_step (hm : s.MainInv) (he : step p s e = some s') :
    (s.producer.pc.Exited → s'.producer = s.producer) ∧
    (s.consumer.pc.Exited → s'.consumer = s.consumer) := by
  cases e
  case main =>
    have hm' := hm
    simp only [State.MainInv] at hm'
    cases h : s.main <;> simp only [step, stepMain, h, Option.some.injEq, reduceCtorEq] at he hm'
    case forkProducer =>
      subst he
      exact ⟨fun hx => by simp [hm', Child.Pc.Exited] at hx, fun _ => rfl⟩
    case forkConsumer =>
      subst he
      exact ⟨fun _ => rfl, fun hx => by simp [hm', Child.Pc.Exited] at hx⟩
    case wait =>
      obtain ⟨_, rfl, _⟩ := hm.wait h <| by simpa only [stepMain, h] using he
      exact ⟨fun _ => rfl, fun _ => rfl⟩
  case producer =>
    obtain ⟨c, hc, rfl⟩ := Option.map_eq_some_iff.mp he
    exact ⟨fun hx => absurd hx (stepProducer_pc hc).right.right, fun _ => rfl⟩
  case consumer =>
    obtain ⟨c, hc, rfl⟩ := Option.map_eq_some_iff.mp he
    exact ⟨fun _ => rfl, fun hx => absurd hx (stepConsumer_pc hc).right.right⟩
  case write =>
    simp only [step, write, Option.ite_none_right_eq_some, Option.some.injEq] at he
    obtain ⟨⟨hc, _⟩, rfl⟩ := he
    exact ⟨fun hx => absurd hx hc.not_exited, fun _ => rfl⟩
  case read =>
    simp only [step, read, Option.ite_none_right_eq_some, Option.some.injEq] at he
    obtain ⟨⟨hc, _⟩, rfl⟩ := he
    exact ⟨fun _ => rfl, fun hx => absurd hx hc.not_exited⟩
  case failProducer =>
    simp only [step, failProducer, Option.ite_none_right_eq_some, Option.some.injEq] at he
    obtain ⟨hf, rfl⟩ := he
    refine ⟨fun hx => ?_, fun _ => rfl⟩
    rcases hf with hp | hc
    · simp [hp, Child.Pc.Exited] at hx
    · exact absurd hx hc.left.not_exited
  case failConsumer =>
    simp only [step, failConsumer, Option.ite_none_right_eq_some, Option.some.injEq] at he
    obtain ⟨hf, rfl⟩ := he
    refine ⟨fun _ => rfl, fun hx => ?_⟩
    rcases hf with hp | hc
    · simp [hp, Child.Pc.Exited] at hx
    · exact absurd hx hc.not_exited

-- The program has not ended, but no process can go on. A call of `read` that waits for bytes does not
-- fail either.
def Stuck (p : Params) (s : State) : Prop :=
  s.main ≠ .exited ∧ ∀ e, e ≠ .failConsumer → ¬(pipette p).Enabled s e

theorem not_stuck_of_enabled (he : (pipette p).Enabled s e) (hn : e ≠ .failConsumer) : ¬Stuck p s :=
  fun h => h.right e hn he

theorem not_stuck_of_exited (hp : s.producer.pc.Exited) (hc : s.consumer.pc.Exited) :
    ¬Stuck p s := by
  intro h
  refine h.right .main nofun ?_
  cases hs : s.main
  case exited => exact absurd hs h.left
  case wait k =>
    by_cases hk : k < 2
    case pos => simp [System.Enabled, pipette, step, stepMain, hs, hk, State.exitedChildren, hp, hc]
    case neg => simp [System.Enabled, pipette, step, stepMain, hs, hk]
  all_goals simp [System.Enabled, pipette, step, stepMain, hs]

-- Both children have exited, or the one that is left does not need the other one any more.
def Released (p : Params) (k : ℕ) (s : State) : Prop :=
  s.producer.pc.Exited ∧ s.consumer.pc.Exited ∨
  s.producer.pc.Exited ∧ p.count * p.size = 0 ∨
  s.consumer.pc.Exited ∧ p.count * p.size ≤ k + p.capacity

namespace Flow

theorem released_step (h : Flow p k s) (hr : Released p k s) (he : Pipette.step p s e = some s') :
    ∃ k', Flow p k' s' ∧ Released p k' s' := by
  have ⟨k', h', hk⟩ := h.step he
  have ⟨hp, hc⟩ := exited_step h.main he
  replace hp (hx : s.producer.pc.Exited) := hp hx ▸ hx
  replace hc (hx : s.consumer.pc.Exited) := hc hx ▸ hx
  refine ⟨k', h', ?_⟩
  rcases hr with hr | hr | hr
  · exact .inl ⟨hp hr.left, hc hr.right⟩
  · exact .inr <| .inl ⟨hp hr.left, hr.right⟩
  · exact .inr <| .inr ⟨hc hr.left, hk hr.left ▸ hr.right⟩

-- A call of `write` transfers a byte if the pipe has room for it.
theorem write_one (h : Flow p k s) (hc : s.producer.Calling p) (hr : s.pipe.length < p.capacity) :
    (write p s 1).isSome := by
  simp only [write]
  rw [if_pos ⟨hc, h.readOpen hc.not_exited, le_rfl, chunk_pos hc.right, hr⟩]
  rfl

theorem not_stuck (h : Flow p k s) (hr : Released p k s) : ¬Stuck p s := by
  have hm := h.main
  simp only [State.MainInv] at hm
  cases hs : s.main <;> simp only [hs] at hm
  case forkProducer | forkConsumer =>
    have he : (pipette p).Enabled s .main := by
      simp [System.Enabled, pipette, Pipette.step, Pipette.stepMain, hs]
    exact not_stuck_of_enabled he (by rintro ⟨⟩)
  case exited => exact not_stuck_of_exited hm.left hm.right
  case wait =>
    obtain ⟨hp, hc, _⟩ := hm
    by_cases hxp : s.producer.pc.Exited <;> by_cases hxc : s.consumer.pc.Exited
    case pos => exact not_stuck_of_exited hxp hxc
    case neg =>
      have hz : p.count * p.size = 0 := by simpa [Released, hxp, hxc] using hr
      have hn : ¬s.consumer.Calling p := fun hn => by
        have := h.consumer.pos_lt hn
        omega
      obtain ⟨_, he⟩ := exists_stepConsumer hc h.pc hxc hn
      exact not_stuck_of_enabled (enabled_consumer he) (by rintro ⟨⟩)
    case pos =>
      have hl : p.count * p.size ≤ k + p.capacity := by simpa [Released, hxp, hxc] using hr
      by_cases hn : s.producer.Calling p
      case pos =>
        have := h.producer.pos_lt hn
        have := h.pipe
        exact not_stuck_of_enabled (e := .write 1) (h.write_one hn <| by omega) (by rintro ⟨⟩)
      case neg =>
        obtain ⟨_, he⟩ := exists_stepProducer hp hxp hn
        exact not_stuck_of_enabled (enabled_producer he) (by rintro ⟨⟩)
    case neg => simp [Released, hxp, hxc] at hr

end Flow

-- The consumer waits for bytes of a producer that has exited early, as the parent does not close its
-- end of the pipe.
theorem stuck_of_producer_exited (hm : s.main = .wait 1) (hx : s.producer.pc.Exited)
    (hc : s.consumer.Calling p) (hp : s.pipe = []) : Stuck p s := by
  refine ⟨by simp [hm], fun e he => ?_⟩
  have hxc := hc.not_exited
  have hu : s.producer.pc ≠ .unborn := fun hu => by simp [hu, Child.Pc.Exited] at hx
  have hn : s.producer.pc ≠ .calloc := fun hu => by simp [hu, Child.Pc.Exited] at hx
  have hpc : ¬s.producer.Calling p := fun h => h.not_exited hx
  have hw : s.WriteOpen := .inl <| by simp [hm]
  simp only [System.Enabled, pipette, Bool.not_eq_true, Option.isSome_eq_false_iff,
    Option.isNone_iff_eq_none]
  cases e
  case main => simp [step, stepMain, hm, State.exitedChildren, hx, hxc]
  case producer =>
    simp only [step, Option.map_eq_none_iff]
    by_contra hs
    obtain ⟨c, hs⟩ := Option.ne_none_iff_exists'.mp hs
    exact (stepProducer_pc hs).right.right hx
  case consumer     => simp [step, stepConsumer, hc.left, hc.right]
  case write        => simp [step, write, hpc]
  case read n       => simp +contextual [step, read, hp, hw]
  case failProducer => simp [step, failProducer, hn, hpc]
  case failConsumer => exact absurd rfl he

-- The producer waits for room in the pipe of a consumer that has exited early.
theorem stuck_of_consumer_exited (hm : s.main = .wait 1) (hx : s.consumer.pc.Exited)
    (hc : s.producer.Calling p) (hp : s.pipe.length = p.capacity) : Stuck p s := by
  refine ⟨by simp [hm], fun e he => ?_⟩
  have hxp := hc.not_exited
  have hcc : ¬s.consumer.Calling p := fun h => h.not_exited hx
  have hr : s.ReadOpen := .inl <| by simp [hm]
  simp only [System.Enabled, pipette, Bool.not_eq_true, Option.isSome_eq_false_iff,
    Option.isNone_iff_eq_none]
  cases e
  case main => simp [step, stepMain, hm, State.exitedChildren, hx, hxp]
  case producer => simp [step, stepProducer, hc.left, hc.right]
  case consumer =>
    simp only [step, Option.map_eq_none_iff]
    by_contra hs
    obtain ⟨c, hs⟩ := Option.ne_none_iff_exists'.mp hs
    exact (stepConsumer_pc hs).right.right hx
  case write n =>
    simp only [step, write, hp]
    rw [if_neg]
    rintro ⟨_, _, _, _, _⟩
    omega
  case read         => simp [step, read, hcc]
  case failProducer => simp [step, failProducer, hc.left, hr]
  case failConsumer => exact absurd rfl he

-- How far the processes have got on the way to the calls that they wait in.
def Main.rank : Main → ℕ
  | .wait k => k + 1
  | _       => 0

def Child.rank (p : Params) (c : Child) : ℕ :=
  match c.pc with
  | .unborn | .exited _ => 0
  | .close    => 1
  | .calloc   => 2
  | .test     => c.i * (p.size + 3) + 3
  | .fill     => c.i * (p.size + 3) + 4
  | .transfer => c.i * (p.size + 3) + c.len + 5

theorem Child.Counts.rank_le (h : c.Counts p) : c.rank p ≤ (p.count + 1) * (p.size + 3) + 5 := by
  have := Nat.mul_le_mul_right (p.size + 3) h.le_count
  have hl := h.len_le
  rw [Nat.succ_mul]
  cases hp : c.pc <;> simp only [rank, hp]
  case transfer => have := hl hp; omega
  all_goals omega

theorem rank_lt_stepProducer (h : c.Counts p) (he : stepProducer p c = some c') (hx : ¬c'.pc.Exited) :
    c.rank p < c'.rank p := by
  cases ProducerStep.of_eq he
  case exit => exact absurd trivial hx
  case transfer hp _ =>
    have := h.len_le hp
    simp only [Child.rank, hp, Nat.succ_mul]
    omega
  all_goals simp_all [Child.rank, Child.startTransfer]

theorem rank_lt_stepConsumer (h : c.Counts p) (he : stepConsumer p c = some c') (hx : ¬c'.pc.Exited) :
    c.rank p < c'.rank p := by
  cases ConsumerStep.of_eq he
  case exit => exact absurd trivial hx
  case transfer hp _ =>
    have := h.len_le hp
    simp only [Child.rank, hp, Nat.succ_mul]
    omega
  all_goals simp_all [Child.rank, Child.startTransfer]

theorem State.exitedChildren_le_one (hx : ¬s.producer.pc.Exited ∨ ¬s.consumer.pc.Exited) :
    s.exitedChildren ≤ 1 := by
  simp only [exitedChildren]
  rcases hx with hx | hx <;> rw [if_neg hx] <;> split <;> omega

theorem State.MainInv.rank_le (h : s.MainInv) (hx : ¬s.producer.pc.Exited ∨ ¬s.consumer.pc.Exited) :
    s.main.rank ≤ 2 := by
  have := exitedChildren_le_one hx
  simp only [MainInv] at h
  cases hm : s.main <;> simp only [hm, Main.rank] at h ⊢
  case wait => omega
  all_goals omega

-- Writing a byte makes progress, too.
theorem Child.rank_advance (hp : c.pc = .transfer) : (c.advance n).rank p = c.rank p + n := by
  simp only [rank, advance, hp]
  omega

-- The consumer is left with a producer that has failed before it wrote anything.
structure FailedProducer (p : Params) (s : State) : Prop where
  flow     : Flow p 0 s
  producer : s.producer.pc.Exited
  pos      : s.producer.pos p = 0
  consumer : ¬s.consumer.pc.Exited

theorem FailedProducer.progress (h : FailedProducer p s) (hz : p.count * p.size ≠ 0)
    (hg : ¬(s.main = .wait 1 ∧ s.consumer.Calling p)) :
    ∃ e s', step p s e = some s' ∧ FailedProducer p s' ∧
      s.main.rank + s.consumer.rank p < s'.main.rank + s'.consumer.rank p := by
  obtain ⟨hf, hxp, hp, hxc⟩ := h
  have hm := hf.main
  simp only [State.MainInv] at hm
  cases hs : s.main <;> simp only [hs] at hm
  case forkProducer => simp [hm, Child.Pc.Exited] at hxp
  case exited       => exact absurd hm.right hxc
  case forkConsumer =>
    have he : stepMain s =
        some { s with main := .wait 0, consumer := { s.consumer with pc := .close } } := by
      simp only [stepMain, hs]
    refine ⟨.main, _, he, ⟨hf.stepMain he, hxp, hp, id⟩, ?_⟩
    simp [Main.rank, Child.rank, hm]
  case wait j =>
    have hj := hm.right.right.trans <| State.exitedChildren_le_one <| .inr hxc
    by_cases hj₁ : j = 1
    case neg =>
      have he : stepMain s = some { s with main := .wait (j + 1) } := by
        simp only [stepMain, hs, State.exitedChildren, if_pos hxp]
        rw [if_pos (by omega), if_pos (by omega)]
      refine ⟨.main, _, he, ⟨hf.stepMain he, hxp, hp, hxc⟩, ?_⟩
      simp [Main.rank]
    case pos =>
      have hn : ¬s.consumer.Calling p := fun hc => hg ⟨hj₁ ▸ hs, hc⟩
      obtain ⟨c, hc⟩ := exists_stepConsumer hm.right.left hf.pc hxc hn
      have he : step p s .consumer = some { s with consumer := c } := by simp only [step, hc]; rfl
      obtain ⟨k, hf', _⟩ := hf.step he
      have hk : k = 0 := by have := hf'.pipe.trans hp; omega
      have hx : ¬c.pc.Exited := fun hx => by
        have hr := hf.read fun ret hr => absurd (by rw [hr]; trivial) hxc
        have := Nat.mul_le_mul_right p.size <| stepConsumer_exited hc hx
        have := s.consumer.le_pos (p := p)
        omega
      refine ⟨.consumer, _, he, ⟨hk ▸ hf', hxp, hp, hx⟩, ?_⟩
      have := rank_lt_stepConsumer hf.consumer hc hx
      simp only [hs]
      omega

theorem FailedProducer.stuck (h : FailedProducer p s) (hz : p.count * p.size ≠ 0) :
    ∃ es s', (pipette p).exec s es = some s' ∧ Stuck p s' := by
  have le {s} (h : FailedProducer p s) :
      s.main.rank + s.consumer.rank p ≤ 2 + ((p.count + 1) * (p.size + 3) + 5) := by
    have := h.flow.main.rank_le <| .inr h.consumer
    have := h.flow.consumer.rank_le
    omega
  have ⟨es, s', he, h, hm, hc⟩ : ∃ es s', (pipette p).exec s es = some s' ∧ FailedProducer p s' ∧
      s'.main = .wait 1 ∧ s'.consumer.Calling p :=
    System.exists_exec_of_work _ _ le (fun h => h.progress hz) h
  refine ⟨es, s', he, stuck_of_producer_exited hm h.producer hc <| List.length_eq_zero_iff.mp ?_⟩
  exact h.flow.pipe.trans h.pos

-- The producer is left with a consumer that has failed and will not read `n` bytes, for which there is no
-- room in the pipe.
structure FailedConsumer (p : Params) (k : ℕ) (s : State) : Prop where
  flow     : Flow p k s
  producer : ¬s.producer.pc.Exited
  consumer : s.consumer.pc.Exited

theorem FailedConsumer.progress (h : FailedConsumer p k s) (hz : k + p.capacity < p.count * p.size)
    (hg : ¬(s.main = .wait 1 ∧ s.producer.Calling p ∧ s.pipe.length = p.capacity)) :
    ∃ e s', step p s e = some s' ∧ FailedConsumer p k s' ∧
      s.main.rank + s.producer.rank p < s'.main.rank + s'.producer.rank p := by
  obtain ⟨hf, hxp, hxc⟩ := h
  have hm := hf.main
  simp only [State.MainInv] at hm
  cases hs : s.main <;> simp only [hs] at hm
  case forkProducer => simp [hm, Child.Pc.Exited] at hxc
  case forkConsumer => simp [hm, Child.Pc.Exited] at hxc
  case exited       => exact absurd hm.left hxp
  case wait j =>
    have hj := hm.right.right.trans <| State.exitedChildren_le_one <| .inl hxp
    by_cases hj₁ : j = 1
    case neg =>
      have he : stepMain s = some { s with main := .wait (j + 1) } := by
        simp only [stepMain, hs, State.exitedChildren, if_pos hxc]
        rw [if_pos (by omega), if_pos (by omega)]
      refine ⟨.main, _, he, ⟨hf.stepMain he, hxp, hxc⟩, ?_⟩
      simp [Main.rank]
    case pos =>
      by_cases hc : s.producer.Calling p
      case neg =>
        obtain ⟨c, hc⟩ := exists_stepProducer hm.left hxp hc
        have he : step p s .producer = some { s with producer := c } := by simp only [step, hc]; rfl
        obtain ⟨k', hf', hk⟩ := hf.step he
        have hx : ¬c.pc.Exited := fun hx => by
          have := Nat.mul_le_mul_right p.size <| (stepProducer_exited hc hx).right.right
          have := s.producer.le_pos (p := p)
          have := hf.pipe
          have := hf.room
          omega
        refine ⟨.producer, _, he, ⟨hk hxc ▸ hf', hx, hxc⟩, ?_⟩
        have := rank_lt_stepProducer hf.producer hc hx
        simp only [hs]
        omega
      case pos =>
        have hr : s.pipe.length < p.capacity := hf.room.lt_of_ne fun hr => hg ⟨hj₁ ▸ hs, hc, hr⟩
        obtain ⟨s', hs'⟩ := Option.isSome_iff_exists.mp <| hf.write_one hc hr
        have he := hs'
        obtain ⟨k', hf', hk⟩ := hf.step (e := .write 1) he
        simp only [write, Option.ite_none_right_eq_some, Option.some.injEq] at he
        obtain ⟨_, rfl⟩ := he
        refine ⟨.write 1, _, hs', ⟨hk hxc ▸ hf', hc.not_exited, hxc⟩, ?_⟩
        simp only [hs, Child.rank_advance hc.left]
        omega

theorem FailedConsumer.stuck (h : FailedConsumer p k s) (hz : k + p.capacity < p.count * p.size) :
    ∃ es s', (pipette p).exec s es = some s' ∧ Stuck p s' := by
  have le {s} (h : FailedConsumer p k s) :
      s.main.rank + s.producer.rank p ≤ 2 + ((p.count + 1) * (p.size + 3) + 5) := by
    have := h.flow.main.rank_le <| .inl h.producer
    have := h.flow.producer.rank_le
    omega
  have ⟨es, s', he, h, hm, hc, hp⟩ : ∃ es s', (pipette p).exec s es = some s' ∧ FailedConsumer p k s' ∧
      s'.main = .wait 1 ∧ s'.producer.Calling p ∧ s'.pipe.length = p.capacity :=
    System.exists_exec_of_work _ _ le (fun h => h.progress hz) h
  exact ⟨es, s', he, stuck_of_consumer_exited hm h.consumer hc hp⟩

-- Whether the child that returns early is one that the other child does not need any more: the other one
-- has exited, or there is nothing to be read, or the bytes that are left to be written fit into the pipe.
def Dispensable (p : Params) (s : State) : Event → Prop
  | .failProducer => s.consumer.pc.Exited ∨ p.count * p.size = 0
  | .failConsumer => s.producer.pc.Exited ∨ p.count * p.size ≤ s.consumer.pos p + p.capacity
  | _             => True

theorem Flow.after_failProducer (h : Flow p k s) (he : Pipette.failProducer p s = some s') :
    Flow p 0 s' ∧ s'.producer.pc.Exited ∧ s'.producer.pos p = 0 ∧ s'.consumer = s.consumer := by
  have h' := h.failProducer he
  simp only [Pipette.failProducer, Option.ite_none_right_eq_some, Option.some.injEq] at he
  obtain ⟨_, rfl⟩ := he
  have hi := h'.failed (-1) rfl
  have hp : Child.pos p { s.producer with pc := .exited (-1) } = 0 := by
    rw [if_neg (by decide)] at hi
    simpa [Child.pos] using .inl hi
  have hk : k = 0 := by
    have := h'.pipe.trans hp
    omega
  exact ⟨hk ▸ h', trivial, hp, rfl⟩

theorem Flow.after_failConsumer (h : Flow p k s) (he : Pipette.failConsumer p s = some s') :
    Flow p (s.consumer.pos p) s' ∧ s'.consumer.pc.Exited ∧ s'.producer = s.producer := by
  have h' := h.failConsumer he
  simp only [Pipette.failConsumer, Option.ite_none_right_eq_some, Option.some.injEq] at he
  obtain ⟨hf, rfl⟩ := he
  have hk : k = s.consumer.pos p := h.read fun ret hr => by simp [hr, Child.Calling] at hf
  exact ⟨hk ▸ h', trivial, rfl⟩

-- After a child has exited early the other processes do not get stuck in any run, if and only if the child
-- is dispensable.
theorem early_exit (h : (pipette p).Reachable s₁) (he : e = .failProducer ∨ e = .failConsumer)
    (hs : (pipette p).step s₁ e = some s₂) :
    (∀ es s, (pipette p).exec s₂ es = some s → ¬Stuck p s) ↔ Dispensable p s₁ e := by
  have ⟨k, hf⟩ := Flow.reachable h
  constructor
  case mp =>
    intro hn
    by_contra hd
    have ⟨es, s, he, hs⟩ : ∃ es s, (pipette p).exec s₂ es = some s ∧ Stuck p s := by
      rcases he with rfl | rfl
      case inl =>
        have ⟨hf, hx, hp, hc⟩ := hf.after_failProducer hs
        have ⟨hxc, hz⟩ := not_or.mp hd
        exact FailedProducer.stuck ⟨hf, hx, hp, hc ▸ hxc⟩ hz
      case inr =>
        have ⟨hf, hx, hp⟩ := hf.after_failConsumer hs
        have ⟨hxp, hz⟩ := not_or.mp hd
        exact FailedConsumer.stuck ⟨hf, hp ▸ hxp, hx⟩ <| Nat.lt_of_not_le hz
    exact hn es s he hs
  case mpr =>
    intro hd es s hes
    have ⟨k, hf, hr⟩ : ∃ k, Flow p k s₂ ∧ Released p k s₂ := by
      rcases he with rfl | rfl
      case inl =>
        have ⟨hf, hx, _, hc⟩ := hf.after_failProducer hs
        exact ⟨_, hf, hd.imp (fun h => ⟨hx, hc ▸ h⟩) fun h => .inl ⟨hx, h⟩⟩
      case inr =>
        have ⟨hf, hx, hp⟩ := hf.after_failConsumer hs
        exact ⟨_, hf, hd.imp (fun h => ⟨hp ▸ h, hx⟩) fun h => .inr ⟨hx, h⟩⟩
    have ⟨_, hf, hr⟩ := System.exec_invariant (I := fun s => ∃ k, Flow p k s ∧ Released p k s)
      (fun ⟨_, hf, hr⟩ he => hf.released_step hr he) ⟨k, hf, hr⟩ hes
    exact hf.not_stuck hr

-- The consumer fails after it has read a byte, when there is one byte left to be written.
theorem early_exit_two :
    ∃ s₁ s₂, (pipette ⟨1, 2, 1⟩).step s₁ .failConsumer = some s₂ ∧
      ∀ es s, (pipette ⟨1, 2, 1⟩).exec s₂ es = some s → ¬Stuck ⟨1, 2, 1⟩ s := by
  let sys := pipette ⟨1, 2, 1⟩
  let es : List Event := [
    .main, .main, .producer, .producer, .producer, .producer, .write 1,
    .consumer, .consumer, .consumer, .read 1, .consumer, .consumer]
  have he : (sys.exec init es).map (fun s => ((sys.step s .failConsumer).isSome, s.consumer.pos ⟨1, 2, 1⟩)) =
      some (true, 1) := by decide
  have ⟨s₁, he, h⟩ := Option.map_eq_some_iff.mp he
  have ⟨hs, hp⟩ := Prod.mk.inj h
  have ⟨s₂, hs⟩ := Option.isSome_iff_exists.mp hs
  have hd : Dispensable ⟨1, 2, 1⟩ s₁ .failConsumer := .inr <| by rw [hp]; decide
  exact ⟨s₁, s₂, hs, (early_exit (.of_exec he) (.inr rfl) hs).mpr hd⟩

-- The producer exits as its call of `calloc` fails. The consumer waits for a byte, and the parent waits for
-- the consumer while it has the pipe open itself.
theorem not_early_exit :
    ¬∀ p s₁ e s₂, (pipette p).Reachable s₁ → e = .failProducer ∨ e = .failConsumer →
      (pipette p).step s₁ e = some s₂ → ∀ es s, (pipette p).exec s₂ es = some s → ¬Stuck p s := by
  intro h
  let p : Params := ⟨1, 1, 1⟩
  have he : (((pipette p).exec init [.main, .main, .producer]).bind fun s₁ =>
      ((pipette p).step s₁ .failProducer).bind fun s₂ =>
      ((pipette p).exec s₂ [.consumer, .consumer, .consumer, .main]).map fun s =>
      (s.main, s.producer.pc, s.consumer.pc, s.consumer.len, s.pipe)) =
      some (.wait 1, .exited (-1), .transfer, 0, []) := by decide
  have ⟨s₁, he₁, he⟩ := Option.bind_eq_some_iff.mp he
  have ⟨s₂, hs, he⟩ := Option.bind_eq_some_iff.mp he
  have ⟨s, he, heq⟩ := Option.map_eq_some_iff.mp he
  obtain ⟨hm, hp, hc, hl, hb⟩ := by simpa only [Prod.mk.injEq] using heq
  refine h p s₁ .failProducer s₂ (.of_exec he₁) (.inl rfl) hs _ s he ?_
  exact stuck_of_producer_exited hm (by rw [hp]; trivial) ⟨hc, by rw [hl]; decide⟩ hb

end WorkloadKit.Pipette
