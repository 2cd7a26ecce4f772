import WorkloadKit.Pipette.Theorems.Blocks

namespace WorkloadKit.Pipette

variable {p : Params} {s s' : State} {e : Event} {c c' : Child} {k n : ℕ}

namespace Child

-- The counters of a child, which may also have failed.
structure Counts (p : Params) (c : Child) : Prop where
  len_le   : c.pc = .transfer → c.len ≤ p.size
  le_count : c.i ≤ p.count
  fresh    : c.pc = .unborn ∨ c.pc = .close ∨ c.pc = .calloc → c.i = 0
  lt_count : c.pc = .fill ∨ c.pc = .transfer → c.i < p.count

theorem Counts.pos_lt (h : c.Counts p) (hc : c.Calling p) : c.pos p < p.count * p.size :=
  hc.pos_lt <| h.lt_count <| .inr hc.left

-- A statement outside of `do_transfer`, which leaves the number of transferred bytes unchanged.
theorem Counts.congr (h : c.Counts p) (c' : Child) (hp : c.pc ≠ .transfer) (hp' : c'.pc ≠ .transfer)
    (hi : c'.i = c.i) (hf : c'.pc = .unborn ∨ c'.pc = .close ∨ c'.pc = .calloc → c.i = 0)
    (hc : c'.pc = .fill → c.i < p.count) : c'.Counts p ∧ c'.pos p = c.pos p := by
  refine ⟨⟨fun h => absurd h hp', hi ▸ h.le_count, fun h => hi.trans <| hf h, ?_⟩, ?_⟩
  · exact fun hb => hi ▸ hc (hb.resolve_right hp')
  · cases h : c.pc <;> cases h' : c'.pc <;> simp_all [pos]

theorem Counts.startTransfer (h : c.Counts p) (hp : c.pc ≠ .transfer) (hi : c.i < p.count) :
    c.startTransfer.Counts p ∧ c.startTransfer.pos p = c.pos p := by
  refine ⟨⟨fun _ => Nat.zero_le _, h.le_count, by simp [Child.startTransfer], fun _ => hi⟩, ?_⟩
  cases h : c.pc <;> simp_all [pos, Child.startTransfer]

theorem Counts.finishTransfer (h : c.Counts p) (hp : c.pc = .transfer) (hl : ¬c.len < p.size)
    (blocks : List (List Byte)) : Counts p { c with pc := .test, i := c.i + 1, blocks } ∧
      pos p { c with pc := .test, i := c.i + 1, blocks } = c.pos p := by
  have := h.len_le hp
  refine ⟨⟨nofun, h.lt_count <| .inr hp, by simp, by simp⟩, ?_⟩
  simp only [pos, hp, Nat.add_mul]
  omega

theorem Counts.stepProducer (h : c.Counts p) (he : stepProducer p c = some c') :
    c'.Counts p ∧ c'.pos p = c.pos p := by
  cases ProducerStep.of_eq he
  case close hp => exact h.congr _ (by simp [hp]) nofun rfl (fun _ => h.fresh <| by simp [hp]) nofun
  case calloc hp => exact h.congr _ (by simp [hp]) nofun (h.fresh <| by simp [hp]).symm (by simp) nofun
  case next hp hc => exact h.congr _ (by simp [hp]) nofun rfl (by simp) fun _ => hc
  case exit hp _ => exact h.congr _ (by simp [hp]) nofun rfl (by simp) nofun
  case fill hp =>
    have hf : Counts p { c with buf := block p c.i, blocks := c.blocks ++ [block p c.i] } :=
      ⟨h.len_le, h.le_count, h.fresh, h.lt_count⟩
    exact hf.startTransfer (by simp [hp]) <| h.lt_count <| .inl hp
  case transfer hp hl => exact h.finishTransfer hp hl c.blocks

theorem Counts.stepConsumer (h : c.Counts p) (he : stepConsumer p c = some c') :
    c'.Counts p ∧ c'.pos p = c.pos p := by
  cases ConsumerStep.of_eq he
  case close hp => exact h.congr _ (by simp [hp]) nofun rfl (fun _ => h.fresh <| by simp [hp]) nofun
  case calloc hp => exact h.congr _ (by simp [hp]) nofun (h.fresh <| by simp [hp]).symm (by simp) nofun
  case next hp hc => exact h.startTransfer (by simp [hp]) hc
  case exit hp _ => exact h.congr _ (by simp [hp]) nofun rfl (by simp) nofun
  case transfer hp hl => exact h.finishTransfer hp hl _

theorem Counts.advance (h : c.Counts p) (hc : c.Calling p) (hn : n ≤ chunk p.size c.len) :
    (c.advance n).Counts p := by
  have := hn.trans chunk_le
  have := hc.right
  refine ⟨fun _ => ?_, h.le_count, h.fresh, h.lt_count⟩
  simp only [Child.advance]
  omega

end Child

theorem stepProducer_exited (he : stepProducer p c = some c') (hx : c'.pc.Exited) :
    c'.pc = .exited 0 ∧ c'.i = c.i ∧ p.count ≤ c.i := by
  cases ProducerStep.of_eq he
  case exit hc => exact ⟨rfl, rfl, Nat.le_of_not_lt hc⟩
  all_goals contradiction

theorem stepConsumer_exited (he : stepConsumer p c = some c') (hx : c'.pc.Exited) : p.count ≤ c.i := by
  cases ConsumerStep.of_eq he
  case exit hc => exact Nat.le_of_not_lt hc
  all_goals contradiction

theorem stepProducer_buf (he : stepProducer p c = some c') (hp : c'.pc = .transfer) :
    c'.buf.length = p.size := by
  cases ProducerStep.of_eq he
  case fill => exact List.length_replicate
  all_goals contradiction

theorem stepConsumer_ne_fill (he : stepConsumer p c = some c') : c'.pc ≠ .fill := by
  cases ConsumerStep.of_eq he <;> nofun

-- The bytes that have been written are those that have been read, of which there are `k`, and those in the
-- pipe. If the producer fails then it does so before it writes anything, as a call of `write` can not fail
-- while the parent could read from the pipe.
structure Flow (p : Params) (k : ℕ) (s : State) : Prop where
  producer : s.producer.Counts p
  consumer : s.consumer.Counts p
  failed   : ∀ ret, s.producer.pc = .exited ret → s.producer.i = if ret = 0 then p.count else 0
  pc       : s.consumer.pc ≠ .fill
  buf      : s.producer.pc = .transfer → s.producer.buf.length = p.size
  read     : (∀ ret, s.consumer.pc = .exited ret → ret = 0) → k = s.consumer.pos p
  pipe     : s.pipe.length + k = s.producer.pos p
  room     : s.pipe.length ≤ p.capacity
  main     : s.MainInv

namespace Flow

theorem init : Flow p 0 init where
  producer := ⟨nofun, Nat.zero_le _, fun _ => rfl, by simp [Pipette.init, Child.init]⟩
  consumer := ⟨nofun, Nat.zero_le _, fun _ => rfl, by simp [Pipette.init, Child.init]⟩
  failed   := nofun
  pc       := nofun
  buf      := nofun
  read _   := by simp [Pipette.init, Child.init, Child.pos]
  pipe     := by simp [Pipette.init, Child.init, Child.pos]
  room     := Nat.zero_le _
  main     := ⟨rfl, rfl⟩

theorem stepMain (h : Flow p k s) (he : stepMain s = some s') : Flow p k s' := by
  have hm := h.main
  simp only [State.MainInv] at hm
  cases hs : s.main <;> simp only [Pipette.stepMain, hs, Option.some.injEq, reduceCtorEq] at he hm
  case forkProducer =>
    subst he
    have hu := hm.left
    obtain ⟨hc, hp⟩ := h.producer.congr { s.producer with pc := .close } (by simp [hu]) (by rintro ⟨⟩) rfl
      (fun _ => h.producer.fresh <| .inl hu) (by rintro ⟨⟩)
    exact { h with
      producer := hc
      failed   := by rintro _ ⟨⟩
      buf      := by rintro ⟨⟩
      pipe     := hp ▸ h.pipe
      main     := ⟨by rintro ⟨⟩, hm.right⟩ }
  case forkConsumer =>
    subst he
    have hu := hm.right
    obtain ⟨hc, hp⟩ := h.consumer.congr { s.consumer with pc := .close } (by simp [hu]) (by rintro ⟨⟩) rfl
      (fun _ => h.consumer.fresh <| .inl hu) (by rintro ⟨⟩)
    exact { h with
      consumer := hc
      pc       := by rintro ⟨⟩
      read     := fun _ => (h.read <| by simp [hu]).trans hp.symm
      main     := ⟨hm.left, by rintro ⟨⟩, Nat.zero_le _⟩ }
  case wait j =>
    obtain ⟨m, rfl, hm⟩ := h.main.wait hs <| by simpa only [Pipette.stepMain, hs] using he
    exact { h with main := hm }

theorem readOpen (h : Flow p k s) (hx : ¬s.producer.pc.Exited) : s.ReadOpen := by
  refine .inl fun hm => hx ?_
  have h := h.main
  rw [State.MainInv, hm] at h
  exact h.left

theorem stepProducer (h : Flow p k s) (hc : Pipette.stepProducer p s.producer = some c) :
    Flow p k { s with producer := c } := by
  have ⟨hu, hu', hx⟩ := stepProducer_pc hc
  have ⟨hp, hpos⟩ := h.producer.stepProducer hc
  refine { h with
    producer := hp
    failed   := fun ret hr => ?_
    buf      := stepProducer_buf hc
    pipe     := hpos ▸ h.pipe
    main     := h.main.setProducer hu hu' hx }
  have ⟨hz, hi, hl⟩ := stepProducer_exited hc <| by rw [hr]; trivial
  rw [if_pos <| Child.Pc.exited.inj <| hr.symm.trans hz]
  exact hp.le_count.antisymm <| hl.trans_eq hi.symm

theorem stepConsumer (h : Flow p k s) (hc : Pipette.stepConsumer p s.consumer = some c) :
    Flow p k { s with consumer := c } := by
  have ⟨hu, hu', hx⟩ := stepConsumer_pc hc
  have ⟨hc', hpos⟩ := h.consumer.stepConsumer hc
  have hn : ∀ ret, s.consumer.pc ≠ .exited ret := fun ret hr => by simp [hr, Child.Pc.Exited] at hx
  exact { h with
    consumer := hc'
    pc       := stepConsumer_ne_fill hc
    read     := fun _ => (h.read fun ret hr => absurd hr <| hn ret).trans hpos.symm
    main     := h.main.setConsumer hu hu' hx }

theorem write_step (h : Flow p k s) (he : Pipette.write p s n = some s') : Flow p k s' := by
  simp only [Pipette.write, Option.ite_none_right_eq_some, Option.some.injEq] at he
  obtain ⟨⟨hcall, _, _, hn, hr⟩, rfl⟩ := he
  have hpc := hcall.left
  have hpos := Child.pos_advance (p := p) (n := n) hpc
  have hlen : ((s.producer.buf.drop s.producer.len).take n).length = n := by
    have := hn.trans chunk_le
    rw [List.length_take, List.length_drop, h.buf hpc]
    omega
  have := h.pipe
  refine { h with
    producer := h.producer.advance hcall hn
    failed   := by simp [Child.advance, hpc]
    buf      := fun _ => h.buf hpc
    pipe     := ?_
    room     := by rw [List.length_append, hlen]; exact hr
    main     := h.main.setProducer (by simp [hpc]) (by simp [Child.advance, hpc]) hcall.not_exited }
  simp only [List.length_append, hlen]
  omega

theorem read_step (h : Flow p k s) (he : Pipette.read p s n = some s') :
    Flow p (k + n) s' ∧ ¬s.consumer.pc.Exited := by
  simp only [Pipette.read, Option.ite_none_right_eq_some, Option.some.injEq] at he
  obtain ⟨⟨hcall, hn, hlen, _⟩, rfl⟩ := he
  have hpc := hcall.left
  have hpos := Child.pos_advance (p := p) (n := n) hpc
  have hk := h.read <| by simp [hpc]
  have := h.pipe
  have := h.room
  have hc := h.consumer.advance hcall hn
  refine ⟨{ h with
    consumer := ⟨hc.len_le, hc.le_count, hc.fresh, hc.lt_count⟩
    pc       := h.pc
    read     := fun _ => ?_
    pipe     := by simp only [List.length_drop]; omega
    room     := by simp only [List.length_drop]; omega
    main     := h.main.setConsumer (by simp [hpc]) (by simp [Child.advance, hpc]) hcall.not_exited },
    hcall.not_exited⟩
  change k + n = (s.consumer.advance n).pos p
  omega

theorem failProducer (h : Flow p k s) (he : Pipette.failProducer p s = some s') : Flow p k s' := by
  simp only [Pipette.failProducer, Option.ite_none_right_eq_some, Option.some.injEq] at he
  obtain ⟨hf, rfl⟩ := he
  have hx : ¬s.producer.pc.Exited := by
    rcases hf with hp | ⟨hc, _⟩
    · simp [hp, Child.Pc.Exited]
    · exact hc.not_exited
  have hp := hf.resolve_right fun hc => hc.right <| h.readOpen hx
  have hz := h.producer.fresh <| by simp [hp]
  obtain ⟨hc, hpos⟩ := h.producer.congr { s.producer with pc := .exited (-1) } (by simp [hp]) (by rintro ⟨⟩) rfl
    (by simp) (by rintro ⟨⟩)
  exact { h with
    producer := hc
    failed   := fun ret hr => by simp [←Child.Pc.exited.inj hr, hz]
    buf      := by rintro ⟨⟩
    pipe     := hpos ▸ h.pipe
    main     := h.main.setProducer (by simp [hp]) (by rintro ⟨⟩) hx }

theorem failConsumer (h : Flow p k s) (he : Pipette.failConsumer p s = some s') : Flow p k s' := by
  simp only [Pipette.failConsumer, Option.ite_none_right_eq_some, Option.some.injEq] at he
  obtain ⟨hf, rfl⟩ := he
  have hpc : s.consumer.pc = .calloc ∨ s.consumer.pc = .transfer := hf.imp_right And.left
  refine { h with
    consumer := ⟨by rintro ⟨⟩, h.consumer.le_count, by simp, by simp⟩
    pc       := by rintro ⟨⟩
    read     := fun hr => absurd (hr _ rfl) (by decide)
    main     := h.main.setConsumer ?_ (by rintro ⟨⟩) ?_ }
  · rcases hpc with hp | hp <;> simp [hp]
  · rcases hpc with hp | hp <;> simp [hp, Child.Pc.Exited]

-- As the consumer only reads while it is running, `k` stays the same after it has exited.
theorem step (h : Flow p k s) (he : step p s e = some s') :
    ∃ k', Flow p k' s' ∧ (s.consumer.pc.Exited → k' = k) := by
  cases e
  case main         => exact ⟨k, h.stepMain he, fun _ => rfl⟩
  case producer     =>
    obtain ⟨c, hc, rfl⟩ := Option.map_eq_some_iff.mp he
    exact ⟨k, h.stepProducer hc, fun _ => rfl⟩
  case consumer     =>
    obtain ⟨c, hc, rfl⟩ := Option.map_eq_some_iff.mp he
    exact ⟨k, h.stepConsumer hc, fun _ => rfl⟩
  case write n      => exact ⟨k, h.write_step he, fun _ => rfl⟩
  case read n       =>
    have ⟨hr, hx⟩ := h.read_step he
    exact ⟨k + n, hr, fun hc => absurd hc hx⟩
  case failProducer => exact ⟨k, h.failProducer he, fun _ => rfl⟩
  case failConsumer => exact ⟨k, h.failConsumer he, fun _ => rfl⟩

theorem reachable (h : (pipette p).Reachable s) : ∃ k, Flow p k s :=
  h.invariant (I := fun s => ∃ k, Flow p k s) ⟨0, init⟩ fun ⟨_, h⟩ _ he =>
    have ⟨k, h, _⟩ := Flow.step h he
    ⟨k, h⟩

end Flow

end WorkloadKit.Pipette
