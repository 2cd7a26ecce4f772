import WorkloadKit.Pipette.Theorems.Invariant

namespace WorkloadKit.Pipette

variable {p : Params} {s s' : State} {e : Event} {c c' : Child}

-- No call fails, and each call of `write` or `read` transfers something.
def Succeeds (_ : State) : Event → Prop
  | .main | .producer | .consumer | .write _ => True
  | .read n                                  => 1 ≤ n
  | .failProducer | .failConsumer            => False

-- Which of the children exist, and how many of them have exited at least.
def State.MainInv (s : State) : Prop :=
  match s.main with
  | .forkProducer => s.producer.pc = .unborn ∧ s.consumer.pc = .unborn
  | .forkConsumer => s.producer.pc ≠ .unborn ∧ s.consumer.pc = .unborn
  | .wait k       => s.producer.pc ≠ .unborn ∧ s.consumer.pc ≠ .unborn ∧ k ≤ s.exitedChildren
  | .exited       => s.producer.pc.Exited ∧ s.consumer.pc.Exited

structure Inv (p : Params) (s : State) : Prop where
  producer : s.producer.ProducerInv p
  consumer : s.consumer.ConsumerInv p
  pos_le   : s.consumer.pos p ≤ s.producer.pos p
  pipe     : s.pipe = segment (stream p) (s.consumer.pos p) (s.producer.pos p - s.consumer.pos p)
  main     : s.MainInv

namespace State.MainInv

theorem setProducer (h : s.MainInv) (hu : s.producer.pc ≠ .unborn) (hu' : c.pc ≠ .unborn)
    (hx : ¬s.producer.pc.Exited) : { s with producer := c }.MainInv := by
  simp only [MainInv] at h ⊢
  cases hm : s.main <;> simp only [hm] at h ⊢
  case forkProducer => exact absurd h.left hu
  case forkConsumer => exact ⟨hu', h.right⟩
  case exited       => exact absurd h.left hx
  case wait k =>
    refine ⟨hu', h.right.left, h.right.right.trans ?_⟩
    simp only [exitedChildren, if_neg hx]
    omega

theorem setConsumer (h : s.MainInv) (hu : s.consumer.pc ≠ .unborn) (hu' : c.pc ≠ .unborn)
    (hx : ¬s.consumer.pc.Exited) : { s with consumer := c }.MainInv := by
  simp only [MainInv] at h ⊢
  cases hm : s.main <;> simp only [hm] at h ⊢
  case forkProducer => exact absurd h.right hu
  case forkConsumer => exact absurd h.right hu
  case exited       => exact absurd h.right hx
  case wait k =>
    refine ⟨h.left, hu', h.right.right.trans ?_⟩
    simp only [exitedChildren, if_neg hx]
    omega

theorem wait (h : s.MainInv) (hm : s.main = .wait k) (he : stepMain s = some s') :
    ∃ m, s' = { s with main := m } ∧ { s with main := m }.MainInv := by
  simp only [MainInv, hm] at h
  simp only [stepMain, hm] at he
  split at he
  case isTrue =>
    split at he <;> cases he
    case isTrue hk => exact ⟨_, rfl, h.left, h.right.left, hk⟩
  case isFalse hk =>
    cases he
    have := h.right.right
    simp only [exitedChildren] at this
    refine ⟨_, rfl, ?_, ?_⟩
    · by_contra hx
      rw [if_neg hx] at this
      split at this <;> omega
    · by_contra hx
      rw [if_neg hx] at this
      split at this <;> omega

end State.MainInv

theorem stepProducer_pc (he : stepProducer p c = some c') :
    c.pc ≠ .unborn ∧ c'.pc ≠ .unborn ∧ ¬c.pc.Exited := by
  cases ProducerStep.of_eq he <;> simp_all [Child.startTransfer, Child.Pc.Exited]

theorem stepConsumer_pc (he : stepConsumer p c = some c') :
    c.pc ≠ .unborn ∧ c'.pc ≠ .unborn ∧ ¬c.pc.Exited := by
  cases ConsumerStep.of_eq he <;> simp_all [Child.startTransfer, Child.Pc.Exited]

theorem Child.Inv.init : Child.init.Inv p where
  touched  := rfl
  len_le   := Nat.zero_le _
  le_count := Nat.zero_le _
  fresh _  := rfl
  lt_count := by simp [Child.init]
  complete := nofun
  exited   := nofun

namespace Inv

theorem init : Inv p init where
  producer := { Child.Inv.init with blocks := rfl, buf := nofun }
  consumer := { Child.Inv.init with
    blocks := rfl
    buf    := by simp [Pipette.init, Child.init]
    filled := nofun
    pc     := nofun }
  pos_le   := le_rfl
  pipe     := by simp [Pipette.init]
  main     := ⟨rfl, rfl⟩

theorem stepMain (hi : Inv p s) (he : stepMain s = some s') : Inv p s' := by
  have ⟨hp, hc, hl, hb, hm⟩ := hi
  simp only [State.MainInv] at hm
  cases h : s.main <;> simp only [Pipette.stepMain, h, Option.some.injEq, reduceCtorEq] at he hm
  case forkProducer =>
    subst he
    have hu := hm.left
    have hz := hp.fresh <| .inl hu
    have hp' := hp.congr { s.producer with pc := .close } (by simp [hu]) (by rintro ⟨⟩) rfl rfl rfl
      (fun _ => hz) (by simp) (by simp)
    have hpos : s.producer.pos p = Child.pos p { s.producer with pc := .close } := by simp [Child.pos, hu]
    exact ⟨{ hp' with blocks := by simpa [hu] using hp.blocks, buf := by rintro ⟨⟩ }, hc, hpos ▸ hl, hpos ▸ hb,
      by rintro ⟨⟩, hm.right⟩
  case forkConsumer =>
    subst he
    have hu := hm.right
    have hz := hc.fresh <| .inl hu
    have hc' := hc.congr { s.consumer with pc := .close } (by simp [hu]) (by rintro ⟨⟩) rfl rfl rfl
      (fun _ => hz) (by simp) (by simp)
    have hpos : s.consumer.pos p = Child.pos p { s.consumer with pc := .close } := by simp [Child.pos, hu]
    exact ⟨hp, { hc' with blocks := hc.blocks, buf := by simp, filled := by rintro ⟨⟩, pc := by rintro ⟨⟩ },
      hpos ▸ hl, hpos ▸ hb, hm.left, by rintro ⟨⟩, Nat.zero_le _⟩
  case wait k =>
    obtain ⟨m, rfl, hm⟩ := hi.main.wait h <| by simpa only [Pipette.stepMain, h] using he
    exact ⟨hp, hc, hl, hb, hm⟩

theorem step (hi : Inv p s) (hs : Succeeds s e) (he : step p s e = some s') : Inv p s' := by
  have ⟨hp, hc, hl, hb, hm⟩ := hi
  cases e
  case main => exact hi.stepMain he
  case producer =>
    obtain ⟨c, hc', rfl⟩ := Option.map_eq_some_iff.mp he
    have ⟨hp, hpos⟩ := hp.step hc'
    have ⟨hu, hu', hx⟩ := stepProducer_pc hc'
    exact ⟨hp, hc, hpos ▸ hl, hpos ▸ hb, hm.setProducer hu hu' hx⟩
  case consumer =>
    obtain ⟨c, hc', rfl⟩ := Option.map_eq_some_iff.mp he
    have ⟨hc, hpos⟩ := hc.step hc'
    have ⟨hu, hu', hx⟩ := stepConsumer_pc hc'
    exact ⟨hp, hc, hpos ▸ hl, hpos ▸ hb, hm.setConsumer hu hu' hx⟩
  case write n =>
    simp only [Pipette.step, Pipette.write, Option.ite_none_right_eq_some, Option.some.injEq] at he
    obtain ⟨⟨hcall, _, _, hn, _⟩, rfl⟩ := he
    have ⟨hp, hbytes⟩ := hp.write hcall hn
    have hpos := Child.pos_advance (p := p) (n := n) hcall.left
    have hpc := hcall.left
    refine ⟨hp, hc, hl.trans <| hpos ▸ Nat.le_add_right .., ?_,
      hm.setProducer (by simp [hpc]) (by simp [Child.advance, hpc]) hcall.not_exited⟩
    simp only [hbytes, hb, hpos]
    exact segment_append_of_le hl
  case read n =>
    simp only [Pipette.step, Pipette.read, Option.ite_none_right_eq_some, Option.some.injEq] at he
    obtain ⟨⟨hcall, hn, hlen, _⟩, rfl⟩ := he
    have hpos := Child.pos_advance (p := p) (n := n) hcall.left
    have hpc := hcall.left
    rw [hb, segment_length] at hlen
    have htake : s.pipe.take n = segment (stream p) (s.consumer.pos p) n := by rw [hb, segment_take hlen]
    have hc := hc.read hcall hn
    rw [←htake] at hc
    refine ⟨hp, hc, ?_, ?_,
      hm.setConsumer (by simp [hpc]) (by simp [Child.advance, hpc]) hcall.not_exited⟩
    · change (s.consumer.advance n).pos p ≤ s.producer.pos p
      omega
    · change s.pipe.drop n = segment (stream p) ((s.consumer.advance n).pos p)
        (s.producer.pos p - (s.consumer.advance n).pos p)
      rw [hb, segment_drop hlen, hpos, Nat.sub_sub]
  case failProducer => exact hs.elim
  case failConsumer => exact hs.elim

theorem reachable (h : (pipette p).ReachableUnder Succeeds s) : Inv p s :=
  h.invariant init fun hi hs he => hi.step hs he

end Inv
end WorkloadKit.Pipette
