import Mathlib.Algebra.Order.Group.Nat
import Mathlib.Tactic.Ring
import WorkloadKit.Pipette.State

namespace WorkloadKit.Pipette

variable {p : Params} {s s' : State} {c c' : Child} {i k n : ℕ}

-- The bytes that the producer fills in for a block.
def block (p : Params) (i : ℕ) : List Byte :=
  List.replicate p.size (BitVec.ofNat 8 i)

-- The stream of the bytes of all blocks.
def stream (p : Params) (k : ℕ) : Byte :=
  BitVec.ofNat 8 (k / p.size)

theorem segment_stream (h : k + n ≤ p.size) :
    segment (stream p) (i * p.size + k) n = List.replicate n (BitVec.ofNat 8 i) := by
  refine segment_const fun j hj => ?_
  have hs : 0 < p.size := by omega
  rw [stream, Nat.add_assoc, Nat.mul_comm, Nat.mul_add_div hs, Nat.div_eq_of_lt (by omega), Nat.add_zero]

theorem chunk_le : chunk size len ≤ size - len := by
  rw [chunk]
  split <;> omega

theorem chunk_le_PAGE_SIZE : chunk size len ≤ PAGE_SIZE := by
  rw [chunk]
  split <;> omega

theorem chunk_pos (h : len < size) : 0 < chunk size len := by
  rw [chunk]
  split
  case isTrue => omega
  case isFalse => decide

-- What the statements of the children do, other than the calls of `write` and `read`.
inductive ProducerStep (p : Params) (c : Child) : Child → Prop
  | close    (hp : c.pc = .close) : ProducerStep p c { c with pc := .calloc }
  | calloc   (hp : c.pc = .calloc) :
    ProducerStep p c { c with pc := .test, i := 0, buf := List.replicate p.size 0 }
  | next     (hp : c.pc = .test) (hc : c.i < p.count) : ProducerStep p c { c with pc := .fill }
  | exit     (hp : c.pc = .test) (hc : ¬c.i < p.count) : ProducerStep p c { c with pc := .exited 0 }
  | fill     (hp : c.pc = .fill) :
    ProducerStep p c { c with buf := block p c.i, blocks := c.blocks ++ [block p c.i] }.startTransfer
  | transfer (hp : c.pc = .transfer) (hl : ¬c.len < p.size) :
    ProducerStep p c { c with pc := .test, i := c.i + 1 }

inductive ConsumerStep (p : Params) (c : Child) : Child → Prop
  | close    (hp : c.pc = .close) : ConsumerStep p c { c with pc := .calloc }
  | calloc   (hp : c.pc = .calloc) :
    ConsumerStep p c { c with pc := .test, i := 0, buf := List.replicate p.size 0 }
  | next     (hp : c.pc = .test) (hc : c.i < p.count) : ConsumerStep p c c.startTransfer
  | exit     (hp : c.pc = .test) (hc : ¬c.i < p.count) : ConsumerStep p c { c with pc := .exited 0 }
  | transfer (hp : c.pc = .transfer) (hl : ¬c.len < p.size) :
    ConsumerStep p c { c with pc := .test, i := c.i + 1, blocks := c.blocks ++ [c.buf] }

theorem ProducerStep.of_eq (he : stepProducer p c = some c') : ProducerStep p c c' := by
  cases hp : c.pc <;>
    simp only [stepProducer, hp, Option.some.injEq, reduceCtorEq, Option.ite_none_left_eq_some] at he
  case close    => exact he ▸ .close hp
  case calloc   => exact he ▸ .calloc hp
  case fill     => exact he ▸ .fill hp
  case transfer => exact he.right ▸ .transfer hp he.left
  case test =>
    subst he
    split
    case isTrue hc  => exact .next hp hc
    case isFalse hc => exact .exit hp hc

theorem ConsumerStep.of_eq (he : stepConsumer p c = some c') : ConsumerStep p c c' := by
  cases hp : c.pc <;>
    simp only [stepConsumer, hp, Option.some.injEq, reduceCtorEq, Option.ite_none_left_eq_some] at he
  case close    => exact he ▸ .close hp
  case calloc   => exact he ▸ .calloc hp
  case transfer => exact he.right ▸ .transfer hp he.left
  case test =>
    subst he
    split
    case isTrue hc  => exact .next hp hc
    case isFalse hc => exact .exit hp hc

namespace Child

theorem Calling.not_exited (h : c.Calling p) : ¬c.pc.Exited := by
  simp [h.left, Pc.Exited]

-- The number of bytes that a child has transferred.
def pos (p : Params) (c : Child) : ℕ :=
  match c.pc with
  | .transfer => c.i * p.size + c.len
  | _         => c.i * p.size

-- The calls of `do_transfer` of a child, which has not failed.
structure Inv (p : Params) (c : Child) : Prop where
  touched  : c.touched = List.range c.len
  len_le   : c.len ≤ p.size
  le_count : c.i ≤ p.count
  fresh    : c.pc = .unborn ∨ c.pc = .close ∨ c.pc = .calloc → c.i = 0
  lt_count : c.pc = .fill ∨ c.pc = .transfer → c.i < p.count
  complete : 0 < c.i → c.pc ≠ .transfer → c.len = p.size
  exited   : ∀ ret, c.pc = .exited ret → ret = 0 ∧ c.i = p.count

structure ProducerInv (p : Params) (c : Child) : Prop extends c.Inv p where
  blocks : c.blocks = (List.range (if c.pc = .transfer then c.i + 1 else c.i)).map (block p)
  buf    : c.pc = .transfer → c.buf = block p c.i

structure ConsumerInv (p : Params) (c : Child) : Prop extends c.Inv p where
  blocks : c.blocks = (List.range c.i).map (block p)
  buf    : c.pc = .test ∨ c.pc = .transfer → c.buf.length = p.size
  filled : c.pc = .transfer → c.buf.take c.len = segment (stream p) (c.i * p.size) c.len
  pc     : c.pc ≠ .fill

theorem Inv.advance (h : c.Inv p) (hp : c.pc = .transfer) (hn : n ≤ chunk p.size c.len) :
    (c.advance n).Inv p := by
  have hl : c.len + n ≤ p.size := by
    have := h.len_le
    have := hn.trans chunk_le
    omega
  refine ⟨?_, hl, h.le_count, h.fresh, h.lt_count, fun _ h => absurd hp h, h.exited⟩
  have hr := List.range'_append_1 (s := 0) (m := c.len) (n := n)
  rw [Nat.zero_add] at hr
  simp only [Child.advance, h.touched, List.range_eq_range', hr]

end Child

namespace Child

-- A statement outside of `do_transfer`.
theorem Inv.congr (h : c.Inv p) (c' : Child) (hp : c.pc ≠ .transfer) (hp' : c'.pc ≠ .transfer)
    (hi : c'.i = c.i) (hl : c'.len = c.len) (ht : c'.touched = c.touched)
    (hf : c'.pc = .unborn ∨ c'.pc = .close ∨ c'.pc = .calloc → c.i = 0)
    (hc : c'.pc = .fill → c.i < p.count)
    (hx : ∀ ret, c'.pc = .exited ret → ret = 0 ∧ c.i = p.count) : c'.Inv p where
  touched  := by rw [ht, hl, h.touched]
  len_le   := hl ▸ h.len_le
  le_count := hi ▸ h.le_count
  fresh    := fun hc => hi.trans <| hf hc
  lt_count := fun hb => hi ▸ hc (hb.resolve_right hp')
  complete := fun hz _ => hl.trans <| h.complete (hi ▸ hz) hp
  exited   := fun ret hr => hi ▸ hx ret hr

theorem Inv.startTransfer (h : c.Inv p) (hi : c.i < p.count) : c.startTransfer.Inv p where
  touched  := rfl
  len_le   := Nat.zero_le _
  le_count := h.le_count
  fresh    := by simp [Child.startTransfer]
  lt_count := fun _ => hi
  complete := fun _ hc => absurd rfl hc
  exited   := nofun

-- The return from `do_transfer`.
theorem Inv.finishTransfer (h : c.Inv p) (hp : c.pc = .transfer) (hl : ¬c.len < p.size)
    (blocks : List (List Byte)) : Inv p { c with pc := .test, i := c.i + 1, blocks } where
  touched  := h.touched
  len_le   := h.len_le
  le_count := h.lt_count <| .inr hp
  fresh    := by simp
  lt_count := by simp
  complete := fun _ _ => by have := h.len_le; simp only; omega
  exited   := nofun

theorem ProducerInv.step (h : c.ProducerInv p) (he : stepProducer p c = some c') :
    c'.ProducerInv p ∧ c'.pos p = c.pos p := by
  have hi := h.toInv
  have hb := h.blocks
  cases ProducerStep.of_eq he <;> simp only [‹c.pc = _›, if_pos, reduceCtorEq, if_false] at hb
  case close hp =>
    have hi' := hi.congr { c with pc := .calloc } (by simp [hp]) nofun rfl rfl rfl
      (fun _ => hi.fresh <| by simp [hp]) nofun nofun
    exact ⟨{ hi' with blocks := hb, buf := nofun }, by simp [pos, hp]⟩
  case calloc hp =>
    have hz := hi.fresh <| by simp [hp]
    have hi' := hi.congr { c with pc := .test, i := 0, buf := List.replicate p.size 0 } (by simp [hp])
      nofun hz.symm rfl rfl (by simp) nofun nofun
    exact ⟨{ hi' with blocks := hz ▸ hb, buf := nofun }, by simp [pos, hp, hz]⟩
  case next hp hc =>
    have hi' := hi.congr { c with pc := .fill } (by simp [hp]) nofun rfl rfl rfl (by simp)
      (fun _ => hc) nofun
    exact ⟨{ hi' with blocks := hb, buf := nofun }, by simp [pos, hp]⟩
  case exit hp hc =>
    have hi' := hi.congr { c with pc := .exited 0 } (by simp [hp]) nofun rfl rfl rfl (by simp) nofun
      fun ret hr => ⟨(Pc.exited.inj hr).symm, by have := hi.le_count; omega⟩
    exact ⟨{ hi' with blocks := hb, buf := nofun }, by simp [pos, hp]⟩
  case fill hp =>
    have hc := hi.lt_count <| by simp [hp]
    have hi' : Inv p { c with buf := block p c.i, blocks := c.blocks ++ [block p c.i] } :=
      hi.congr _ (by simp [hp]) (by simp [hp]) rfl rfl rfl (by simp [hp]) (fun _ => hc) (by simp [hp])
    refine ⟨{ hi'.startTransfer hc with blocks := ?_, buf := fun _ => rfl },
      by simp [pos, hp, startTransfer]⟩
    simpa [startTransfer, List.range_succ, block] using hb
  case transfer hp hl =>
    have := hi.len_le
    refine ⟨{ hi.finishTransfer hp hl c.blocks with blocks := hb, buf := nofun }, ?_⟩
    simp only [pos, hp, Nat.add_mul]
    omega

theorem ConsumerInv.step (h : c.ConsumerInv p) (he : stepConsumer p c = some c') :
    c'.ConsumerInv p ∧ c'.pos p = c.pos p := by
  have hi := h.toInv
  have hb := h.blocks
  cases ConsumerStep.of_eq he
  case close hp =>
    have hi' := hi.congr { c with pc := .calloc } (by simp [hp]) nofun rfl rfl rfl
      (fun _ => hi.fresh <| by simp [hp]) nofun nofun
    exact ⟨{ hi' with blocks := hb, buf := nofun, filled := nofun, pc := nofun }, by simp [pos, hp]⟩
  case calloc hp =>
    have hz := hi.fresh <| by simp [hp]
    have hi' := hi.congr { c with pc := .test, i := 0, buf := List.replicate p.size 0 } (by simp [hp])
      nofun hz.symm rfl rfl (by simp) nofun nofun
    refine ⟨{ hi' with blocks := hz ▸ hb, buf := by simp, filled := nofun, pc := nofun }, ?_⟩
    simp [pos, hp, hz]
  case next hp hc =>
    exact ⟨{ hi.startTransfer hc with
      blocks := hb
      buf    := fun _ => h.buf <| .inl hp
      filled := fun _ => rfl
      pc     := nofun }, by simp [pos, hp, startTransfer]⟩
  case exit hp hc =>
    have hi' := hi.congr { c with pc := .exited 0 } (by simp [hp]) nofun rfl rfl rfl (by simp) nofun
      fun ret hr => ⟨(Pc.exited.inj hr).symm, by have := hi.le_count; omega⟩
    exact ⟨{ hi' with blocks := hb, buf := by simp, filled := nofun, pc := nofun }, by simp [pos, hp]⟩
  case transfer hp hl =>
    have := hi.len_le
    have hlen : c.len = p.size := by omega
    have hbuf : c.buf = block p c.i := by
      have hs : segment (stream p) (c.i * p.size) p.size = block p c.i :=
        segment_stream (k := 0) (Nat.zero_add _).le
      have hf := h.filled hp
      rwa [List.take_of_length_le ((h.buf <| .inr hp).trans hlen.symm).le, hlen, hs] at hf
    refine ⟨{ hi.finishTransfer hp hl _ with
      blocks := by simp [List.range_succ, hb, hbuf]
      buf    := fun _ => h.buf <| .inr hp
      filled := nofun
      pc     := nofun }, ?_⟩
    simp only [pos, hp, Nat.add_mul]
    omega

theorem pos_advance (hp : c.pc = .transfer) : (c.advance n).pos p = c.pos p + n := by
  simp [pos, advance, hp, Nat.add_assoc]

-- The bytes that are written are the next ones of the stream.
theorem ProducerInv.write (h : c.ProducerInv p) (hc : c.Calling p) (hn : n ≤ chunk p.size c.len) :
    (c.advance n).ProducerInv p ∧
    (c.buf.drop c.len).take n = segment (stream p) (c.pos p) n := by
  have ⟨hp, _⟩ := hc
  have := hn.trans chunk_le
  refine ⟨{ h.toInv.advance hp hn with blocks := h.blocks, buf := h.buf }, ?_⟩
  have hs : segment (stream p) (c.pos p) n = List.replicate n (BitVec.ofNat 8 c.i) := by
    simp only [pos, hp]
    exact segment_stream <| by omega
  simp only [hs, h.buf hp, block, List.drop_replicate, List.take_replicate]
  congr 1
  omega

theorem ConsumerInv.read (h : c.ConsumerInv p) (hc : c.Calling p) (hn : n ≤ chunk p.size c.len) :
    { c.advance n with
      buf := splice c.buf c.len <| segment (stream p) (c.pos p) n }.ConsumerInv p := by
  have ⟨hp, hl⟩ := hc
  have := hn.trans chunk_le
  have hb := h.buf <| .inr hp
  have hlen : c.len + (segment (stream p) (c.pos p) n).length ≤ c.buf.length := by
    rw [segment_length]
    omega
  have hi := h.toInv.advance hp hn
  have hi : Inv p { c.advance n with buf := splice c.buf c.len <| segment (stream p) (c.pos p) n } :=
    ⟨hi.touched, hi.len_le, hi.le_count, hi.fresh, hi.lt_count, hi.complete, hi.exited⟩
  refine { hi with
    blocks := h.blocks
    buf    := fun _ => (splice_length hlen).trans hb
    filled := fun _ => ?_
    pc     := h.pc }
  have hs := splice_take (segment (stream p) (c.pos p) n) (show c.len ≤ c.buf.length by omega)
  rw [segment_length] at hs
  simp only [advance, hs, h.filled hp, ←segment_append]
  simp only [pos, hp]

end Child

end WorkloadKit.Pipette
