import WorkloadKit.Pipeline.Theorems.Queue

namespace WorkloadKit.Pipeline

variable {p : Params} {f : Stream' CChar} {prod cons : Counts} {q q' q₀ q₁ q₀' q₁' : Queue}

-- The contents of a queue whose producer has set each item to `c`, up to the end marker.
def items (p : Params) (c : CChar) : Stream' CChar :=
  fun j => if j < p.maxItems then c else -1

theorem items_get_of_lt (h : j < p.maxItems) : (items p c).get j = c :=
  if_pos h

theorem items_get_maxItems : (items p c).get p.maxItems = -1 :=
  if_neg <| lt_irrefl _

-- What a worker decides about the value it has got from its queue.
theorem items_get_neg_iff (hs : p.charSigned) (hc : 0 ≤ c.toInt) :
    ((items p c).get j).promote p.charSigned < 0 ↔ p.maxItems ≤ j := by
  by_cases h : j < p.maxItems
  case pos => simp [items_get_of_lt h, CChar.promote, hs]; omega
  case neg => simp [items, Stream'.get, h, CChar.promote, hs, not_lt.mp h]

namespace Worker1

def producer (w : Worker1) : Counts :=
  let k := w.processed
  match w.pc with
  | .waitFree                            => ⟨k, k, k, k⟩
  | .test | .putMarker | .action | .put  => ⟨k + 1, k, k, k⟩
  | .postMarker | .advance               => ⟨k + 1, k + 1, k, k⟩
  | .postBusy                            => ⟨k + 1, k + 1, k + 1, k⟩
  | .reset | .count                      => ⟨k + 1, k + 1, k + 1, k + 1⟩
  | .returned                            => ⟨k + 1, k + 1, k, k + 1⟩

def Inv (p : Params) (w : Worker1) : Prop :=
  match w.pc with
  | .waitFree | .test =>
    w.processed ≤ p.maxItems ∧ w.acted = .replicate w.processed 1 ∧ w.c = 0
  | .putMarker | .postMarker | .returned =>
    w.processed = p.maxItems ∧ w.acted = .replicate w.processed 1
  | .action =>
    w.processed < p.maxItems ∧ w.acted = .replicate w.processed 1 ∧ w.c = 0
  | .put | .advance | .postBusy | .reset =>
    w.processed < p.maxItems ∧ w.acted = .replicate (w.processed + 1) 1 ∧ w.c = 1
  | .count =>
    w.processed < p.maxItems ∧ w.acted = .replicate (w.processed + 1) 1 ∧ w.c = 0

theorem posts_le_accesses (w : Worker1) : w.producer.posts ≤ w.producer.accesses := by
  obtain ⟨pc, _, _, _⟩ := w
  cases pc <;> simp [producer]

theorem preserved {w w' : Worker1} (hw : w.Inv p)
    (hq : q.Carries p.queueLength (items p 1) w.producer cons) (hc : cons.posts ≤ cons.accesses)
    (hs : worker1 p w q = some (w', q')) :
    w'.Inv p ∧ q'.Carries p.queueLength (items p 1) w'.producer cons := by
  obtain ⟨pc, c, k, acted⟩ := w
  cases pc <;> simp only [worker1, Option.map_eq_some_iff, Option.some.injEq, Prod.mk.injEq,
    reduceCtorEq] at hs <;> simp only [Inv] at hw
  case waitFree =>
    obtain ⟨_, hf, rfl, rfl⟩ := hs
    exact ⟨hw, hq.waitFree hf⟩
  case test =>
    obtain ⟨rfl, rfl⟩ := hs
    obtain ⟨hk, ha, hz⟩ := hw
    by_cases h : k ≥ p.maxItems
    case pos => rw [if_pos h]; exact ⟨⟨hk.antisymm h, ha⟩, hq⟩
    case neg => rw [if_neg h]; exact ⟨⟨not_le.mp h, ha, hz⟩, hq⟩
  case putMarker =>
    obtain ⟨rfl, rfl⟩ := hs
    have hv : (items p 1).get k = -1 := hw.left ▸ items_get_maxItems
    exact ⟨hw, hq.put (Nat.lt_succ_self _) hc rfl hv⟩
  case postMarker =>
    obtain ⟨rfl, rfl⟩ := hs
    exact ⟨hw, hq.postBusy⟩
  case action =>
    obtain ⟨rfl, rfl⟩ := hs
    obtain ⟨hk, rfl, rfl⟩ := hw
    exact ⟨⟨hk, List.replicate_succ'.symm, rfl⟩, hq⟩
  case put =>
    obtain ⟨rfl, rfl⟩ := hs
    have hv : (items p 1).get k = c := hw.right.right ▸ items_get_of_lt hw.left
    exact ⟨hw, hq.put (Nat.lt_succ_self _) hc rfl hv⟩
  case advance =>
    obtain ⟨rfl, rfl⟩ := hs
    exact ⟨hw, hq.advanceIp⟩
  case postBusy =>
    obtain ⟨rfl, rfl⟩ := hs
    exact ⟨hw, hq.postBusy⟩
  case reset =>
    obtain ⟨rfl, rfl⟩ := hs
    exact ⟨⟨hw.left, hw.right.left, rfl⟩, hq⟩
  case count =>
    obtain ⟨rfl, rfl⟩ := hs
    exact ⟨hw, hq⟩

end Worker1

namespace Worker2

def consumer (w : Worker2) : Counts :=
  let k := w.rounds
  match w.pc with
  | .waitBusy                                            => ⟨k, k, k, k⟩
  | .waitFree | .get                                     => ⟨k + 1, k, k, k⟩
  | .test | .putMarker | .postMarker | .returned
  | .action | .put | .advanceIc                          => ⟨k + 1, k + 1, k, k⟩
  | .advanceIp | .postFree                               => ⟨k + 1, k + 1, k + 1, k⟩
  | .postBusy                                            => ⟨k + 1, k + 1, k + 1, k + 1⟩

def producer (w : Worker2) : Counts :=
  let k := w.rounds
  match w.pc with
  | .waitBusy | .waitFree                        => ⟨k, k, k, k⟩
  | .get | .test | .putMarker | .action | .put   => ⟨k + 1, k, k, k⟩
  | .postMarker | .advanceIc | .advanceIp        => ⟨k + 1, k + 1, k, k⟩
  | .postFree | .postBusy                        => ⟨k + 1, k + 1, k + 1, k⟩
  | .returned                                    => ⟨k + 1, k + 1, k, k + 1⟩

def Inv (p : Params) (w : Worker2) : Prop :=
  match w.pc with
  | .waitBusy | .waitFree | .get =>
    w.rounds ≤ p.maxItems ∧ w.acted = .replicate w.rounds 2
  | .test =>
    w.rounds ≤ p.maxItems ∧ w.acted = .replicate w.rounds 2 ∧ w.c = (items p 1).get w.rounds
  | .putMarker | .postMarker | .returned =>
    w.rounds = p.maxItems ∧ w.acted = .replicate w.rounds 2 ∧ w.c = (items p 1).get w.rounds
  | .action =>
    w.rounds < p.maxItems ∧ w.acted = .replicate w.rounds 2 ∧ w.c = (items p 1).get w.rounds
  | .put | .advanceIc | .advanceIp | .postFree | .postBusy =>
    w.rounds < p.maxItems ∧ w.acted = .replicate (w.rounds + 1) 2 ∧ w.c = 2

theorem producer_posts_le_accesses (w : Worker2) : w.producer.posts ≤ w.producer.accesses := by
  obtain ⟨pc, _, _, _⟩ := w
  cases pc <;> simp [producer]

theorem consumer_posts_le_accesses (w : Worker2) : w.consumer.posts ≤ w.consumer.accesses := by
  obtain ⟨pc, _, _, _⟩ := w
  cases pc <;> simp [consumer]

theorem preserved (hs : p.charSigned) {w w' : Worker2} (hw : w.Inv p)
    (h₀ : q₀.Carries p.queueLength (items p 1) prod w.consumer) (hp : prod.posts ≤ prod.accesses)
    (h₁ : q₁.Carries p.queueLength (items p 2) w.producer cons) (hc : cons.posts ≤ cons.accesses)
    (he : worker2 p w q₀ q₁ = some (w', q₀', q₁')) :
    w'.Inv p ∧ q₀'.Carries p.queueLength (items p 1) prod w'.consumer ∧
      q₁'.Carries p.queueLength (items p 2) w'.producer cons := by
  obtain ⟨pc, c, k, acted⟩ := w
  cases pc <;> simp only [worker2, Option.map_eq_some_iff, Option.some.injEq, Prod.mk.injEq,
    reduceCtorEq] at he <;> simp only [Inv] at hw
  case waitBusy =>
    obtain ⟨_, hb, rfl, rfl, rfl⟩ := he
    exact ⟨hw, h₀.waitBusy hb, h₁⟩
  case waitFree =>
    obtain ⟨_, hf, rfl, rfl, rfl⟩ := he
    exact ⟨hw, h₀, h₁.waitFree hf⟩
  case get =>
    obtain ⟨rfl, rfl, rfl⟩ := he
    have hl : k < k + 1 := Nat.lt_succ_self k
    exact ⟨⟨hw.left, hw.right, h₀.front_eq hl hp rfl⟩, h₀.get hl hp rfl, h₁⟩
  case test =>
    obtain ⟨rfl, rfl, rfl⟩ := he
    obtain ⟨hk, ha, rfl⟩ := hw
    have ht := items_get_neg_iff (c := 1) (j := k) hs (by decide)
    by_cases h : ((items p 1).get k).promote p.charSigned < 0
    case pos => rw [if_pos h]; exact ⟨⟨hk.antisymm <| ht.mp h, ha, rfl⟩, h₀, h₁⟩
    case neg => rw [if_neg h]; exact ⟨⟨not_le.mp <| ht.not.mp h, ha, rfl⟩, h₀, h₁⟩
  case putMarker =>
    obtain ⟨rfl, rfl, rfl⟩ := he
    obtain ⟨rfl, ha, rfl⟩ := hw
    have hv : (items p 2).get p.maxItems = (items p 1).get p.maxItems := by
      simp only [items_get_maxItems]
    exact ⟨⟨rfl, ha, rfl⟩, h₀, h₁.put (Nat.lt_succ_self _) hc rfl hv⟩
  case postMarker =>
    obtain ⟨rfl, rfl, rfl⟩ := he
    exact ⟨hw, h₀, h₁.postBusy⟩
  case action =>
    obtain ⟨rfl, rfl, rfl⟩ := he
    obtain ⟨hk, rfl, rfl⟩ := hw
    have hd : doAction ((items p 1).get k) = 2 := by rw [items_get_of_lt hk]; rfl
    rw [hd]
    exact ⟨⟨hk, List.replicate_succ'.symm, rfl⟩, h₀, h₁⟩
  case put =>
    obtain ⟨rfl, rfl, rfl⟩ := he
    have hv : (items p 2).get k = c := hw.right.right ▸ items_get_of_lt hw.left
    exact ⟨hw, h₀, h₁.put (Nat.lt_succ_self _) hc rfl hv⟩
  case advanceIc =>
    obtain ⟨rfl, rfl, rfl⟩ := he
    exact ⟨hw, h₀.advanceIc, h₁⟩
  case advanceIp =>
    obtain ⟨rfl, rfl, rfl⟩ := he
    exact ⟨hw, h₀, h₁.advanceIp⟩
  case postFree =>
    obtain ⟨rfl, rfl, rfl⟩ := he
    exact ⟨hw, h₀.postFree, h₁⟩
  case postBusy =>
    obtain ⟨rfl, rfl, rfl⟩ := he
    exact ⟨⟨hw.left, hw.right.left⟩, h₀, h₁.postBusy⟩

end Worker2

namespace Worker3

def consumer (w : Worker3) : Counts :=
  let k := w.rounds
  match w.pc with
  | .waitBusy                                => ⟨k, k, k, k⟩
  | .get                                     => ⟨k + 1, k, k, k⟩
  | .test | .returned | .action | .advance   => ⟨k + 1, k + 1, k, k⟩
  | .postFree                                => ⟨k + 1, k + 1, k + 1, k⟩

def Inv (p : Params) (w : Worker3) : Prop :=
  match w.pc with
  | .waitBusy | .get =>
    w.rounds ≤ p.maxItems ∧ w.acted = .replicate w.rounds 3
  | .test =>
    w.rounds ≤ p.maxItems ∧ w.acted = .replicate w.rounds 3 ∧ w.c = (items p 2).get w.rounds
  | .returned =>
    w.rounds = p.maxItems ∧ w.acted = .replicate w.rounds 3
  | .action =>
    w.rounds < p.maxItems ∧ w.acted = .replicate w.rounds 3 ∧ w.c = (items p 2).get w.rounds
  | .advance | .postFree =>
    w.rounds < p.maxItems ∧ w.acted = .replicate (w.rounds + 1) 3

theorem posts_le_accesses (w : Worker3) : w.consumer.posts ≤ w.consumer.accesses := by
  obtain ⟨pc, _, _, _⟩ := w
  cases pc <;> simp [consumer]

theorem preserved (hs : p.charSigned) {w w' : Worker3} (hw : w.Inv p)
    (hq : q.Carries p.queueLength (items p 2) prod w.consumer) (hp : prod.posts ≤ prod.accesses)
    (he : worker3 p w q = some (w', q')) :
    w'.Inv p ∧ q'.Carries p.queueLength (items p 2) prod w'.consumer := by
  obtain ⟨pc, c, k, acted⟩ := w
  cases pc <;> simp only [worker3, Option.map_eq_some_iff, Option.some.injEq, Prod.mk.injEq,
    reduceCtorEq] at he <;> simp only [Inv] at hw
  case waitBusy =>
    obtain ⟨_, hb, rfl, rfl⟩ := he
    exact ⟨hw, hq.waitBusy hb⟩
  case get =>
    obtain ⟨rfl, rfl⟩ := he
    have hl : k < k + 1 := Nat.lt_succ_self k
    exact ⟨⟨hw.left, hw.right, hq.front_eq hl hp rfl⟩, hq.get hl hp rfl⟩
  case test =>
    obtain ⟨rfl, rfl⟩ := he
    obtain ⟨hk, ha, rfl⟩ := hw
    have ht := items_get_neg_iff (c := 2) (j := k) hs (by decide)
    by_cases h : ((items p 2).get k).promote p.charSigned < 0
    case pos => rw [if_pos h]; exact ⟨⟨hk.antisymm <| ht.mp h, ha⟩, hq⟩
    case neg => rw [if_neg h]; exact ⟨⟨not_le.mp <| ht.not.mp h, ha, rfl⟩, hq⟩
  case action =>
    obtain ⟨rfl, rfl⟩ := he
    obtain ⟨hk, rfl, rfl⟩ := hw
    have hd : doAction ((items p 2).get k) = 3 := by rw [items_get_of_lt hk]; rfl
    rw [hd]
    exact ⟨⟨hk, List.replicate_succ'.symm⟩, hq⟩
  case advance =>
    obtain ⟨rfl, rfl⟩ := he
    exact ⟨hw, hq.advanceIc⟩
  case postFree =>
    obtain ⟨rfl, rfl⟩ := he
    exact ⟨hw, hq.postFree⟩

end Worker3

structure Inv (p : Params) (s : State) : Prop where
  w₁ : s.w₁.Inv p
  w₂ : s.w₂.Inv p
  w₃ : s.w₃.Inv p
  q₀ : s.q₀.Carries p.queueLength (items p 1) s.w₁.producer s.w₂.consumer
  q₁ : s.q₁.Carries p.queueLength (items p 2) s.w₂.producer s.w₃.consumer

namespace Inv

variable {s s' : State}

theorem init : Inv p (init p) where
  w₁ := ⟨Nat.zero_le _, rfl, rfl⟩
  w₂ := ⟨Nat.zero_le _, rfl⟩
  w₃ := ⟨Nat.zero_le _, rfl⟩
  q₀ := .init p
  q₁ := .init p

theorem step (hs : p.charSigned) (hi : Inv p s) (he : step p s t = some s') : Inv p s' := by
  cases t <;> simp only [Pipeline.step, Option.map_eq_some_iff, Prod.exists] at he
  case worker1 =>
    obtain ⟨w, q, he, rfl⟩ := he
    have ⟨hw, hq⟩ := Worker1.preserved hi.w₁ hi.q₀ s.w₂.consumer_posts_le_accesses he
    exact { hi with w₁ := hw, q₀ := hq }
  case worker2 =>
    obtain ⟨w, q, q', he, rfl⟩ := he
    have ⟨hw, h₀, h₁⟩ := Worker2.preserved hs hi.w₂ hi.q₀ s.w₁.posts_le_accesses hi.q₁
      s.w₃.posts_le_accesses he
    exact { hi with w₂ := hw, q₀ := h₀, q₁ := h₁ }
  case worker3 =>
    obtain ⟨w, q, he, rfl⟩ := he
    have ⟨hw, hq⟩ := Worker3.preserved hs hi.w₃ hi.q₁ s.w₂.producer_posts_le_accesses he
    exact { hi with w₃ := hw, q₁ := hq }

theorem reachable (hs : p.charSigned) (h : (pipeline p).Reachable s) : Inv p s :=
  h.invariant .init fun hi _ he => hi.step hs he

end Inv
end WorkloadKit.Pipeline
