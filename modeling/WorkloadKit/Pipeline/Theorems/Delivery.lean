import WorkloadKit.Pipeline.Theorems.Invariant

namespace WorkloadKit.Pipeline

variable {p : Params} {s s' : State}

-- The slots of a queue which hold a value that the consumer has not read yet.
def Queue.unreadSlots (q : Queue) : List ℕ :=
  (q.puts.drop q.gets.length).map Prod.fst

theorem items_take (c : CChar) : (items p c).take (p.maxItems + 1) = .replicate p.maxItems c ++ [-1] := by
  rw [Stream'.take_succ', items_get_maxItems]
  congr 1
  refine List.ext_getElem (by simp) fun j hj _ => ?_
  rw [Stream'.length_take] at hj
  have hg : ((items p c).take p.maxItems)[j]? = some c := by
    rw [Stream'.getElem?_take hj, items_get_of_lt hj]
  simpa [List.getElem?_eq_some_iff, hj] using hg

theorem map_snd_accesses {Q n : ℕ} {f : Stream' CChar} : ((accesses Q f).take n).map Prod.snd = f.take n := by
  rw [Stream'.map_take]
  rfl

namespace Queue.Carries

variable {Q : ℕ} {f : Stream' CChar} {prod prod' cons cons' : Counts} {q q' : Queue}

theorem length_puts (h : Carries Q f prod cons q) : q.puts.length = prod.accesses := by
  simp [h.puts]

theorem length_gets (h : Carries Q f prod cons q) : q.gets.length = cons.accesses := by
  simp [h.gets]

theorem gets_le_puts (h : Carries Q f prod cons q) (hc : cons.accesses ≤ cons.waits)
    (hp : prod.posts ≤ prod.accesses) : cons.accesses ≤ prod.accesses := by
  have := h.busy
  omega

theorem gets_prefix_puts (h : Carries Q f prod cons q) (hc : cons.accesses ≤ cons.waits)
    (hp : prod.posts ≤ prod.accesses) : q.gets <+: q.puts := by
  rw [h.gets, h.puts]
  exact take_prefix_take <| h.gets_le_puts hc hp

theorem exists_of_mem_unreadSlots (h : Carries Q f prod cons q) (hm : x ∈ q.unreadSlots) :
    ∃ j, cons.accesses ≤ j ∧ j < prod.accesses ∧ x = j % Q := by
  simp only [unreadSlots, List.mem_map, List.mem_drop_iff_getElem, h.length_gets] at hm
  obtain ⟨_, ⟨i, hi, rfl⟩, rfl⟩ := hm
  have hj : cons.accesses + i < prod.accesses := by have := h.length_puts; omega
  have he : q.puts[cons.accesses + i] = (accesses Q f).get (cons.accesses + i) := by
    apply Option.some.inj
    rw [←List.getElem?_eq_getElem, h.puts, Stream'.getElem?_take hj]
  exact ⟨_, Nat.le_add_right .., hj, congrArg Prod.fst he⟩

-- The value which is put next does not overwrite an unread one, as the producer has waited for a
-- free slot and the consumer posts one only after reading it.
theorem put_not_mem_unreadSlots (h : Carries Q f prod cons q) (h' : Carries Q f prod' cons q')
    (hp : prod'.accesses ≤ prod'.waits) (hc : cons.posts ≤ cons.accesses)
    (ha : q'.puts = q.puts ++ [(x, v)]) : x ∉ q.unreadSlots := by
  have hl : prod'.accesses = prod.accesses + 1 := by
    simp [←h.length_puts, ←h'.length_puts, ha]
  have hx : x = prod.accesses % Q := by
    rw [h'.puts, hl, Stream'.take_succ', ←h.puts] at ha
    have := List.append_cancel_left ha
    simp only [List.cons.injEq, and_true] at this
    exact (congrArg Prod.fst this).symm
  intro hm
  have ⟨j, hj₁, hj₂, hj⟩ := h.exists_of_mem_unreadSlots hm
  have := h'.free
  exact Ring.slot_ne hj₂ (by omega) (hj ▸ hx)

-- The values of the items and the end marker after them.
theorem values_prefix {c : CChar} (h : Carries Q (items p c) prod cons q) (ha : prod.accesses ≤ p.maxItems + 1) :
    q.puts.map Prod.snd <+: .replicate p.maxItems c ++ [-1] := by
  rw [h.puts, map_snd_accesses, ←items_take]
  exact take_prefix_take ha

end Queue.Carries

theorem Worker1.accesses_le_waits (w : Worker1) : w.producer.accesses ≤ w.producer.waits := by
  obtain ⟨pc, _, _, _⟩ := w
  cases pc <;> simp [producer]

theorem Worker2.producer_accesses_le_waits (w : Worker2) :
    w.producer.accesses ≤ w.producer.waits := by
  obtain ⟨pc, _, _, _⟩ := w
  cases pc <;> simp [producer]

theorem Worker2.consumer_accesses_le_waits (w : Worker2) :
    w.consumer.accesses ≤ w.consumer.waits := by
  obtain ⟨pc, _, _, _⟩ := w
  cases pc <;> simp [consumer]

theorem Worker3.accesses_le_waits (w : Worker3) : w.consumer.accesses ≤ w.consumer.waits := by
  obtain ⟨pc, _, _, _⟩ := w
  cases pc <;> simp [consumer]

theorem Worker1.accesses_le {w : Worker1} (h : w.Inv p) : w.producer.accesses ≤ p.maxItems + 1 := by
  obtain ⟨pc, _, _, _⟩ := w
  cases pc <;> simp only [Inv] at h <;> simp only [producer] <;> omega

theorem Worker2.accesses_le {w : Worker2} (h : w.Inv p) : w.producer.accesses ≤ p.maxItems + 1 := by
  obtain ⟨pc, _, _, _⟩ := w
  cases pc <;> simp only [Inv] at h <;> simp only [producer] <;> omega

-- What a worker has acted on, compared to what it has put into its outgoing queue. The end marker
-- is put without being acted on.
theorem Worker1.acted_eq {w : Worker1} (h : w.Inv p) :
    w.acted = .replicate w.acted.length 1 ∧ w.acted.length ≤ p.maxItems ∧
      min w.producer.accesses p.maxItems ≤ w.acted.length := by
  obtain ⟨pc, _, _, _⟩ := w
  cases pc
  all_goals
    simp only [Inv] at h
    simp only [h, producer, List.length_replicate, true_and]
    omega

theorem Worker2.acted_eq {w : Worker2} (h : w.Inv p) :
    w.acted = .replicate w.acted.length 2 ∧ w.acted.length ≤ p.maxItems ∧
      min w.producer.accesses p.maxItems ≤ w.acted.length ∧
      w.acted.length ≤ w.consumer.accesses := by
  obtain ⟨pc, _, _, _⟩ := w
  cases pc
  all_goals
    simp only [Inv] at h
    simp only [h, producer, consumer, List.length_replicate, true_and]
    omega

theorem Worker3.acted_eq {w : Worker3} (h : w.Inv p) :
    w.acted = .replicate w.acted.length 3 ∧ w.acted.length ≤ p.maxItems ∧
      w.acted.length ≤ w.consumer.accesses := by
  obtain ⟨pc, _, _, _⟩ := w
  cases pc
  all_goals
    simp only [Inv] at h
    simp only [h, consumer, List.length_replicate, true_and]
    omega

namespace Inv

theorem put_not_mem_unreadSlots₀ (hi : Inv p s) (hi' : Inv p s') (he : Pipeline.step p s t = some s')
    (ha : s'.q₀.puts = s.q₀.puts ++ [(x, v)]) : x ∉ s.q₀.unreadSlots := by
  cases t <;> simp only [Pipeline.step, Option.map_eq_some_iff, Prod.exists] at he
  case worker1 =>
    obtain ⟨w, q, he, rfl⟩ := he
    exact hi.q₀.put_not_mem_unreadSlots hi'.q₀ w.accesses_le_waits
      s.w₂.consumer_posts_le_accesses ha
  case worker2 =>
    -- The producer of the queue is at rest.
    obtain ⟨w, q, q', he, rfl⟩ := he
    have hl := congrArg List.length ha
    simp [hi.q₀.length_puts, hi'.q₀.length_puts] at hl
  case worker3 =>
    obtain ⟨w, q, he, rfl⟩ := he
    simp at ha

theorem put_not_mem_unreadSlots₁ (hi : Inv p s) (hi' : Inv p s') (he : Pipeline.step p s t = some s')
    (ha : s'.q₁.puts = s.q₁.puts ++ [(x, v)]) : x ∉ s.q₁.unreadSlots := by
  cases t <;> simp only [Pipeline.step, Option.map_eq_some_iff, Prod.exists] at he
  case worker1 =>
    obtain ⟨w, q, he, rfl⟩ := he
    simp at ha
  case worker2 =>
    obtain ⟨w, q, q', he, rfl⟩ := he
    exact hi.q₁.put_not_mem_unreadSlots hi'.q₁ w.producer_accesses_le_waits
      s.w₃.posts_le_accesses ha
  case worker3 =>
    obtain ⟨w, q, he, rfl⟩ := he
    have hl := congrArg List.length ha
    simp [hi.q₁.length_puts, hi'.q₁.length_puts] at hl

theorem gets_prefix_puts (hi : Inv p s) : s.q₀.gets <+: s.q₀.puts ∧ s.q₁.gets <+: s.q₁.puts :=
  ⟨hi.q₀.gets_prefix_puts s.w₂.consumer_accesses_le_waits s.w₁.posts_le_accesses,
    hi.q₁.gets_prefix_puts s.w₃.accesses_le_waits s.w₂.producer_posts_le_accesses⟩

theorem acted_prefix (hi : Inv p s) :
    s.w₁.acted <+: (List.replicate p.maxItems 0).map (· + 1) ∧ s.w₂.acted <+: s.w₁.acted.map (· + 1) ∧
      s.w₃.acted <+: s.w₂.acted.map (· + 1) := by
  have ⟨ha₁, hk₁, hm₁⟩ := Worker1.acted_eq hi.w₁
  have ⟨ha₂, hk₂, hm₂, hl₂⟩ := Worker2.acted_eq hi.w₂
  have ⟨ha₃, hk₃, hl₃⟩ := Worker3.acted_eq hi.w₃
  have h₀ := hi.q₀.gets_le_puts s.w₂.consumer_accesses_le_waits s.w₁.posts_le_accesses
  have h₁ := hi.q₁.gets_le_puts s.w₃.accesses_le_waits s.w₂.producer_posts_le_accesses
  have hr {m n : ℕ} (c : CChar) (h : m ≤ n) : List.replicate m c <+: .replicate n c :=
    List.prefix_replicate_iff.mpr ⟨by simpa using h, by simp⟩
  rw [ha₁, ha₂, ha₃, List.map_replicate, List.map_replicate, List.map_replicate]
  exact ⟨hr _ hk₁, hr _ (by omega), hr _ (by omega)⟩

-- What has been put into the queues, by value.
theorem puts_prefix (hi : Inv p s) :
    s.q₀.puts.map Prod.snd <+: .replicate p.maxItems 1 ++ [-1] ∧
      s.q₁.puts.map Prod.snd <+: .replicate p.maxItems 2 ++ [-1] :=
  ⟨hi.q₀.values_prefix <| Worker1.accesses_le hi.w₁, hi.q₁.values_prefix <| Worker2.accesses_le hi.w₂⟩

theorem returned (hi : Inv p s) (hr : s.w₃.pc = .returned) : s.w₃.acted.length = p.maxItems := by
  have h := hi.w₃
  simp only [Worker3.Inv, hr] at h
  simp [h.right, h.left]

end Inv

-- No value is overwritten before it has been read, and the values are read in the order in which they have been
-- written. Each of the items starts as zero, and each stage adds one to it once.
theorem delivery (p : Params) (hc : p.charSigned) {s : State} (h : (pipeline p).Reachable s) :
    (∀ t s' x v, step p s t = some s' →
      (s'.q₀.puts = s.q₀.puts ++ [(x, v)] → x ∉ s.q₀.unreadSlots) ∧
      (s'.q₁.puts = s.q₁.puts ++ [(x, v)] → x ∉ s.q₁.unreadSlots)) ∧
    (s.q₀.gets <+: s.q₀.puts ∧ s.q₁.gets <+: s.q₁.puts) ∧
    (s.q₀.puts.map Prod.snd <+: .replicate p.maxItems 1 ++ [-1] ∧
      s.q₁.puts.map Prod.snd <+: .replicate p.maxItems 2 ++ [-1]) ∧
    (s.w₁.acted <+: (List.replicate p.maxItems 0).map (· + 1) ∧ s.w₂.acted <+: s.w₁.acted.map (· + 1) ∧
      s.w₃.acted <+: s.w₂.acted.map (· + 1)) ∧
    (s.w₃.pc = .returned → s.w₃.acted.length = p.maxItems) := by
  have hi := Inv.reachable hc h
  refine ⟨?_, hi.gets_prefix_puts, hi.puts_prefix, hi.acted_prefix, hi.returned⟩
  intro t s' x v he
  have hi' := hi.step hc he
  exact ⟨hi.put_not_mem_unreadSlots₀ hi' he, hi.put_not_mem_unreadSlots₁ hi' he⟩

-- Two items are handed on through queues of length one, and the end marker after them.
theorem delivery_two :
    let p : Params := { queueLength := 1, maxItems := 2, charSigned := true, queueLength_pos := one_pos }
    ∃ es s, (pipeline p).exec (init p) es = some s ∧ s.w₃.acted = [3, 3] ∧
      s.w₃.acted <+: s.w₂.acted.map (· + 1) ∧ s.w₃.acted.length = 2 := by
  intro p
  let item : List Thread :=
    .replicate 8 .worker1 ++ .replicate 10 .worker2 ++ .replicate 6 .worker3
  let marker : List Thread :=
    .replicate 4 .worker1 ++ .replicate 6 .worker2 ++ .replicate 3 .worker3
  have he : ((pipeline p).exec (init p) (item ++ item ++ marker)).map (fun s => (s.w₃.pc, s.w₃.acted)) =
      some (.returned, [3, 3]) := by
    decide
  have ⟨s, hs, hr⟩ := Option.map_eq_some_iff.mp he
  have ⟨hr, ha⟩ := Prod.mk.inj hr
  have ⟨_, _, _, ⟨_, _, hp⟩, hl⟩ := delivery p rfl <| .of_exec hs
  exact ⟨_, s, hs, ha, hp, hl hr⟩

end WorkloadKit.Pipeline
