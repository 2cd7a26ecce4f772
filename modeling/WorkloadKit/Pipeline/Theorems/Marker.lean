import WorkloadKit.Pipeline.Theorems.Delivery
import WorkloadKit.Pipeline.Theorems.Termination

namespace WorkloadKit.Pipeline

variable {p : Params} {s s' : State} {t : Thread} {es : List Thread}

-- The last value that has been read from the queue is the end marker, which its producer has put last.
def State.marker₂ (s : State) : Prop :=
  (s.w₁.pc = .postMarker ∨ s.w₁.pc = .returned) ∧ s.q₀.gets = s.q₀.puts

def State.marker₃ (s : State) : Prop :=
  (s.w₂.pc = .postMarker ∨ s.w₂.pc = .returned) ∧ s.q₁.gets = s.q₁.puts

-- The tests of the workers recognize the end marker, and nothing else.
structure Recognized (p : Params) (s : State) : Prop where
  w₂ : s.w₂.pc = .test → (s.w₂.c.promote p.charSigned < 0 ↔ s.marker₂)
  w₃ : s.w₃.pc = .test → (s.w₃.c.promote p.charSigned < 0 ↔ s.marker₃)

-- The program on a platform with signed characters.
def Params.signed (p : Params) : Params :=
  { p with charSigned := true }

namespace Queue.Carries

variable {Q : ℕ} {f : Stream' CChar} {prod cons : Counts} {q : Queue}

theorem gets_eq_puts_iff (h : Carries Q f prod cons q) : q.gets = q.puts ↔ cons.accesses = prod.accesses := by
  constructor
  case mp => exact fun he => h.length_gets.symm.trans <| (congrArg _ he).trans h.length_puts
  case mpr => exact fun he => by rw [h.gets, h.puts, he]

end Queue.Carries

-- The first worker has put all items, and something after them, if and only if it has put the end marker.
theorem Worker1.marker_iff {w : Worker1} (h : w.Inv p) :
    w.producer.accesses ≤ p.maxItems + 1 ∧
    ((w.pc = .postMarker ∨ w.pc = .returned) ↔ w.producer.accesses = p.maxItems + 1) := by
  obtain ⟨pc, _, _, _⟩ := w
  cases pc <;> simp only [Inv] at h <;> simp [producer] <;> omega

theorem Worker2.marker_iff {w : Worker2} (h : w.Inv p) :
    w.producer.accesses ≤ p.maxItems + 1 ∧
    ((w.pc = .postMarker ∨ w.pc = .returned) ↔ w.producer.accesses = p.maxItems + 1) := by
  obtain ⟨pc, _, _, _⟩ := w
  cases pc <;> simp only [Inv] at h <;> simp [producer] <;> omega

theorem items_get_promote_neg_iff {c : CChar} (hc : 0 ≤ c.toInt) :
    ((items p c).get j).promote true < 0 ↔ p.maxItems ≤ j :=
  items_get_neg_iff (p := p.signed) rfl hc

namespace Inv

-- The value that is tested in a round is negative, as a signed character, in the last round only.
theorem marker₂_iff (hi : Inv p s) (hpc : s.w₂.pc = .test) : s.w₂.c.promote true < 0 ↔ s.marker₂ := by
  have hw := hi.w₂
  simp only [Worker2.Inv, hpc] at hw
  obtain ⟨hk, _, hc⟩ := hw
  obtain ⟨hl, hm⟩ := Worker1.marker_iff hi.w₁
  have ha : s.w₂.consumer.accesses = s.w₂.rounds + 1 := by simp only [Worker2.consumer, hpc]
  have hg := hi.q₀.gets_le_puts s.w₂.consumer_accesses_le_waits s.w₁.posts_le_accesses
  rw [hc, items_get_promote_neg_iff (by decide), State.marker₂, hm, hi.q₀.gets_eq_puts_iff]
  omega

theorem marker₃_iff (hi : Inv p s) (hpc : s.w₃.pc = .test) : s.w₃.c.promote true < 0 ↔ s.marker₃ := by
  have hw := hi.w₃
  simp only [Worker3.Inv, hpc] at hw
  obtain ⟨hk, _, hc⟩ := hw
  obtain ⟨hl, hm⟩ := Worker2.marker_iff hi.w₂
  have ha : s.w₃.consumer.accesses = s.w₃.rounds + 1 := by simp only [Worker3.consumer, hpc]
  have hg := hi.q₁.gets_le_puts s.w₃.accesses_le_waits s.w₂.producer_posts_le_accesses
  rw [hc, items_get_promote_neg_iff (by decide), State.marker₃, hm, hi.q₁.gets_eq_puts_iff]
  omega

theorem recognized (hi : Inv p s) (hs : p.charSigned) : Recognized p s where
  w₂ hpc := by rw [hs, hi.marker₂_iff hpc]
  w₃ hpc := by rw [hs, hi.marker₃_iff hpc]

end Inv

-- All workers return in some run on a platform with signed characters.
theorem exists_returned (p : Params) :
    ∃ es s, (pipeline p.signed).exec (init p.signed) es = some s ∧ s.Returned := by
  have progress {s : State} (hi : Inv p.signed s) (hr : ¬s.Returned) :
      ∃ t s', (pipeline p.signed).step s t = some s' ∧ s.work < s'.work := by
    by_contra! hn
    refine hr <| hi.returned_of_blocked fun t ht => ?_
    have ⟨s', hs⟩ := Option.isSome_iff_exists.mp ht
    exact (hi.step_work rfl hs).right.not_ge <| hn t s' hs
  exact System.exists_exec_of_progress State.work _ (fun hi hs => hi.step rfl hs) Inv.work_le progress .init

theorem not_promote_neg (c : CChar) : ¬c.promote false < 0 :=
  not_lt.mpr <| Int.natCast_nonneg _

-- A test that succeeds on a platform with signed characters only.
def State.Divides (s : State) : Prop :=
  (s.w₂.pc = .test ∧ s.w₂.c.promote true < 0) ∨ (s.w₃.pc = .test ∧ s.w₃.c.promote true < 0)

-- Other than that, the platforms do not differ.
theorem step_of_signed (hc : p.charSigned = false) (hd : ¬s.Divides) (h : step p.signed s t = some s') :
    step p s t = some s' := by
  have ⟨h₂, h₃⟩ := not_or.mp hd
  cases t
  case worker1 => exact h
  case worker2 =>
    have hw : worker2 p s.w₂ s.q₀ s.q₁ = worker2 p.signed s.w₂ s.q₀ s.q₁ := by
      cases hpc : s.w₂.pc
      case test =>
        have hn : ¬s.w₂.c.promote p.signed.charSigned < 0 := fun hn => h₂ ⟨hpc, hn⟩
        simp only [worker2, hpc, hc, if_neg hn, if_neg (not_promote_neg _)]
      case advanceIc | advanceIp =>
        simp only [worker2, hpc]
        rfl
      all_goals simp only [worker2, hpc]
    rw [step, hw]
    exact h
  case worker3 =>
    have hw : worker3 p s.w₃ s.q₁ = worker3 p.signed s.w₃ s.q₁ := by
      cases hpc : s.w₃.pc
      case test =>
        have hn : ¬s.w₃.c.promote p.signed.charSigned < 0 := fun hn => h₃ ⟨hpc, hn⟩
        simp only [worker3, hpc, hc, if_neg hn, if_neg (not_promote_neg _)]
      case advance =>
        simp only [worker3, hpc]
        rfl
      all_goals simp only [worker3, hpc]
    rw [step, hw]
    exact h

-- Without signed characters, the last worker never returns.
theorem not_returned (hc : p.charSigned = false) (h : (pipeline p).Reachable s) : s.w₃.pc ≠ .returned := by
  have hi : (init p).w₃.pc ≠ .returned := show Worker3.Pc.waitBusy ≠ .returned by decide
  refine h.invariant (I := fun s => s.w₃.pc ≠ .returned) hi fun {s₁ t s₂} hn _ hs => ?_
  cases t <;> simp only [pipeline, step, Option.map_eq_some_iff, Prod.exists] at hs
  case worker1 =>
    obtain ⟨_, _, _, rfl⟩ := hs
    exact hn
  case worker2 =>
    obtain ⟨_, _, _, _, rfl⟩ := hs
    exact hn
  case worker3 =>
    obtain ⟨w, q, hs, rfl⟩ := hs
    cases hpc : s₁.w₃.pc
    all_goals simp only [worker3, hpc, hc, if_neg (not_promote_neg _), Option.map_eq_some_iff, Option.some.injEq,
      Prod.mk.injEq, reduceCtorEq] at hs
    case waitBusy =>
      obtain ⟨_, _, rfl, _⟩ := hs
      rintro ⟨⟩
    all_goals
      obtain ⟨rfl, _⟩ := hs
      rintro ⟨⟩

-- A run of a platform with signed characters either is one of the other platform as well, or it comes to a test
-- where they differ.
theorem divides_or_reachable {s₁ : State} (hc : p.charSigned = false) (hi : Inv p.signed s₁)
    (hr : (pipeline p).Reachable s₁) (h : (pipeline p.signed).exec s₁ es = some s) :
    (∃ s', (pipeline p).Reachable s' ∧ Inv p.signed s' ∧ s'.Divides) ∨ (pipeline p).Reachable s := by
  induction es generalizing s₁
  case nil => exact .inr <| Option.some.inj h ▸ hr
  case cons t es hes =>
    by_cases hd : s₁.Divides
    case pos => exact .inl ⟨s₁, hr, hi, hd⟩
    case neg =>
      have ⟨s₂, hs, h⟩ := System.exec_cons_eq_some.mp h
      exact hes (hi.step rfl hs) (hr.next <| step_of_signed hc hd hs) h

theorem exists_divides (hc : p.charSigned = false) :
    ∃ s, (pipeline p).Reachable s ∧ Inv p.signed s ∧ s.Divides := by
  have ⟨es, s, hs, hr⟩ := exists_returned p
  rcases divides_or_reachable hc .init .init hs with h | h
  case inl => exact h
  case inr => exact absurd hr.right.right <| not_returned hc h

-- The end marker is recognized in all runs if and only if characters are signed.
theorem recognized_iff (p : Params) :
    (∀ s, (pipeline p).Reachable s → Recognized p s) ↔ p.charSigned = true := by
  constructor
  case mp =>
    intro h
    by_contra hc
    have hc : p.charSigned = false := by simpa using hc
    have ⟨s, hr, hi, hd⟩ := exists_divides hc
    have hs := h s hr
    rcases hd with ⟨hpc, hn⟩ | ⟨hpc, hn⟩
    · have hn := (hs.w₂ hpc).mpr <| (hi.marker₂_iff hpc).mp hn
      exact not_promote_neg _ (hc ▸ hn)
    · have hn := (hs.w₃ hpc).mpr <| (hi.marker₃_iff hpc).mp hn
      exact not_promote_neg _ (hc ▸ hn)
  case mpr => exact fun hs _ hr => (Inv.reachable hs hr).recognized hs

-- With unsigned characters, the second worker takes the end marker after the ten items for a value of 255.
theorem not_recognized : ¬∀ p s, (pipeline p).Reachable s → Recognized p s := by
  intro h
  let p : Params := { queueLength := 4, maxItems := 10, charSigned := false, queueLength_pos := by decide }
  let item : List Thread := .replicate 8 .worker1 ++ .replicate 10 .worker2 ++ .replicate 6 .worker3
  let es : List Thread := (List.replicate 10 item).flatten ++ .replicate 4 .worker1 ++ .replicate 3 .worker2
  have he : ((pipeline p).exec (init p) es).map (fun s => (s.w₁.pc, s.w₂.pc, s.q₀.gets == s.q₀.puts)) =
      some (.returned, .test, true) := by decide +kernel
  have ⟨s, hs, hv⟩ := Option.map_eq_some_iff.mp he
  have ⟨h₁, hv⟩ := Prod.mk.inj hv
  have ⟨h₂, hg⟩ := Prod.mk.inj hv
  exact not_promote_neg _ <| ((h p s <| .of_exec hs).w₂ h₂).mpr ⟨.inr h₁, eq_of_beq hg⟩

end WorkloadKit.Pipeline
