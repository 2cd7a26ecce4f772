import WorkloadKit.Pipeline.Theorems.Invariant

namespace WorkloadKit.Pipeline

variable {p : Params} {s s' : State} {t : Thread}

-- The number of statements that a worker has executed.
def Worker1.work (w : Worker1) : ℕ :=
  8 * w.processed + match w.pc with
    | .waitFree            => 0
    | .test                => 1
    | .putMarker | .action => 2
    | .postMarker | .put   => 3
    | .returned | .advance => 4
    | .postBusy            => 5
    | .reset               => 6
    | .count               => 7

def Worker2.work (w : Worker2) : ℕ :=
  10 * w.rounds + match w.pc with
    | .waitBusy             => 0
    | .waitFree             => 1
    | .get                  => 2
    | .test                 => 3
    | .putMarker | .action  => 4
    | .postMarker | .put    => 5
    | .returned | .advanceIc => 6
    | .advanceIp            => 7
    | .postFree             => 8
    | .postBusy             => 9

def Worker3.work (w : Worker3) : ℕ :=
  6 * w.rounds + match w.pc with
    | .waitBusy           => 0
    | .get                => 1
    | .test               => 2
    | .returned | .action => 3
    | .advance            => 4
    | .postFree           => 5

theorem Worker1.work_step (h : worker1 p w q = some (w', q')) : w'.work = w.work + 1 := by
  obtain ⟨pc, c, k, acted⟩ := w
  cases pc <;> simp only [worker1, Option.map_eq_some_iff, Option.some.injEq, Prod.mk.injEq,
    reduceCtorEq] at h
  case waitFree =>
    obtain ⟨_, _, rfl, _⟩ := h
    rfl
  case test =>
    obtain ⟨rfl, _⟩ := h
    simp only [work]
    split_ifs <;> rfl
  all_goals
    obtain ⟨rfl, _⟩ := h
    rfl

theorem Worker2.work_step (h : worker2 p w q₀ q₁ = some (w', q₀', q₁')) : w'.work = w.work + 1 := by
  obtain ⟨pc, c, k, acted⟩ := w
  cases pc <;> simp only [worker2, Option.map_eq_some_iff, Option.some.injEq, Prod.mk.injEq,
    reduceCtorEq] at h
  case waitBusy | waitFree =>
    obtain ⟨_, _, rfl, _⟩ := h
    rfl
  case test =>
    obtain ⟨rfl, _⟩ := h
    simp only [work]
    split_ifs <;> rfl
  all_goals
    obtain ⟨rfl, _⟩ := h
    rfl

theorem Worker3.work_step (h : worker3 p w q = some (w', q')) : w'.work = w.work + 1 := by
  obtain ⟨pc, c, k, acted⟩ := w
  cases pc <;> simp only [worker3, Option.map_eq_some_iff, Option.some.injEq, Prod.mk.injEq,
    reduceCtorEq] at h
  case waitBusy =>
    obtain ⟨_, _, rfl, _⟩ := h
    rfl
  case test =>
    obtain ⟨rfl, _⟩ := h
    simp only [work]
    split_ifs <;> rfl
  all_goals
    obtain ⟨rfl, _⟩ := h
    rfl

theorem Worker1.work_le {w : Worker1} (h : w.Inv p) : w.work ≤ 8 * p.maxItems + 4 := by
  obtain ⟨pc, _, _, _⟩ := w
  cases pc <;> simp only [Inv] at h <;> simp only [work] <;> omega

theorem Worker2.work_le {w : Worker2} (h : w.Inv p) : w.work ≤ 10 * p.maxItems + 6 := by
  obtain ⟨pc, _, _, _⟩ := w
  cases pc <;> simp only [Inv] at h <;> simp only [work] <;> omega

theorem Worker3.work_le {w : Worker3} (h : w.Inv p) : w.work ≤ 6 * p.maxItems + 3 := by
  obtain ⟨pc, _, _, _⟩ := w
  cases pc <;> simp only [Inv] at h <;> simp only [work] <;> omega

def State.work (s : State) : ℕ :=
  s.w₁.work + s.w₂.work + s.w₃.work

theorem work_step (h : step p s t = some s') : s'.work = s.work + 1 := by
  cases t <;> simp only [step, Option.map_eq_some_iff, Prod.exists] at h
  case worker1 =>
    obtain ⟨w, q, he, rfl⟩ := h
    have := Worker1.work_step he
    simp only [State.work]
    omega
  case worker2 =>
    obtain ⟨w, q, q', he, rfl⟩ := h
    have := Worker2.work_step he
    simp only [State.work]
    omega
  case worker3 =>
    obtain ⟨w, q, he, rfl⟩ := h
    have := Worker3.work_step he
    simp only [State.work]
    omega

def State.Returned (s : State) : Prop :=
  s.w₁.pc = .returned ∧ s.w₂.pc = .returned ∧ s.w₃.pc = .returned

-- What a worker that can not execute its next statement waits for.
theorem Worker1.blocked (h : ¬(pipeline p).Enabled s .worker1) :
    s.w₁.pc = .returned ∨ s.w₁.pc = .waitFree ∧ s.q₀.semFree = 0 := by
  cases hp : s.w₁.pc <;>
    simp_all [System.Enabled, pipeline, step, worker1, Queue.waitFree]

theorem Worker2.blocked (h : ¬(pipeline p).Enabled s .worker2) :
    s.w₂.pc = .returned ∨ s.w₂.pc = .waitBusy ∧ s.q₀.semBusy = 0 ∨
      s.w₂.pc = .waitFree ∧ s.q₁.semFree = 0 := by
  cases hp : s.w₂.pc <;>
    simp_all [System.Enabled, pipeline, step, worker2, Queue.waitFree, Queue.waitBusy]

theorem Worker3.blocked (h : ¬(pipeline p).Enabled s .worker3) :
    s.w₃.pc = .returned ∨ s.w₃.pc = .waitBusy ∧ s.q₁.semBusy = 0 := by
  cases hp : s.w₃.pc <;>
    simp_all [System.Enabled, pipeline, step, worker3, Queue.waitBusy]

namespace Inv

-- The second worker is never part of a circular wait: if it waits for one of the queues, then the
-- semaphores of this queue let the worker at the other end of it go on.
theorem returned_of_blocked (hi : Inv p s) (hb : ∀ t, ¬(pipeline p).Enabled s t) : s.Returned := by
  have hQ := p.queueLength_pos
  have ⟨h₁, h₂, h₃, q₀, q₁⟩ := hi
  have hf₀ := q₀.free
  have hb₀ := q₀.busy
  have hf₁ := q₁.free
  have hb₁ := q₁.busy
  rcases Worker1.blocked (hb .worker1) with p₁ | ⟨p₁, s₁⟩ <;>
  rcases Worker2.blocked (hb .worker2) with p₂ | ⟨p₂, s₂⟩ | ⟨p₂, s₂⟩ <;>
  rcases Worker3.blocked (hb .worker3) with p₃ | ⟨p₃, s₃⟩ <;>
  simp only [Worker1.Inv, Worker1.producer, p₁] at h₁ hf₀ hb₀ <;>
  simp only [Worker2.Inv, Worker2.consumer, Worker2.producer, p₂] at h₂ hf₀ hb₀ hf₁ hb₁ <;>
  simp only [Worker3.Inv, Worker3.consumer, p₃] at h₃ hf₁ hb₁ <;>
  first | exact ⟨p₁, p₂, p₃⟩ | omega

-- The end marker has taken a slot of each queue that has not been given back.
theorem returned_queues (hi : Inv p s) (hr : s.Returned) :
    s.q₀.semBusy = 0 ∧ s.q₁.semBusy = 0 ∧ s.q₀.semFree = p.queueLength - 1 ∧
      s.q₁.semFree = p.queueLength - 1 := by
  have ⟨p₁, p₂, p₃⟩ := hr
  have ⟨h₁, h₂, h₃, q₀, q₁⟩ := hi
  have hf₀ := q₀.free
  have hb₀ := q₀.busy
  have hf₁ := q₁.free
  have hb₁ := q₁.busy
  simp only [Worker1.Inv, Worker1.producer, p₁] at h₁ hf₀ hb₀
  simp only [Worker2.Inv, Worker2.consumer, Worker2.producer, p₂] at h₂ hf₀ hb₀ hf₁ hb₁
  simp only [Worker3.Inv, Worker3.consumer, p₃] at h₃ hf₁ hb₁
  omega

theorem step_work (hi : Inv p s) (hc : p.charSigned) (he : (pipeline p).step s t = some s') :
    Inv p s' ∧ s.work < s'.work :=
  ⟨hi.step hc he, by rw [work_step he]; exact Nat.lt_succ_self _⟩

theorem work_le (hi : Inv p s) : s.work ≤ 24 * p.maxItems + 13 := by
  have := Worker1.work_le hi.w₁
  have := Worker2.work_le hi.w₂
  have := Worker3.work_le hi.w₃
  simp only [State.work]
  omega

end Inv

-- Every run is finite, and it only ends when all workers have returned.
theorem termination (p : Params) (hc : p.charSigned) {es : List Thread} {s : State}
    (h : (pipeline p).exec (init p) es = some s) :
    es.length ≤ 24 * p.maxItems + 13 ∧
    (¬s.Returned → ∃ t, (pipeline p).Enabled s t) ∧
    ((∀ t, ¬(pipeline p).Enabled s t) → s.Returned ∧ s.q₀.semBusy = 0 ∧ s.q₁.semBusy = 0 ∧
      s.q₀.semFree = p.queueLength - 1 ∧ s.q₁.semFree = p.queueLength - 1) := by
  have hi : Inv p s := .reachable hc <| .of_exec h
  refine ⟨?bound, fun hr => ?progress, fun hb => ?final⟩
  case bound =>
    have hl := System.work_add_length_le (I := Inv p) State.work (fun hi => hi.step_work hc) .init h
    have := hi.work_le
    omega
  case progress =>
    by_contra! hb
    exact hr <| hi.returned_of_blocked hb
  case final =>
    have hr := hi.returned_of_blocked hb
    exact ⟨hr, hi.returned_queues hr⟩

-- Three items go through queues of length two.
theorem termination_three :
    let p : Params := { queueLength := 2, maxItems := 3, charSigned := true, queueLength_pos := Nat.two_pos }
    ∃ es s, (pipeline p).exec (init p) es = some s ∧ es.length = 85 ∧ s.w₃.acted.length = 3 ∧ s.Returned ∧
      s.q₀.semFree = 1 := by
  intro p
  let item : List Thread :=
    .replicate 8 .worker1 ++ .replicate 10 .worker2 ++ .replicate 6 .worker3
  let marker : List Thread := .replicate 4 .worker1 ++ .replicate 6 .worker2 ++ .replicate 3 .worker3
  let es := item ++ item ++ item ++ marker
  have he : ((pipeline p).exec (init p) es).map (fun s => (s.w₃.acted.length, (step p s .worker1).isSome ||
      (step p s .worker2).isSome || (step p s .worker3).isSome)) = some (3, false) := by
    decide
  have ⟨s, hs, hb⟩ := Option.map_eq_some_iff.mp he
  have ⟨hl, hb⟩ := Prod.mk.inj hb
  have hb (t : Thread) : ¬(pipeline p).Enabled s t := by
    cases t <;> simp_all [System.Enabled, pipeline]
  have ⟨hr, _, _, hf, _⟩ := (termination p rfl hs).right.right hb
  exact ⟨es, s, hs, rfl, hl, hr, hf⟩

end WorkloadKit.Pipeline
