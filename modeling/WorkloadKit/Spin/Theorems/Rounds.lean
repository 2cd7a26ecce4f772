import WorkloadKit.Spin.Theorems.Progress

namespace WorkloadKit.Spin

variable {p : Params} {s : State} {i k : ℕ}

-- What holds of a slot when `k` rounds have been completed and no other one has been begun.
structure Slot.Settled (k : ℕ) (t : Slot) : Prop where
  semStart : t.semStart = 0
  semDone  : t.semDone = 0
  rounds   : t.rounds = k

namespace Inv

theorem settled (hi : Inv p s) (hm : s.main = .next) (h : i < p.n) :
    (s.slots i).Settled s.returned := by
  have ht := hi.slots i h
  simp only [hm, Main.posts, Main.waits] at ht
  have ⟨hs, hd, hr, _⟩ := ht.at_rest
  exact ⟨hs, hd, hr⟩

theorem settled_of_done (hi : Inv p s) (hm : s.main = .done) (h : i < p.n) :
    (s.slots i).worker = .returned ∧ (s.slots i).Settled s.returned := by
  have ht := hi.slots i h
  have hf := hi.flags
  rw [hm] at ht hf
  have hw := ht.joined trivial
  have hr := ht.exited hf.left
  have hs := ht.start
  have hd := ht.done
  simp only [hw, Worker.inRound, Main.posts, Main.waits] at hs hd
  exact ⟨hw, by omega, by omega, hr⟩

-- A worker is never behind the calls that have returned. It is ahead of them by one round at most, and
-- only after the alarm of the call that is being executed has been delivered.
theorem rounds_bounds (hi : Inv p s) (h : i < p.n) :
    s.returned ≤ (s.slots i).rounds ∧ (s.slots i).rounds ≤ s.returned + 1 ∧
    (s.returned < (s.slots i).rounds → s.main.calls = 1 ∧ s.run = false ∧ s.alarm = false) := by
  have ht := hi.slots i h
  have hs := ht.start
  have hd := ht.done
  have hp := s.main.posts_le s.returned i
  have hw := s.main.le_waits s.returned i
  refine ⟨by omega, by omega, fun hl => ?_⟩
  have hr := ht.finished <| .inr hl
  have hx := mt ht.exited hl.ne'
  have hf := hi.flags
  cases hm : s.main <;> simp only [hm, Main.posts, Main.Flags] at hs hf
  case runPost | runWait => exact ⟨rfl, hr, hf.right.trans hr⟩
  case exitPost | exitJoin | exitFree | done => exact absurd hf.left hx
  all_goals omega

end Inv

-- The calls of `spin_run` are made between `spin_init` and `spin_exit`. Whenever a call has returned,
-- each worker has completed a round for each of the calls so far, and there is nothing left of them
-- that could affect the next one.
theorem spin_run_rounds (p : Params) (hu : ∀ u ∈ p.usecs, 1 ≤ u ∧ u < 1000000) (h : (spin p).Reachable s) :
    (s.main = .next →
      s.run = false ∧ s.alarm = false ∧ ∀ i < p.n, (s.slots i).Settled s.returned) ∧
    (∀ i < p.n, s.returned ≤ (s.slots i).rounds ∧ (s.slots i).rounds ≤ s.returned + 1 ∧
      (s.returned < (s.slots i).rounds → s.main.calls = 1 ∧ s.run = false ∧ s.alarm = false)) ∧
    (s.main = .done → s.returned = p.usecs.length ∧
      ∀ i < p.n, (s.slots i).worker = .returned ∧ (s.slots i).Settled p.usecs.length) ∧
    (s.main ≠ .done → ∃ e s', (spin p).step s e = some s' ∧ s' ≠ s) ∧
    ∃ es s', (spin p).exec s es = some s' ∧ s'.main = .done := by
  have hi := Inv.reachable hu h
  refine ⟨fun hm => ?next, fun i => hi.rounds_bounds, fun hm => ?done, fun hm => ?step, ?exit⟩
  case next =>
    have hf := hi.flags
    rw [hm] at hf
    exact ⟨hf.right.left, hf.right.right, fun i => hi.settled hm⟩
  case done =>
    have hr : s.returned = p.usecs.length := by
      have hc := hi.calls
      have hl := hi.last <| hm ▸ trivial
      simpa [hm, Main.calls, hl] using hc
    exact ⟨hr, fun i h => hr ▸ hi.settled_of_done hm h⟩
  case step =>
    obtain ⟨e, s', hs, hw⟩ := hi.progress hm
    exact ⟨e, s', hs, fun hc => by simp [hc] at hw⟩
  case exit =>
    exact System.exists_exec_of_progress _ _ (fun hi he => hi.step he) Inv.work_le
      (fun hi hm => hi.progress hm) hi

-- In the first of two rounds, one of the two workers is started only after the alarm has been delivered. In the
-- second one, the other worker has not waited yet when the alarm is delivered.
theorem spin_run_rounds_late_worker :
    let p : Params := { n := 2, usecs := [1, 1], n_pos := two_pos }
    ∃ es s, (spin p).exec (init p) es = some s ∧ s.main = .next ∧ s.run = false ∧
      (s.slots 0).Settled 2 ∧ (s.slots 1).Settled 2 := by
  intro p
  let post : List Event := List.replicate 7 .main
  let wait : List Event := List.replicate 3 .main
  let es : List Event := List.replicate 8 .main ++
    post ++ List.replicate 4 (.worker 0) ++ [.alarm] ++ List.replicate 2 (.worker 0) ++
    List.replicate 5 (.worker 1) ++ wait ++
    post ++ List.replicate 2 (.worker 1) ++ [.alarm] ++ List.replicate 2 (.worker 1) ++
    List.replicate 4 (.worker 0) ++ wait
  have he : ((spin p).exec (init p) es).map (fun s => (s.main, s.returned)) = some (.next, 2) := by
    decide +kernel
  have ⟨s, hs, hc⟩ := Option.map_eq_some_iff.mp he
  have ⟨hm, hr⟩ := Prod.mk.inj hc
  have ⟨hrun, _, ht⟩ := (spin_run_rounds p (by decide) <| .of_exec hs).left hm
  exact ⟨es, s, hs, hm, hrun, hr ▸ ht 0 two_pos, hr ▸ ht 1 one_lt_two⟩

end WorkloadKit.Spin
