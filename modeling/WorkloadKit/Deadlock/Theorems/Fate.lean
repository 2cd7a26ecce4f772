import WorkloadKit.Deadlock.State

namespace WorkloadKit.Deadlock

variable {s s' : State} {w u : Worker} {m : Mutex} {c : Pc} {e : Event} {es : List Event}

-- The mutex that a worker locks first. Its second one is the first one of the other worker.
def Worker.first : Worker → Mutex
  | a => .a
  | b => .b

def Worker.other : Worker → Worker
  | a => b
  | b => a

theorem Worker.other_ne : w.other ≠ w := by
  cases w <;> decide

namespace Pc

-- The worker has locked its first mutex.
def HasFirst (c : Pc) : Prop :=
  c = usleep ∨ c = lockSecond ∨ c = returned

def rest : Pc → ℕ
  | unborn     => 4
  | lockFirst  => 3
  | usleep     => 2
  | lockSecond => 1
  | returned   => 0

end Pc

def Main.rest : Main → ℕ
  | create .a         => 5
  | create .b         => 4
  | usleep            => 3
  | kill .a           => 2
  | kill .b           => 1
  | killed | returned => 0

-- How many statements are left at most, where a worker that has not been created counts in, too.
def State.rest (s : State) : ℕ :=
  s.main.rest + (s.pc .a).rest + (s.pc .b).rest

theorem lock_eq_some :
    lock s w m c = some s' ↔
      s.owner m = none ∧ { s.goto w c with owner := Function.update s.owner m (some w) } = s' := by
  simp only [lock, Option.map_eq_some_iff, Lock.acquire_eq_some]
  exact ⟨fun ⟨_, ⟨hm, rfl⟩, hs⟩ => ⟨hm, hs⟩, fun ⟨hm, hs⟩ => ⟨_, ⟨hm, rfl⟩, hs⟩⟩

-- The workers only differ in the order of their mutexes.
theorem step_worker : step s (.worker w) = if s.Alive then worker w w.first w.other.first s else none := by
  cases w <;> rfl

-- `main` has still to create the worker.
def Main.Creates : Main → Worker → Prop
  | create .a, _ => True
  | create .b, w => w = .b
  | _,         _ => False

structure Inv (s : State) : Prop where
  first    : ∀ w, (s.pc w).HasFirst → s.owner w.first = some w
  second   : ∀ w, s.pc w = .returned → s.owner w.other.first = some w
  unborn   : ∀ w, s.pc w = .unborn ↔ s.main.Creates w
  returned : s.main = .kill .b → s.pc .a = .returned
  runs     : s.main ≠ .returned

namespace Inv

theorem init : Inv deadlock.init where
  first _ h  := by simp [deadlock, Pc.HasFirst] at h
  second _ h := by simp [deadlock] at h
  unborn _   := by simp [deadlock, Main.Creates]
  returned h := by simp [deadlock] at h
  runs       := by simp [deadlock]

-- If a worker has returned, then it keeps the other one from getting its first mutex.
theorem not_hasFirst_other (h : Inv s) (hw : s.pc w = .returned) : ¬(s.pc w.other).HasFirst :=
  fun ho => Worker.other_ne <| Option.some.inj <| (h.first _ ho).symm.trans (h.second w hw)

theorem create (h : Inv s) {next : Main} (hn : ∀ u, next.Creates u ↔ s.main.Creates u ∧ u ≠ w)
    (hb : next ≠ .kill .b) (hr : next ≠ .returned) :
    Inv { s.goto w .lockFirst with main := next } where
  first u hu := by
    by_cases huw : u = w
    case pos => simp [State.goto, huw, Pc.HasFirst] at hu
    case neg => exact h.first u <| by simpa [State.goto, huw] using hu
  second u hu := by
    by_cases huw : u = w
    case pos => simp [State.goto, huw] at hu
    case neg => exact h.second u <| by simpa [State.goto, huw] using hu
  unborn u := by
    by_cases huw : u = w
    case pos => simp [State.goto, hn, huw]
    case neg => simp [State.goto, hn, huw, h.unborn]
  returned hk := absurd hk hb
  runs        := hr

-- `main` goes on once it has created the workers.
theorem setMain (h : Inv s) {next : Main} (hc : ∀ w, ¬s.main.Creates w) (hn : ∀ w, ¬next.Creates w)
    (hb : next = .kill .b → s.pc .a = .returned) (hr : next ≠ .returned) : Inv { s with main := next } where
  first    := h.first
  second   := h.second
  unborn w := (h.unborn w).trans <| iff_of_false (hc w) (hn w)
  returned := hb
  runs     := hr

-- After the `SIGKILL` for `worker_a` did not end the process, the one for `worker_b` does, as `worker_b`
-- is still there.
theorem not_returned_b (h : Inv s) (hm : s.main = .kill .b) : s.pc .b ≠ .returned :=
  fun hb => h.not_hasFirst_other hb <| .inr <| .inr <| h.returned hm

theorem main (h : Inv s) (he : main s = some s') : Inv s' := by
  cases hm : s.main with simp only [Deadlock.main, hm, reduceCtorEq, Option.some.injEq] at he
  | create w =>
    cases w <;> cases he <;> refine h.create (fun u => ?_) (by simp) (by simp) <;> cases u <;>
      simp [hm, Main.Creates]
  | usleep   =>
    exact he ▸ h.setMain (by simp [hm, Main.Creates]) (by simp [Main.Creates]) (by simp) (by simp)
  | kill w   =>
    have hc w : ¬s.main.Creates w := by simp [hm, Main.Creates]
    cases w <;> cases he <;> rw [kill] <;> split
    case kill.a.refl.isTrue ha  => exact h.setMain hc (by simp [Main.Creates]) (fun _ => ha) (by simp)
    case kill.b.refl.isTrue hb  => exact absurd hb <| h.not_returned_b hm
    all_goals exact h.setMain hc (by simp [Main.Creates]) (by simp) (by simp)

-- A worker locks a mutex, or moves on without one.
theorem goto (h : Inv s) (hw : s.pc w ≠ .unborn) (hk : s.pc w ≠ .returned) {owner : Mutex → Lock Worker}
    (hf : c.HasFirst → owner w.first = some w) (hr : c = .returned → owner w.other.first = some w)
    (hu : c ≠ .unborn) (ho : ∀ m u, s.owner m = some u → owner m = some u) :
    Inv { s.goto w c with owner } where
  first u hp := by
    by_cases huw : u = w
    case pos => exact huw ▸ hf (by simpa [State.goto, huw] using hp)
    case neg => exact ho _ _ <| h.first u <| by simpa [State.goto, huw] using hp
  second u hp := by
    by_cases huw : u = w
    case pos => exact huw ▸ hr (by simpa [State.goto, huw] using hp)
    case neg => exact ho _ _ <| h.second u <| by simpa [State.goto, huw] using hp
  unborn u := by
    by_cases huw : u = w
    case pos => simpa [State.goto, huw, hu] using mt (h.unborn w).mpr hw
    case neg => simpa [State.goto, huw] using h.unborn u
  returned hm := by
    have ha := h.returned hm
    by_cases haw : .a = w
    case pos => exact absurd (haw ▸ ha) hk
    case neg => simpa [State.goto, haw] using ha
  runs := h.runs

theorem lock (h : Inv s) (hw : s.pc w ≠ .unborn) (hk : s.pc w ≠ .returned) (hu : c ≠ .unborn)
    (hf : m = w.first ∨ s.owner w.first = some w) (hr : c = .returned → m = w.other.first)
    (he : lock s w m c = some s') : Inv s' := by
  obtain ⟨hm, rfl⟩ := lock_eq_some.mp he
  refine h.goto hw hk (fun _ => ?_) (fun hc => by simp [hr hc]) hu fun m' u hu => ?_
  · rcases hf with rfl | hf
    · simp
    · rw [Function.update_of_ne, hf]
      exact fun hm' => by simp [← hm', hf] at hm
  · rw [Function.update_of_ne, hu]
    exact fun hm' => by simp [← hm', hu] at hm

theorem worker (h : Inv s) (he : worker w w.first w.other.first s = some s') : Inv s' := by
  cases hp : s.pc w <;> simp only [Deadlock.worker, hp, reduceCtorEq, Option.some.injEq] at he
  case lockFirst  => exact h.lock (by simp [hp]) (by simp [hp]) (by simp) (.inl rfl) (by simp) he
  case usleep     =>
    have hf := h.first w <| by simp [hp, Pc.HasFirst]
    exact he ▸ h.goto (by simp [hp]) (by simp [hp]) (fun _ => hf) (by simp) (by simp) fun _ _ => id
  case lockSecond =>
    have hf := h.first w <| by simp [hp, Pc.HasFirst]
    exact h.lock (by simp [hp]) (by simp [hp]) (by simp) (.inr hf) (fun _ => rfl) he

theorem step (h : Inv s) (he : step s e = some s') : Inv s' := by
  cases e
  case main     => exact h.main he
  case worker w => exact h.worker (Option.ite_none_right_eq_some.mp <| step_worker.symm.trans he).right

theorem reachable (h : deadlock.Reachable s) : Inv s :=
  h.invariant init fun h _ he => h.step he

end Inv

theorem goto_rest_lt {owner : Mutex → Lock Worker} (hc : c.rest < (s.pc w).rest) :
    { s.goto w c with owner }.rest < s.rest := by
  cases w <;> simp [State.rest, State.goto, hc]

theorem lock_rest_lt (he : lock s w m c = some s') (hc : c.rest < (s.pc w).rest) : s'.rest < s.rest := by
  obtain ⟨_, rfl⟩ := lock_eq_some.mp he
  exact goto_rest_lt hc

theorem worker_rest_lt {n : Mutex} (he : worker w m n s = some s') : s'.rest < s.rest := by
  cases hp : s.pc w <;> simp only [worker, hp, reduceCtorEq, Option.some.injEq] at he
  case lockFirst | lockSecond => exact lock_rest_lt he <| by simp [hp, Pc.rest]
  case usleep                 => exact he ▸ goto_rest_lt (by simp [hp, Pc.rest])

theorem main_rest_lt (h : Inv s) (he : main s = some s') : s'.rest < s.rest := by
  cases hm : s.main with simp only [main, hm, reduceCtorEq, Option.some.injEq] at he
  | create w =>
    have hw : s.pc w = .unborn := (h.unborn w).mpr <| by cases w <;> simp [hm, Main.Creates]
    cases w <;> cases he <;>
      simp only [State.rest, State.goto, Function.update_apply, hm, hw, Main.rest, Pc.rest]
    all_goals simp only [reduceCtorEq, if_true, if_false]; omega
  | usleep   => exact he ▸ by simp [State.rest, hm, Main.rest]
  | kill w   => cases w <;> cases he <;> rw [kill] <;> split <;> simp [State.rest, hm, Main.rest]

theorem step_rest_lt (h : Inv s) (he : step s e = some s') : s'.rest < s.rest := by
  cases e
  case main     => exact main_rest_lt h he
  case worker w => exact worker_rest_lt (Option.ite_none_right_eq_some.mp <| step_worker.symm.trans he).right

-- As `main` never waits for the workers, it goes on until the process has been killed.
theorem disabled_iff (h : Inv s) : (∀ e, deadlock.step s e = none) ↔ s.main = .killed := by
  constructor
  · intro hn
    have hm : main s = none := hn .main
    have hr := h.runs
    cases hs : s.main with simp_all [main]
    | create w | kill w => cases w <;> simp_all
  · intro hk e
    have ha : ¬s.Alive := fun ha => ha.left hk
    cases e
    case main     => simp [deadlock, step, main, hk]
    case worker w => simp [deadlock, step_worker, ha]

-- Who has its first mutex keeps it.
theorem Inv.step_hasFirst (h : Inv s) (hf : ∀ w, (s.pc w).HasFirst) (he : Deadlock.step s e = some s') :
    ∀ w, (s'.pc w).HasFirst := by
  have goto {c : Pc} (w : Worker) (hc : c.HasFirst) : ∀ u, (Function.update s.pc w c u).HasFirst :=
    (Function.forall_update_iff s.pc fun _ c => c.HasFirst).mpr ⟨hc, fun u _ => hf u⟩
  cases e
  case main =>
    cases hm : s.main with simp only [Deadlock.step, Deadlock.main, hm, reduceCtorEq, Option.some.injEq] at he
    | create w =>
      have hw := (h.unborn w).mpr <| by cases w <;> simp [hm, Main.Creates]
      exact absurd (hf w) <| by simp [hw, Pc.HasFirst]
    | usleep => exact he ▸ hf
    | kill w => cases w <;> cases he <;> rw [kill] <;> split <;> exact hf
  case worker w =>
    replace he := (Option.ite_none_right_eq_some.mp <| step_worker.symm.trans he).right
    have hw := hf w
    cases hp : s.pc w <;> simp only [Deadlock.worker, hp, reduceCtorEq, Option.some.injEq] at he
    case lockFirst  => simp [hp, Pc.HasFirst] at hw
    case usleep     => exact he ▸ goto w (by simp [Pc.HasFirst])
    case lockSecond =>
      obtain ⟨_, rfl⟩ := lock_eq_some.mp he
      exact goto w (by simp [Pc.HasFirst])

-- Each run is finite and ends with one of the two `SIGKILL`s, never with the end of `main`. At most one of the
-- workers returns, and none if both of them get their first mutex.
theorem killed_of_run (he : deadlock.exec deadlock.init es = some s) :
    es.length ≤ 13 ∧ ((∀ e, deadlock.step s e = none) ↔ s.main = .killed) ∧ s.main ≠ .returned ∧
      (∀ w, s.pc w = .returned → s.pc w.other ≠ .returned) ∧
      ((∀ w, (s.pc w).HasFirst) →
        ∀ es' s', deadlock.exec s es' = some s' → ∀ w, s'.pc w ≠ .returned) := by
  have h := Inv.reachable <| .of_exec he
  refine ⟨?_, disabled_iff h, h.runs, fun w hw ho => ?_, fun hf es' s' he' w hw => ?_⟩
  · have := System.rest_add_length_le (I := Inv) State.rest (fun h he => ⟨h.step he, step_rest_lt h he⟩)
      .init he
    have : State.rest deadlock.init = 13 := rfl
    omega
  · exact h.not_hasFirst_other hw <| .inr <| .inr ho
  · have ⟨h', hf'⟩ := System.exec_invariant (I := fun s => Inv s ∧ ∀ w, (s.pc w).HasFirst)
      (fun h he => ⟨h.left.step he, h.left.step_hasFirst h.right he⟩) ⟨h, hf⟩ he'
    exact h'.not_hasFirst_other hw <| hf' _

-- Both workers lock their first mutex before any of them gets to its second one.
theorem killed_of_run_crossed :
    ∃ s, deadlock.exec deadlock.init [.main, .main, .worker .a, .worker .b, .worker .a, .worker .b] = some s ∧
      s.pc .a = .lockSecond ∧ s.pc .b = .lockSecond ∧
      ∀ es s', deadlock.exec s es = some s' → ∀ w, s'.pc w ≠ .returned :=
  have he : deadlock.exec deadlock.init [.main, .main, .worker .a, .worker .b, .worker .a, .worker .b] =
      some ⟨.usleep, _, _⟩ := rfl
  ⟨_, he, rfl, rfl, (killed_of_run he).right.right.right.right fun w => .inr <| .inl <| by cases w <;> rfl⟩

end WorkloadKit.Deadlock
