import WorkloadKit.Library.Simulation
import WorkloadKit.Spin.Memory

namespace WorkloadKit.Spin

variable {p : Params} {s s' : State} {m m' : Memory.State} {e : Event}

-- The calls that are made, and the statements that the workers execute with what these read.
inductive Seen
  | init (n : ℤ) | run (usec : ℤ) | exit | worker (i : ℕ) (t : Slot)

def State.seen (p : Params) (s : State) : Event → Option Seen
  | .main     =>
    match s.main with
    | .initTest => some <| .init p.n
    | .next     => some <| s.usecs.head?.elim .exit .run
    | _         => none
  | .worker i => some <| .worker i <| s.slots i
  | .alarm    => none

def Memory.State.seen (m : Memory.State) : Memory.Event → Option Seen
  | .init n   => some <| .init n
  | .run usec => some <| .run usec
  | .exit     => some .exit
  | .main _   => none
  | .worker i => some <| .worker i <| m.slots i
  | .alarm    => none

-- The statement of the module at which the arrays are in the same state. It releases them in several steps.
def Main.pc : Main → Memory.Pc
  | .initTest | .next | .done => .idle
  | .initCont      => .initCont
  | .initSem i     => .initSem i
  | .initCreate i  => .initCreate i
  | .runTest usec  => .runTest usec
  | .runSet usec   => .runSet usec
  | .runTimer usec => .runTimer usec
  | .runPost i     => .runPost i
  | .runWait i     => .runWait i
  | .exitTest      => .exitTest
  | .exitCont      => .exitCont
  | .exitPost i    => .exitPost i
  | .exitJoin i    => .exitJoin i
  | .exitFree      => .exitDestroy 0
  | .failed        => .exited

-- The state of the module without its pointers.
structure Refines (p : Params) (s : State) (m : Memory.State) : Prop where
  pc       : m.pc = s.main.pc
  nrThread : s.main ≠ .initTest → m.nrThread = p.n
  first    : s.main = .initTest → s.cont = false
  run      : m.run = s.run
  cont     : m.cont = s.cont
  alarm    : m.alarm = s.alarm
  slots    : m.slots = s.slots

-- A process that has exited does nothing that is seen.
def Matches (p : Params) (s : State) (m : Memory.State) : Prop :=
  s.main = .failed ∨ Refines p s m

theorem Refines.init (p : Params) : Refines p (Spin.init p) Memory.init where
  pc         := rfl
  nrThread h := absurd rfl h
  first _    := rfl
  run        := rfl
  cont       := rfl
  alarm      := rfl
  slots      := rfl

-- Steps of the calling thread by which nothing changes but the pointers.
structure Quiet (m m' : Memory.State) : Prop where
  moves    : ∃ fs, Memory.spin.exec m fs = some m' ∧ Memory.spin.trace Memory.State.seen m fs = []
  nrThread : m'.nrThread = m.nrThread
  run      : m'.run = m.run
  cont     : m'.cont = m.cont
  alarm    : m'.alarm = m.alarm
  slots    : m'.slots = m.slots

namespace Quiet

variable {m₁ m₂ : Memory.State} {as : List Memory.Arr}

theorem trans (h₁ : Quiet m m₁) (h₂ : Quiet m₁ m₂) : Quiet m m₂ where
  moves := by
    have ⟨fs₁, he₁, ht₁⟩ := h₁.moves
    have ⟨fs₂, he₂, ht₂⟩ := h₂.moves
    refine ⟨fs₁ ++ fs₂, System.exec_append_eq_some.mpr ⟨_, he₁, he₂⟩, ?_⟩
    rw [System.trace_append he₁, ht₁, ht₂, List.append_nil]
  nrThread := h₂.nrThread.trans h₁.nrThread
  run      := h₂.run.trans h₁.run
  cont     := h₂.cont.trans h₁.cont
  alarm    := h₂.alarm.trans h₁.alarm
  slots    := h₂.slots.trans h₁.slots

theorem moves_of_stepMain (h : Memory.stepMain true m = some m') :
    ∃ fs, Memory.spin.exec m fs = some m' ∧ Memory.spin.trace Memory.State.seen m fs = [] :=
  ⟨[.main true], System.exec_cons_eq_some.mpr ⟨m', h, rfl⟩, System.trace_singleton⟩

-- The calls of `calloc` succeed.
theorem exists_calloc (h : m.pc = .initCalloc as) :
    ∃ m', Quiet m m' ∧ m'.pc = .initCheck ∧ ∀ a, a ∈ as ∨ m.ptr a ≠ none → m'.ptr a ≠ none := by
  induction as generalizing m
  case nil =>
    have hs : Memory.stepMain true m = some { m with pc := .initCheck } := by rw [Memory.stepMain, h]
    exact ⟨_, ⟨moves_of_stepMain hs, rfl, rfl, rfl, rfl, rfl⟩, rfl, fun a ha => ha.resolve_left List.not_mem_nil⟩
  case cons a as hi =>
    let m₁ := { m.calloc true a with pc := .initCalloc as }
    have hs : Memory.stepMain true m = some m₁ := by rw [Memory.stepMain, h]
    have ⟨m', hq, hp, ha⟩ := hi (m := m₁) rfl
    refine ⟨m', .trans ⟨moves_of_stepMain hs, rfl, rfl, rfl, rfl, rfl⟩ hq, hp, fun b hb => ha b ?_⟩
    by_cases he : b = a
    case pos => exact .inr <| by simp [m₁, Memory.State.calloc, he]
    case neg =>
      refine hb.imp (fun hb => (List.mem_cons.mp hb).resolve_left he) fun hb => ?_
      simpa [m₁, Memory.State.calloc, he] using hb

theorem exists_free (h : m.pc = .exitFree as) : ∃ m', Quiet m m' ∧ m'.pc = .idle := by
  induction as generalizing m
  case nil =>
    have hs : Memory.stepMain true m = some (m.ret .exit) := by rw [Memory.stepMain, h]
    exact ⟨_, ⟨moves_of_stepMain hs, rfl, rfl, rfl, rfl, rfl⟩, rfl⟩
  case cons a as hi =>
    have hs : Memory.stepMain true m = some { m.free a with pc := .exitFree as } := by rw [Memory.stepMain, h]
    have ⟨m', hq, hp⟩ := hi (m := { m.free a with pc := .exitFree as }) rfl
    refine ⟨m', .trans ⟨moves_of_stepMain hs, ?_, ?_, ?_, ?_, ?_⟩ hq, hp⟩
    all_goals
      rw [Memory.State.free]
      split <;> rfl

-- The semaphores are destroyed before the arrays are released.
theorem exists_destroy {i k : ℕ} (h : m.pc = .exitDestroy i) (hk : m.nrThread = i + k) :
    ∃ m', Quiet m m' ∧ m'.pc = .idle := by
  induction k generalizing m i
  case zero =>
    have hs : Memory.stepMain true m = some { m with pc := .exitFree Memory.arrays } := by
      rw [Memory.stepMain, h]
      exact if_neg <| by omega
    have ⟨m', hq, hp⟩ := exists_free (m := { m with pc := .exitFree Memory.arrays }) rfl
    exact ⟨m', .trans ⟨moves_of_stepMain hs, rfl, rfl, rfl, rfl, rfl⟩ hq, hp⟩
  case succ k hi =>
    have hs : Memory.stepMain true m = some { m.use [.semStart] with pc := .exitDestroy (i + 1) } := by
      rw [Memory.stepMain, h]
      exact if_pos <| by omega
    have hk : (m.use [.semStart]).nrThread = ↑(i + 1) + ↑k := by
      rw [Memory.State.use, hk]
      omega
    have ⟨m', hq, hp⟩ := hi (m := { m.use [.semStart] with pc := .exitDestroy (i + 1) }) rfl hk
    exact ⟨m', .trans ⟨moves_of_stepMain hs, rfl, rfl, rfl, rfl, rfl⟩ hq, hp⟩

end Quiet

namespace Refines

-- The first call of `spin_init` begins, and it allocates the arrays.
theorem initTest (h : Refines p s m) (hm : s.main = .initTest) :
    ∃ fs m', Memory.spin.exec m fs = some m' ∧ Memory.spin.trace Memory.State.seen m fs = [.init p.n] ∧
      Refines p { s with main := .initCont } m' := by
  have hp : m.pc = .idle := by rw [h.pc, hm]; rfl
  have hc : m.cont = false := h.cont.trans <| h.first hm
  let m₁ := { m with pc := .initTest p.n }
  let m₂ := { m₁ with pc := .initCalloc Memory.arrays, nrThread := p.n }
  have hs₁ : Memory.spin.step m (.init p.n) = some m₁ := if_pos hp
  have hs₂ : Memory.spin.step m₁ (.main true) = some m₂ := if_neg <| by rw [hc]; decide
  have ⟨m₃, hq₃, hp₃, ha⟩ := Quiet.exists_calloc (m := m₂) rfl
  have ha a : m₃.ptr a ≠ none := ha a <| .inl <| by cases a <;> decide
  have hs₄ : Memory.stepMain true m₃ = some { m₃ with pc := .initCont } := by
    rw [Memory.stepMain, hp₃]
    exact if_neg <| by simp [ha]
  have hq : Quiet m₂ { m₃ with pc := .initCont } :=
    hq₃.trans ⟨Quiet.moves_of_stepMain hs₄, rfl, rfl, rfl, rfl, rfl⟩
  have ⟨fs, he, ht⟩ := hq.moves
  have he₂ : Memory.spin.exec m [.init p.n, .main true] = some m₂ :=
    System.exec_cons_eq_some.mpr ⟨m₁, hs₁, System.exec_cons_eq_some.mpr ⟨m₂, hs₂, rfl⟩⟩
  refine ⟨_, _, System.exec_append_eq_some.mpr ⟨_, he₂, he⟩, ?_, ?_⟩
  · rw [System.trace_append he₂, ht]
    simp [System.trace, Memory.State.seen, hs₁, hs₂]
  · exact ⟨rfl, fun _ => hq.nrThread, by rintro ⟨⟩, hq.run.trans h.run, hq.cont.trans h.cont,
      hq.alarm.trans h.alarm, hq.slots.trans h.slots⟩

theorem exitFree (h : Refines p s m) (hm : s.main = .exitFree) :
    ∃ fs m', Memory.spin.exec m fs = some m' ∧ Memory.spin.trace Memory.State.seen m fs = [] ∧
      Refines p { s with main := .done } m' := by
  have hp : m.pc = .exitDestroy 0 := by rw [h.pc, hm]; rfl
  have hn : m.nrThread = p.n := h.nrThread <| by simp [hm]
  have ⟨m', hq, hp'⟩ := Quiet.exists_destroy (k := p.n) hp <| by simp [hn]
  have ⟨fs, he, ht⟩ := hq.moves
  exact ⟨fs, m', he, ht, hp', fun _ => hq.nrThread.trans hn, by rintro ⟨⟩, hq.run.trans h.run,
    hq.cont.trans h.cont, hq.alarm.trans h.alarm, hq.slots.trans h.slots⟩

theorem goto {pc : Memory.Pc} (h : Refines p s m) (main : Main) (hi : s.main ≠ .initTest) (hp : pc = main.pc)
    (hi' : main ≠ .initTest) : Refines p { s with main } { m with pc } :=
  { h with
    pc       := hp
    nrThread := fun _ => h.nrThread hi
    first    := fun hm => absurd hm hi' }

-- Elements of the arrays are read or written.
theorem setSlot {i : ℕ} {t t' : Slot} (h : Refines p s m) (as : List Memory.Arr) (ht : t' = t) :
    Refines p (s.setSlot i t) ((m.use as).setSlot i t') :=
  { h with
    slots := by rw [State.setSlot, Memory.State.setSlot, ← h.slots, ht]; rfl }

theorem use (h : Refines p s m) (as : List Memory.Arr) : Refines p s (m.use as) :=
  { h with }

theorem ret {call : Memory.Call} (h : Refines p s m) (main : Main) (hi : s.main ≠ .initTest)
    (hp : .idle = main.pc) (hi' : main ≠ .initTest) : Refines p { s with main } (m.ret call) :=
  { h.goto main hi hp hi' with }

-- A step of the calling thread that belongs to a single statement of the module.
theorem stepMain (h : Refines p s m) (hi : s.main ≠ .initTest) (hn : s.main ≠ .next) (hf : s.main ≠ .exitFree)
    (hs : Spin.stepMain p s = some s') :
    s'.main = .failed ∨ ∃ m', Memory.stepMain true m = some m' ∧ Refines p s' m' := by
  have hl (i : ℕ) : (i : ℤ) < m.nrThread ↔ i < p.n := by
    rw [h.nrThread hi]
    exact Int.ofNat_lt
  have hp := h.pc
  have hc := h.cont
  have hd := h.slots
  cases hm : s.main
  all_goals
    simp only [Spin.stepMain, hm] at hs
    simp only [Memory.stepMain, hp, hm, Main.pc, hl]
  case initTest => exact absurd hm hi
  case next     => exact absurd hm hn
  case exitFree => exact absurd hm hf
  case done | failed => cases hs
  case initCont =>
    cases hs
    exact .inr ⟨_, rfl, { h.goto (.initSem 0) hi rfl (by rintro ⟨⟩) with cont := rfl, first := by rintro ⟨⟩ }⟩
  case exitCont =>
    cases hs
    exact .inr ⟨_, rfl, { h.goto (.exitPost 0) hi rfl (by rintro ⟨⟩) with cont := rfl, first := by rintro ⟨⟩ }⟩
  case runSet usec =>
    cases hs
    exact .inr ⟨_, rfl, { h.goto (.runTimer usec) hi rfl (by rintro ⟨⟩) with run := rfl }⟩
  case initSem | runPost | exitPost =>
    split at hs <;> cases hs
    case isTrue hl  => exact .inr ⟨_, if_pos hl, (h.setSlot _ <| by rw [hd]).goto _ hi rfl (by rintro ⟨⟩)⟩
    case isFalse hl => exact .inr ⟨_, if_neg hl, h.goto _ hi rfl (by rintro ⟨⟩)⟩
  case initCreate =>
    split at hs <;> cases hs
    case isTrue hl  => exact .inr ⟨_, if_pos hl, (h.setSlot _ <| by rw [hd]).goto _ hi rfl (by rintro ⟨⟩)⟩
    case isFalse hl => exact .inr ⟨_, if_neg hl, h.ret _ hi rfl (by rintro ⟨⟩)⟩
  case runWait =>
    split at hs
    case isTrue hl =>
      obtain ⟨hw, hs⟩ := Option.ite_none_right_eq_some.mp hs
      cases hs
      rw [← hd] at hw
      exact .inr ⟨_, (if_pos hl).trans <| if_pos hw, (h.setSlot _ <| by rw [hd]).goto _ hi rfl (by rintro ⟨⟩)⟩
    case isFalse hl =>
      cases hs
      exact .inr ⟨_, if_neg hl, { h.ret .next hi rfl (by rintro ⟨⟩) with }⟩
  case exitJoin =>
    split at hs
    case isTrue hl =>
      obtain ⟨hw, hs⟩ := Option.ite_none_right_eq_some.mp hs
      cases hs
      rw [← hd] at hw
      exact .inr ⟨_, (if_pos hl).trans <| if_pos hw, (h.use _).goto _ hi rfl (by rintro ⟨⟩)⟩
    case isFalse hl =>
      cases hs
      exact .inr ⟨_, if_neg hl, h.goto _ hi rfl (by rintro ⟨⟩)⟩
  case runTest =>
    split at hs <;> cases hs
    case isTrue hr  => exact .inr ⟨_, if_pos <| hc.trans hr, h.goto _ hi rfl (by rintro ⟨⟩)⟩
    case isFalse hr => exact .inr ⟨_, if_neg <| hc ▸ hr, { h.ret .next hi rfl (by rintro ⟨⟩) with }⟩
  case exitTest =>
    split at hs <;> cases hs
    case isTrue hr  => exact .inr ⟨_, if_pos <| hc.trans hr, h.goto _ hi rfl (by rintro ⟨⟩)⟩
    case isFalse hr => exact .inr ⟨_, if_neg <| hc ▸ hr, h.ret _ hi rfl (by rintro ⟨⟩)⟩
  case runTimer usec =>
    cases ht : setitimer usec
    all_goals
      rw [ht] at hs
      cases hs
    case none => exact .inl rfl
    case some alarm => exact .inr ⟨_, rfl, { h.goto (.runPost 0) hi rfl (by rintro ⟨⟩) with alarm := rfl }⟩

theorem pc_ne_exited (h : Refines p s m) (hm : s.main ≠ .failed) : m.pc ≠ .exited := by
  rw [h.pc]
  cases hc : s.main <;> first | exact absurd hc hm | rintro ⟨⟩

theorem worker {i : ℕ} (h : Refines p s m) (hm : s.main ≠ .failed) {t : Slot}
    (hs : Spin.worker s.cont s.run (s.slots i) = some t) :
    ∃ m', Memory.step m (.worker i) = some m' ∧ Refines p (s.setSlot i t) m' := by
  refine ⟨_, if_pos <| h.pc_ne_exited hm, ?_⟩
  rw [Memory.stepWorker, h.cont, h.run, h.slots, hs]
  exact h.setSlot _ rfl

-- Between two calls, the next one begins.
theorem next (h : Refines p s m) (hm : s.main = .next) (hs : Spin.stepMain p s = some s') :
    ∃ f m', Memory.spin.step m f = some m' ∧ m.seen f = s.seen p .main ∧ Refines p s' m' := by
  have hp : m.pc = .idle := by rw [h.pc, hm]; rfl
  have hi : s.main ≠ .initTest := by simp [hm]
  simp only [Spin.stepMain, hm] at hs
  simp only [State.seen, hm]
  cases hu : s.usecs
  all_goals
    rw [hu] at hs
    cases hs
  case nil => exact ⟨.exit, _, if_pos hp, rfl, { h.goto .exitTest hi rfl (by rintro ⟨⟩) with }⟩
  case cons usec usecs =>
    exact ⟨.run usec, _, if_pos hp, rfl, { h.goto (.runTest usec) hi rfl (by rintro ⟨⟩) with }⟩

end Refines

theorem seen_main_eq_none (hi : s.main ≠ .initTest) (hn : s.main ≠ .next) : s.seen p .main = none := by
  rw [State.seen]
  split <;> first | contradiction | rfl

-- The steps of the module that belong to a step of the calling thread.
theorem Refines.step_main (h : Refines p s m) (hs : Spin.stepMain p s = some s') :
    ∃ fs m', Memory.spin.exec m fs = some m' ∧
      Memory.spin.trace Memory.State.seen m fs = (s.seen p .main).toList ∧ Matches p s' m' := by
  by_cases hi : s.main = .initTest
  case pos =>
    obtain ⟨fs, m', he, ht, hr⟩ := h.initTest hi
    obtain rfl : { s with main := .initCont } = s' := by simpa [Spin.stepMain, hi, h.first hi] using hs
    exact ⟨fs, m', he, ht.trans <| by simp [State.seen, hi], .inr hr⟩
  case neg =>
    by_cases hn : s.main = .next
    case pos =>
      obtain ⟨f, m', hs', hl, hr⟩ := h.next hn hs
      exact Simulation.single hs' hl <| .inr hr
    case neg =>
      have hl : s.seen p .main = none := seen_main_eq_none hi hn
      by_cases hx : s.main = .exitFree
      case pos =>
        obtain ⟨fs, m', he, ht, hr⟩ := h.exitFree hx
        obtain rfl : { s with main := .done } = s' := by simpa [Spin.stepMain, hx] using hs
        exact ⟨fs, m', he, ht.trans <| by rw [hl]; rfl, .inr hr⟩
      case neg =>
        obtain hf | ⟨m', hs', hr⟩ := h.stepMain hi hn hx hs
        case inl => exact Simulation.stutter hl <| .inl hf
        case inr => exact Simulation.single (d := .main true) hs' hl.symm <| .inr hr

-- Each step of the three functions is matched by steps of the module, of which the same is seen.
theorem simulation (p : Params) :
    Simulation (spin p) Memory.spin (State.seen p) Memory.State.seen (Matches p) where
  init := .inr <| .init p
  step := by
    intro s m e s' hr hs
    by_cases hf : s.main = .failed
    case pos =>
      cases e
      case main     => simp [spin, Spin.step, stepMain, hf] at hs
      case worker i => simp [spin, Spin.step, hf] at hs
      case alarm    =>
        obtain ⟨_, hs⟩ := Option.ite_none_right_eq_some.mp hs
        cases hs
        exact Simulation.stutter rfl <| .inl hf
    case neg =>
      have h := hr.resolve_left hf
      cases e
      case worker i =>
        obtain ⟨_, hs⟩ := Option.ite_none_right_eq_some.mp hs
        obtain ⟨t, ht, rfl⟩ := Option.map_eq_some_iff.mp hs
        obtain ⟨m', hs', hr'⟩ := h.worker hf ht
        exact Simulation.single (d := .worker i) hs' (by rw [State.seen, Memory.State.seen, h.slots]) <| .inr hr'
      case alarm =>
        obtain ⟨ha, hs⟩ := Option.ite_none_right_eq_some.mp hs
        cases hs
        have hs' : Memory.step m .alarm = some { m with run := false, alarm := false } :=
          if_pos ⟨h.alarm.trans ha, h.pc_ne_exited hf⟩
        exact Simulation.single (d := .alarm) hs' rfl <| .inr { h with run := rfl, alarm := rfl }
      case main => exact h.step_main hs

-- A run of the three functions is a run of the module, in which the same calls are made and the workers execute
-- the same statements.
theorem exists_memory_exec {es : List Event} (he : (spin p).exec (init p) es = some s) :
    ∃ fs m, Memory.spin.exec Memory.init fs = some m ∧
      Memory.spin.trace Memory.State.seen Memory.init fs = (spin p).trace (State.seen p) (init p) es ∧
      Matches p s m :=
  (simulation p).trace_eq he

end WorkloadKit.Spin
