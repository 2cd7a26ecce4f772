import Mathlib.Algebra.Ring.Int.Defs
import Mathlib.Algebra.Ring.Nat
import WorkloadKit.Rpc.Loop

namespace WorkloadKit.Rpc.Loop

variable {count : BitVec 64} {stream : List Byte} {s s' : State} {e : Event} {es : List Event} {n : ℕ}

-- The statements of an iteration after the call of `read`. The message does not change the values that the
-- loop and its condition depend on.
inductive ServerStep (s : State) : State → Prop
  | hog {niters : ℤ} (hp : s.pc = .switch) (hl : 1 ≤ niters) (hu : niters < 2 ^ 63) :
    ServerStep s { s with pc := .hog niters }
  | skip (hp : s.pc = .switch) : ServerStep s { s with pc := .write }
  | next {niters : ℤ} (hp : s.pc = .hog niters) (hn : niters ≠ 1) :
    ServerStep s { s with pc := .hog (niters - 1) }
  | last (hp : s.pc = .hog 1) : ServerStep s { s with pc := .write }
  | write (hp : s.pc = .write) : ServerStep s { s with pc := .test, msg := { s.msg with ret := 42 } }
  | again (hp : s.pc = .test) (hc : s.msg.cnt.toInt > 0) : ServerStep s { s with pc := .read }
  | close (hp : s.pc = .test) (hc : ¬s.msg.cnt.toInt > 0) : ServerStep s { s with pc := .closed }

theorem ServerStep.of_eq (he : stepServer count s = some s') : ServerStep s s' := by
  cases hp : s.pc <;> simp only [stepServer, hp, Option.some.injEq, reduceCtorEq] at he
  case switch =>
    cases hc : s.msg.command count <;> simp only [hc, Option.some.injEq] at he <;> subst he
    case hog niters =>
      have := niters.toInt_lt
      rw [doHog]
      refine .hog hp ?_ ?_
      · split <;> omega
      · split <;> omega
    case sleep   => exact .skip hp
    case nothing => exact .skip hp
  case hog niters =>
    subst he
    split
    case isTrue hn => exact .next hp <| by omega
    case isFalse hn =>
      obtain rfl : niters = 1 := by omega
      exact .last hp
  case write => exact he ▸ .write hp
  case test =>
    subst he
    split
    case isTrue hc  => exact .again hp hc
    case isFalse hc => exact .close hp hc

theorem read_eq_some (he : read s n = some s') :
    s.pc = .read ∧ CanRead n s.rest True ∧
      s' = { pc := .switch, msg := .received (s.rest.take n), rest := s.rest.drop n } := by
  obtain ⟨⟨hp, hn⟩, he⟩ := Option.ite_none_right_eq_some.mp he
  exact ⟨hp, hn, (Option.some.inj he).symm⟩

-- The message of an empty read, which `memset` has cleared.
theorem received_cnt (bytes : List Byte) : (Message.received (bytes.take 0)).cnt = 0 := by
  rw [List.take_zero]
  decide

-- An upper bound of the number of statements that are left of an iteration.
def Pc.statements : Pc → ℕ
  | switch        => 2 ^ 63 + 2
  | hog niters    => niters.toNat + 2
  | write         => 2
  | test          => 1
  | read | closed => 0

def State.iterations (s : State) : ℕ :=
  if s.pc = .read ∨ s.msg.cnt.toInt > 0 then s.rest.length + 1 else 0

-- An upper bound of the number of statements that are left of the loop.
def State.work (s : State) : ℕ :=
  s.pc.statements + s.iterations * (2 ^ 63 + 3)

def State.Hogging (s : State) : Prop :=
  ∀ niters, s.pc = .hog niters → 1 ≤ niters

theorem hogging_init : (init stream).Hogging :=
  fun _ h => by simp [init] at h

theorem work_lt_server (h : s.Hogging) (he : stepServer count s = some s') :
    s'.Hogging ∧ s'.work < s.work := by
  cases ServerStep.of_eq he
  case hog hp hl hu =>
    refine ⟨fun _ hn => Pc.hog.inj hn ▸ hl, ?_⟩
    simp only [State.work, State.iterations, Pc.statements, hp, reduceCtorEq, false_or]
    omega
  case next hp hn =>
    have := h _ hp
    refine ⟨fun _ hn => Pc.hog.inj hn ▸ by omega, ?_⟩
    simp only [State.work, State.iterations, Pc.statements, hp, reduceCtorEq, false_or]
    omega
  case skip hp | last hp | write hp =>
    refine ⟨nofun, ?_⟩
    simp only [State.work, State.iterations, Pc.statements, hp, reduceCtorEq, false_or]
    omega
  case again hp hc | close hp hc =>
    refine ⟨nofun, ?_⟩
    simp [State.work, State.iterations, Pc.statements, hp, hc]

-- Each iteration but the last one takes something of the stream.
theorem work_lt_read (he : read s n = some s') : s'.Hogging ∧ s'.work < s.work := by
  obtain ⟨hp, ⟨_, hl, hz⟩, rfl⟩ := read_eq_some he
  refine ⟨nofun, ?_⟩
  simp only [State.work, State.iterations, Pc.statements, hp, reduceCtorEq, false_or, true_or, if_true,
    List.length_drop]
  rcases Nat.eq_zero_or_pos n with rfl | hn
  case inl =>
    rw [received_cnt, if_neg (by decide)]
    omega
  case inr =>
    split <;> omega

theorem work_lt (h : s.Hogging) (he : step count s e = some s') : s'.Hogging ∧ s'.work < s.work := by
  cases e
  case server => exact work_lt_server h he
  case read   => exact work_lt_read he

-- The server can go on until it has left the loop.
theorem enabled (hp : s.pc ≠ .closed) : ∃ e, (server count stream).Enabled s e := by
  by_cases hr : s.pc = .read
  case pos =>
    by_cases hb : s.rest = []
    case pos =>
      refine ⟨.read 0, ?_⟩
      simp [System.Enabled, server, step, read, hr, CanRead, hb]
    case neg =>
      have := List.length_pos_iff.mpr hb
      refine ⟨.read 1, ?_⟩
      simp [System.Enabled, server, step, read, hr, CanRead, Message.size]
      omega
  case neg =>
    refine ⟨.server, ?_⟩
    cases hp : s.pc <;> simp_all [System.Enabled, server, step, stepServer]
    cases s.msg.command count <;> rfl

-- The server is in its last iteration, as it has been told that there are no more messages.
structure Ending (s : State) : Prop where
  pc  : s.pc ≠ .read
  cnt : ¬s.msg.cnt.toInt > 0

theorem Ending.step (h : Ending s) (he : step count s e = some s') : Ending s' ∧ e.isRead = false := by
  cases e
  case read => exact absurd (read_eq_some he).left h.pc
  case server =>
    refine ⟨?_, rfl⟩
    cases ServerStep.of_eq he
    case again hc => exact absurd hc h.cnt
    all_goals exact ⟨nofun, h.cnt⟩

theorem Ending.no_reads (h : Ending s) (he : (server count stream).exec s es = some s') :
    es.countP Event.isRead = 0 := by
  induction es generalizing s
  case nil => rfl
  case cons e es hi =>
    have ⟨s₁, hs, he⟩ := System.exec_cons_eq_some.mp he
    have ⟨h₁, hr⟩ := h.step hs
    rw [List.countP_cons_of_neg (by simp [hr]), hi h₁ he]

-- An empty read is the last one.
theorem reads_le_one (he : (server count stream).exec s es = some s') (hn : ∀ n, 0 < n → .read n ∉ es) :
    es.countP Event.isRead ≤ 1 := by
  induction es generalizing s
  case nil => exact Nat.zero_le _
  case cons e es hi =>
    have ⟨s₁, hs, hes⟩ := System.exec_cons_eq_some.mp he
    cases e
    case server =>
      rw [List.countP_cons_of_neg (by simp [Event.isRead])]
      exact hi hes fun n hn' hm => hn n hn' <| List.mem_cons_of_mem _ hm
    case read n =>
      obtain rfl : n = 0 := by
        by_contra hz
        exact hn n (Nat.pos_of_ne_zero hz) List.mem_cons_self
      have h : Ending s₁ := by
        obtain ⟨_, _, rfl⟩ := read_eq_some hs
        refine ⟨nofun, ?_⟩
        rw [received_cnt]
        decide
      rw [List.countP_cons_of_pos rfl, h.no_reads hes]

-- The loop ends for each stream and each fragmentation of it, and there is at most one iteration after the
-- one of the last read that is not empty.
theorem server_loop_ends (count : BitVec 64) (stream : List Byte) :
    (∀ es s, (server count stream).exec (init stream) es = some s →
      es.length ≤ (stream.length + 1) * (2 ^ 63 + 3)) ∧
    (∀ s, (server count stream).Reachable s → s.pc ≠ .closed → ∃ e, (server count stream).Enabled s e) ∧
    ∀ es₁ es₂ s, (server count stream).exec (init stream) (es₁ ++ es₂) = some s →
      (∀ n, 0 < n → .read n ∉ es₂) → es₂.countP Event.isRead ≤ 1 := by
  refine ⟨fun es s he => ?_, fun s _ hp => enabled hp, fun es₁ es₂ s he hn => ?_⟩
  · have hl := System.rest_add_length_le (I := State.Hogging) State.work work_lt hogging_init he
    have : (init stream).work = (stream.length + 1) * (2 ^ 63 + 3) := by
      simp [State.work, State.iterations, Pc.statements, init]
    omega
  · have ⟨_, _, hes⟩ := System.exec_append_eq_some.mp he
    exact reads_le_one hes hn

end WorkloadKit.Rpc.Loop
