import WorkloadKit.Signest.Theorems.Nested

namespace WorkloadKit.Signest

open Stmt

variable {action : ℤ} {s s' : State} {e : Event} {es : List Event} {sig : Sig} {fn : Function} {stmt : Stmt}
  {code : List Stmt}

-- What the statements of the program have in common.
def Stmt.Sound (action : ℤ) : Stmt → Prop
  | kill sig     => sig = .usr2
  | signal sig d => (d = .ignore → action = 3) ∧ ∀ fn, d = .handler fn → fn.sig = sig
  | _            => True

theorem sound_of_mem_main (h : stmt ∈ Signest.main) : stmt.Sound action := by
  simp only [Signest.main, List.mem_cons, List.not_mem_nil, or_false] at h
  rcases h with rfl | rfl | rfl | rfl | rfl | rfl | rfl | rfl | rfl | rfl <;> simp [Stmt.Sound, Function.sig]

theorem sound_of_mem_body (h : stmt ∈ fn.body action) : stmt.Sound action := by
  cases fn <;> simp only [Function.body, mem_handler1, List.mem_cons, List.not_mem_nil, or_false] at h
  case handler1 =>
    rcases h with ⟨_, rfl | rfl | rfl | rfl⟩ | ⟨_, rfl⟩ | ⟨_, rfl | rfl | rfl⟩ | ⟨ha, rfl | rfl⟩ <;>
      simp [Stmt.Sound, *]
  all_goals rcases h with rfl | rfl <;> trivial

theorem kills_le : (fn.body action).count (kill .usr2) ≤ if fn = .handler1 then 1 else 0 := by
  cases fn
  case handler1 => simp only [Function.body, handler1]; split_ifs <;> decide
  all_goals simp [Function.body]

-- The calls of `kill` that the handlers have not made.
def State.kills (s : State) : ℕ :=
  (s.handlers.map fun f => f.code.count (kill .usr2)).sum

-- How often other processes and the first handler have sent the second signal, or the first handler will, less
-- the calls of the second handler and the instances that are or will be pending.
def State.balance (s : State) : ℤ :=
  s.sent.count .usr2 + s.calls.count .handler1 - s.calls.count .handler2 - s.signals.pending .usr2 - s.kills

-- No call of the first handler has sent the second signal that can also unblock it.
def Unsent (action : ℤ) (frames : List Frame) : Prop :=
  ∀ f ∈ frames, unblock .usr2 ∈ f.fn.body action → kill .usr2 ∈ f.code

-- The instance that `main` has sent is pending, and there has not been another one.
def Tight (action : ℤ) (s : State) : Prop :=
  s.signals.pending .usr2 = 1 ∧ Unsent action s.handlers

-- What `main` adds to the balance.
structure Balanced (action : ℤ) (s : State) : Prop where
  le  : -1 ≤ s.balance
  two : s.main.count (kill .usr2) = 2 → 0 ≤ s.balance
  one : s.main.count (kill .usr2) = 1 → 0 ≤ s.balance ∨ Tight action s

theorem Balanced.keep (h : Balanced action s) (hm : s'.main.count (kill .usr2) = s.main.count (kill .usr2))
    (hb : s.balance ≤ s'.balance)
    (ht : s.main.count (kill .usr2) = 1 → s'.balance < 0 → Tight action s → Tight action s') :
    Balanced action s' where
  le     := h.le.trans hb
  two hc := (h.two <| hm ▸ hc).trans hb
  one hc := by
    by_cases hn : 0 ≤ s'.balance
    case pos => exact .inl hn
    case neg =>
      have hc := hm ▸ hc
      exact .inr <| ht hc (by omega) <| (h.one hc).resolve_left fun hz => hn <| hz.trans hb

structure Inv (action : ℤ) (s : State) : Prop where
  nested   : Nested action s.main s.handlers s.signals.blocked
  handler  : ∀ sig fn, s.signals.disposition sig = .handler fn → fn.sig = sig
  ignored  : ∀ sig, s.signals.disposition sig = .ignore → action = 3
  balanced : Balanced action s
  lower    : s.status = .running → action ≠ 3 → s.main.count (kill .usr2) ≤ 1 →
    0 < s.signals.pending .usr2 ∨ .handler2 ∈ s.calls
  bye      : .bye ∈ s.output → action ≠ 3 → .handler2 ∈ s.calls
  after    : .after ∉ s.output

theorem pending_send (p : Signals Sig Function Sig.queued) (sig : Sig) :
    p.pending .usr2 ≤ (p.send sig).pending .usr2 ∧
      (p.send sig).pending .usr2 ≤ p.pending .usr2 + if sig = .usr2 then 1 else 0 := by
  split
  case isTrue hs  => exact hs ▸ ⟨Signals.le_pending_send, Signals.pending_send_le⟩
  case isFalse hs => rw [Signals.pending_send_of_ne <| Ne.symm hs]; exact ⟨le_rfl, le_rfl⟩

theorem pending_take {p : Signals Sig Function Sig.queued} (h : p.Deliverable sig) :
    p.pending .usr2 = (p.take sig).pending .usr2 + (if sig = .usr2 then 1 else 0) ∧ 0 < p.pending sig := by
  refine ⟨?_, h.right⟩
  have := h.right
  by_cases hs : sig = .usr2
  case pos =>
    subst hs
    simp only [Signals.take, Function.update_self, if_true]
    omega
  case neg => simp [Signals.take, hs, Function.update_of_ne (Ne.symm hs)]

theorem setCode_eq :
    s.setCode code = { s with main := (s.setCode code).main, handlers := (s.setCode code).handlers } := by
  rw [State.setCode]
  split <;> rfl

-- A statement that does not send the second signal.
theorem setCode_of_ne (hc : s.code = stmt :: code) (hk : stmt ≠ kill .usr2) :
    (s.setCode code).main.count (kill .usr2) = s.main.count (kill .usr2) ∧ (s.setCode code).kills = s.kills ∧
      (Unsent action s.handlers → Unsent action (s.setCode code).handlers) := by
  rw [State.code] at hc
  rw [State.setCode]
  split at hc
  case h_1 hf =>
    rw [hc]
    exact ⟨(List.count_cons_of_ne hk).symm, rfl, id⟩
  case h_2 f fs hf =>
    refine ⟨rfl, ?_, fun hu => ?_⟩
    case refine_1 => simp [State.kills, hf, hc, List.count_cons_of_ne hk]
    case refine_2 =>
      rw [hf] at hu
      obtain ⟨hu, hus⟩ := List.forall_mem_cons.mp hu
      refine List.forall_mem_cons.mpr ⟨fun hm => ?_, hus⟩
      have hu := hu hm
      rw [hc] at hu
      exact (List.mem_cons.mp hu).resolve_left hk.symm

namespace Inv

theorem init : Inv action init where
  nested   := .main <| List.nil_append _
  handler  := nofun
  ignored  := nofun
  balanced := ⟨by decide, fun _ => by decide, fun _ => .inl <| by decide⟩
  lower _ _ hc := absurd hc <| by decide
  bye      := nofun
  after    := nofun

theorem send (h : Inv action s) :
    Inv action { s with signals := s.signals.send sig, sent := s.sent ++ [sig] } where
  nested   := by simpa using h.nested
  handler  := by simpa using h.handler
  ignored  := by simpa using h.ignored
  balanced := by
    obtain ⟨hle, hp⟩ := pending_send s.signals sig
    have hl := (s.signals.send sig).pending_le .usr2 rfl
    refine h.balanced.keep rfl ?_ fun _ _ ht => ⟨?_, ht.right⟩
    case refine_1 =>
      simp only [State.balance, State.kills, List.count_append, List.count_singleton, beq_iff_eq]
      push_cast
      split at hp
      case isTrue hs  => rw [if_pos hs]; omega
      case isFalse hs => rw [if_neg hs]; omega
    case refine_2 =>
      have := ht.left
      simp only
      omega
  lower hr ha hc := (h.lower hr ha hc).imp_left fun hp => hp.trans_le (pending_send s.signals sig).left
  bye      := h.bye
  after    := h.after

-- The process ends.
theorem stop (h : Inv action s) {status : Status} (hs : status ≠ .running) : Inv action { s with status } :=
  { h with
    balanced := ⟨h.balanced.le, h.balanced.two, h.balanced.one⟩
    lower    := fun hr => absurd hr hs }

theorem leave (h : Inv action s) (hc : s.code = []) : Inv action (leave s) := by
  rw [Signest.leave]
  split
  case h_1 => exact h.stop (by decide)
  case h_2 f fs hf =>
    have hc : f.code = [] := by simpa [State.code, hf] using hc
    have hk : ({ s with signals := s.signals.setBlocked f.saved, handlers := fs } : State).kills = s.kills := by
      simp [State.kills, hf, hc]
    exact { h with
      nested   := (hf ▸ h.nested).leave
      balanced := h.balanced.keep rfl (by simp only [State.balance, hk]; exact le_rfl) fun _ _ ht =>
        ⟨ht.left, fun g hg => ht.right g <| hf ▸ List.mem_cons_of_mem _ hg⟩ }

-- A null pointer is only used while the signal of this is blocked.
theorem fault (h : Inv action s) (hc : s.code = load :: code) :
    fault action s .segv = { s with status := .killed .segv } := by
  simp [Signest.fault, h.nested.blocked_of_load hc]

-- An instance that is not pending any more is added to the balance.
theorem balance_take (hd : s.signals.Deliverable sig) :
    s.balance + (if sig = .usr2 then 1 else 0) = ({ s with signals := s.signals.take sig } : State).balance := by
  have hp := (pending_take hd).left
  simp only [State.balance, State.kills]
  split at hp <;> simp only [*, if_true, if_false] <;> omega

theorem balance_call (hd : s.signals.Deliverable fn.sig) :
    (Signest.call action { s with signals := s.signals.take fn.sig } fn.sig fn).balance =
      s.balance + (if fn = .handler1 then 1 else 0) - (fn.body action).count (kill .usr2) := by
  have hk := balance_take hd
  simp only [State.balance, State.kills] at hk
  simp only [State.balance, State.kills, Signest.call, Signals.setBlocked, List.map_cons, List.sum_cons,
    List.count_append, List.count_singleton, beq_iff_eq]
  cases fn <;> simp [Function.sig] at hk ⊢ <;> omega

theorem take_balanced (h : Inv action s) (hd : s.signals.Deliverable sig) :
    Balanced action { s with signals := s.signals.take sig } := by
  have ⟨hp, hb⟩ := pending_take hd
  have hk := balance_take hd
  refine h.balanced.keep rfl ?_ fun hc hn ht => ⟨?_, ht.right⟩
  case refine_1 =>
    rw [← hk]
    split <;> omega
  case refine_2 =>
    have := h.balanced.le
    have := ht.left
    simp only
    split at hk <;> split at hp <;> first | omega | contradiction

theorem call (h : Inv action s) (hd : s.signals.Deliverable fn.sig) :
    Inv action (call action { s with signals := s.signals.take fn.sig } fn.sig fn) where
  nested   := .call h.nested hd.left (List.nil_append _) (List.not_mem_nil)
  handler  := h.handler
  ignored  := h.ignored
  balanced := by
    refine h.balanced.keep rfl ?_ fun hc hn ht => ?_
    case refine_1 =>
      have := @kills_le action fn
      rw [balance_call hd]
      split_ifs at this ⊢ <;> omega
    case refine_2 =>
      have hu := h.nested.blocked_of_kills hc ht.right
      have hs : fn.sig ≠ .usr2 := fun hs => by simpa [hs, hu] using hd.left
      refine ⟨?_, List.forall_mem_cons.mpr ⟨fun hm => ?_, ht.right⟩⟩
      · have := (pending_take hd).left
        rw [if_neg hs, ht.left] at this
        exact this.symm
      · obtain ⟨_, rfl, rfl⟩ := eq_of_unblock_mem hm
        simp [Function.body, handler1]
  lower hr ha hc := by
    by_cases hf : fn = .handler2
    case pos => exact .inr <| by simp [Signest.call, hf]
    case neg =>
      have hs : fn.sig ≠ .usr2 := fun hs => hf <| Function.sig_inj.mp hs
      have := (pending_take hd).left
      rw [if_neg hs] at this
      exact (h.lower hr ha hc).imp this.symm.trans_gt (List.mem_append_left _)
  bye hb ha := List.mem_append_left _ <| h.bye hb ha
  after    := h.after

theorem deliver (h : Inv action s) (hd : s.signals.Deliverable sig) : Inv action (deliver action s sig) := by
  have hb := h.take_balanced hd
  rw [Signest.deliver]
  simp only
  split
  case h_1 =>
    exact { h with
      balanced := ⟨hb.le, hb.two, hb.one⟩
      lower    := fun hr => absurd hr (by simp) }
  case h_2 hi =>
    exact { h with
      balanced := hb
      lower    := fun _ ha => absurd (h.ignored _ hi) ha }
  case h_3 fn hf =>
    obtain rfl := h.handler _ _ hf
    exact h.call hd

-- A statement that does not send a signal, and that changes what is pending at most by dropping something.
theorem exec_of_le (h : Inv action s) (hc : s.code = stmt :: code) (hl : stmt ≠ load) (hk : stmt ≠ kill .usr2)
    {signals : Signals Sig Function Sig.queued} (hb : signals.blocked = stmt.mask s.signals.blocked)
    (hd : ∀ sig fn, signals.disposition sig = .handler fn → fn.sig = sig)
    (hi : ∀ sig, signals.disposition sig = .ignore → action = 3)
    (hp : signals.pending .usr2 ≤ s.signals.pending .usr2)
    (he : action ≠ 3 → signals.pending .usr2 = s.signals.pending .usr2) :
    Inv action { s.setCode code with signals } := by
  have ⟨hm, hks, ht⟩ := @setCode_of_ne action _ _ _ hc hk
  have hn := h.nested.advance hc hl
  rw [← hb] at hn
  rw [setCode_eq]
  have hbal : s.balance ≤ State.balance { s with
      main := (s.setCode code).main, handlers := (s.setCode code).handlers, signals } := by
    simp only [State.balance, State.kills] at hks ⊢
    omega
  exact {
    nested   := hn
    handler  := hd
    ignored  := hi
    balanced := h.balanced.keep hm hbal fun _ hneg hts => by
      have := h.balanced.le
      refine ⟨?_, ht hts.right⟩
      simp only [State.balance, State.kills] at hks hneg this ⊢
      have := hts.left
      omega
    lower hr ha hc := he ha ▸ h.lower hr ha (hm ▸ hc)
    bye      := h.bye
    after    := h.after }

-- The second signal is sent by `main`, for the first or for the second time.
theorem kill_balanced_main (h : Inv action s) (hf : s.handlers = []) (hc : s.main = kill .usr2 :: code) :
    Balanced action { s with main := code, signals := s.signals.send .usr2 } := by
  obtain ⟨_, hm⟩ := h.nested.exists_done_main
  have ⟨_, hp⟩ := pending_send s.signals .usr2
  have hl := (s.signals.send .usr2).pending_le .usr2 rfl
  have hn : s.main.count (kill .usr2) = 1 ∨ s.main.count (kill .usr2) = 2 := by
    have h₁ : 0 < s.main.count (kill .usr2) := List.count_pos_iff.mpr <| hc ▸ List.mem_cons_self
    have h₂ : s.main.count (kill .usr2) ≤ 2 := (hm ▸ List.sublist_append_right ..).count_le _
    omega
  have hcode : code.count (kill .usr2) + 1 = s.main.count (kill .usr2) := by rw [hc, List.count_cons_self]
  have hbal : State.balance { s with main := code, signals := s.signals.send .usr2 } =
      s.balance + s.signals.pending .usr2 - (s.signals.send .usr2).pending .usr2 := by
    simp only [State.balance, State.kills]
    omega
  rw [if_pos rfl] at hp
  refine ⟨?le, fun hc => ?two, fun hc => ?one⟩
  case le =>
    rw [hbal]
    obtain hn | hn := hn
    case inl =>
      have := h.balanced.le
      obtain h₁ | ⟨h₁, _⟩ := h.balanced.one hn <;> omega
    case inr =>
      have := h.balanced.two hn
      omega
  case two =>
    simp only at hc
    omega
  case one =>
    simp only at hc
    have := h.balanced.two (by omega)
    rw [hbal]
    by_cases hz : (s.signals.send .usr2).pending .usr2 = 1
    case pos => exact .inr ⟨hz, by simp [Unsent, hf]⟩
    case neg => exact .inl (by omega)

theorem kill_balanced_handler (h : Inv action s) {f : Frame} {fs : List Frame} (hf : s.handlers = f :: fs)
    (hc : f.code = kill .usr2 :: code) :
    Balanced action { s with handlers := { f with code } :: fs, signals := s.signals.send .usr2 } := by
  have ⟨hle, hp⟩ := pending_send s.signals .usr2
  have hl := (s.signals.send .usr2).pending_le .usr2 rfl
  have hb := h.balanced.le
  have hk : s.kills = State.kills { s with handlers := { f with code } :: fs } + 1 := by
    simp [State.kills, hf, hc]
    omega
  have hbal : State.balance { s with handlers := { f with code } :: fs, signals := s.signals.send .usr2 } =
      s.balance + s.signals.pending .usr2 + 1 - (s.signals.send .usr2).pending .usr2 := by
    simp only [State.balance, State.kills] at hk ⊢
    omega
  rw [if_pos rfl] at hp
  refine h.balanced.keep rfl (by rw [hbal]; omega) fun _ hneg ht => ?_
  rw [hbal] at hneg
  have := ht.left
  omega

theorem kill_balanced (h : Inv action s) (hc : s.code = kill .usr2 :: code) :
    Balanced action { s.setCode code with signals := s.signals.send .usr2 } := by
  rw [State.code] at hc
  rw [State.setCode]
  split at hc
  case h_1 hf       => exact h.kill_balanced_main hf hc
  case h_2 f fs hf  => exact h.kill_balanced_handler hf hc

-- Before `main` ends, the second handler has been called, unless its signal is ignored.
theorem handler2_mem (h : Inv action s) (hr : s.status = .running) (hc : s.code = print .bye :: code)
    (hd : ∀ sig, ¬s.signals.Deliverable sig) (ha : action ≠ 3) : .handler2 ∈ s.calls := by
  obtain ⟨hf, _⟩ | ⟨fn, done, hb, _⟩ := h.nested.exists_done_code hc
  case inl =>
    obtain ⟨done, hm, hb⟩ := Nested.main_of_nil <| hf ▸ h.nested
    have hc : s.main = print .bye :: code := by simpa [State.code, hf] using hc
    obtain ⟨hu, hn⟩ := (Nested.mask_of_main hm).right <| by rw [hc]; rfl
    refine (h.lower hr ha <| hn ▸ Nat.zero_le _).resolve_left fun hp => hd .usr2 ⟨?_, hp⟩
    rw [← hb, hu]
  case inr =>
    have hm : print .bye ∈ fn.body action := hb ▸ List.mem_append_cons_self
    cases fn <;> simp [Function.body, mem_handler1] at hm

theorem not_after (h : Inv action s) (hc : s.code = print .after :: code) : False := by
  obtain ⟨_, done, hm⟩ | ⟨fn, done, hb, hl⟩ := h.nested.exists_done_code hc
  case inl =>
    have hm : print .after ∈ Signest.main := hm ▸ List.mem_append_cons_self
    exact absurd hm (by decide)
  case inr =>
    have hm : print .after ∈ fn.body action := hb ▸ List.mem_append_cons_self
    cases fn <;> simp [Function.body, mem_handler1] at hm
    subst hm
    exact hl <| Nested.load_mem_of_after hb

theorem sound_of_code (h : Inv action s) (hc : s.code = stmt :: code) : stmt.Sound action := by
  obtain ⟨_, _, hm⟩ | ⟨_, _, hb, _⟩ := h.nested.exists_done_code hc
  case inl => exact sound_of_mem_main <| hm ▸ List.mem_append_cons_self
  case inr => exact sound_of_mem_body <| hb ▸ List.mem_append_cons_self

-- The statement does not change the signals.
theorem keep (h : Inv action s) (hc : s.code = stmt :: code) (hl : stmt ≠ load) (hk : stmt ≠ kill .usr2)
    (hm : stmt.mask s.signals.blocked = s.signals.blocked) : Inv action (s.setCode code) := by
  have hs : (s.setCode code).signals = s.signals := by rw [setCode_eq]
  have := h.exec_of_le hc hl hk hm.symm h.handler h.ignored le_rfl fun _ => rfl
  rwa [← hs] at this

theorem signal (h : Inv action s) {d : Disposition Function} (hc : s.code = signal sig d :: code) :
    Inv action { s.setCode code with signals := s.signals.signal sig d } := by
  have ⟨hi, hf⟩ : (d = .ignore → action = 3) ∧ ∀ fn, d = .handler fn → fn.sig = sig := h.sound_of_code hc
  refine h.exec_of_le hc (by simp) (by simp) rfl (fun t fn ht => ?handler) (fun t ht => ?ignored)
    Signals.pending_signal_le fun ha => ?pending
  case handler =>
    by_cases hs : t = sig
    case pos =>
      subst hs
      exact hf fn <| by simpa [Signals.signal] using ht
    case neg => exact h.handler t fn <| by simpa [Signals.signal, hs] using ht
  case ignored =>
    by_cases hs : t = sig
    case pos =>
      subst hs
      exact hi <| by simpa [Signals.signal] using ht
    case neg => exact h.ignored t <| by simpa [Signals.signal, hs] using ht
  case pending => simp [Signals.signal, mt hi ha]

theorem kill (h : Inv action s) (hc : s.code = kill .usr2 :: code) :
    Inv action { s.setCode code with signals := s.signals.send .usr2 } := by
  have hn : Nested action _ _ s.signals.blocked := h.nested.advance hc (by simp)
  have hb := h.kill_balanced hc
  have hp (ha : action ≠ 3) : 0 < (s.signals.send .usr2).pending .usr2 :=
    Signals.pending_send_pos fun hi => absurd (h.ignored _ hi) ha
  rw [setCode_eq] at hb ⊢
  exact {
    nested   := by simpa using hn
    handler  := by simpa using h.handler
    ignored  := by simpa using h.ignored
    balanced := hb
    lower    := fun _ ha _ => .inl <| hp ha
    bye      := h.bye
    after    := h.after }

theorem print (h : Inv action s) {msg : Message} (hr : s.status = .running) (hc : s.code = print msg :: code)
    (hd : ∀ sig, ¬s.signals.Deliverable sig) :
    Inv action { s.setCode code with output := (s.setCode code).output ++ [msg] } := by
  have h' := h.keep hc (by simp) (by simp) rfl
  have hcalls : (s.setCode code).calls = s.calls := by rw [setCode_eq]
  refine { h' with
    balanced := ⟨h'.balanced.le, h'.balanced.two, h'.balanced.one⟩
    bye      := fun hb ha => ?bye
    after    := fun hm => ?after }
  case bye =>
    obtain hb | hb := List.mem_append.mp hb
    case inl => exact h'.bye hb ha
    case inr =>
      obtain rfl := List.mem_singleton.mp hb
      exact hcalls ▸ h.handler2_mem hr hc hd ha
  case after =>
    obtain hm | hm := List.mem_append.mp hm
    case inl => exact h'.after hm
    case inr =>
      obtain rfl := List.mem_singleton.mp hm
      exact h.not_after hc

-- The process goes on with a statement other than `load`.
theorem exec (h : Inv action s) (hr : s.status = .running) (hc : s.code = stmt :: code) (hl : stmt ≠ load)
    (hd : ∀ sig, ¬s.signals.Deliverable sig) : Inv action (exec (s.setCode code) stmt) := by
  have hsig : (s.setCode code).signals = s.signals := by rw [setCode_eq]
  cases stmt
  case load => exact absurd rfl hl
  case signal =>
    simp only [Signest.exec, hsig]
    exact h.signal hc
  case block | unblock =>
    simp only [Signest.exec, hsig]
    exact h.exec_of_le hc hl (by simp) rfl h.handler h.ignored le_rfl fun _ => rfl
  case kill sig =>
    obtain rfl : sig = .usr2 := h.sound_of_code hc
    simp only [Signest.exec, hsig]
    exact h.kill hc
  case print => exact h.print hr hc hd
  case doBt  => exact h.keep hc hl (by simp) rfl
  case exit  => exact (h.keep hc hl (by simp) rfl).stop (by decide)

theorem run (h : Inv action s) (hr : s.status = .running) (hd : ∀ sig, ¬s.signals.Deliverable sig) :
    Inv action (run action s) := by
  rw [Signest.run]
  split
  case h_1 hc         => exact h.leave hc
  case h_2 hc         => rw [h.fault hc]; exact h.stop (by decide)
  case h_3 hl hc      => exact h.exec hr hc hl hd

theorem step (h : Inv action s) (he : step action s e = some s') : Inv action s' := by
  simp only [Signest.step, Option.ite_none_right_eq_some] at he
  obtain ⟨hr, he⟩ := he
  cases e with simp only at he
  | run         =>
    obtain ⟨hd, he⟩ := Option.ite_none_left_eq_some.mp he
    exact Option.some.inj he ▸ h.run hr (not_exists.mp hd)
  | deliver sig =>
    obtain ⟨hd, he⟩ := Option.ite_none_right_eq_some.mp he
    exact Option.some.inj he ▸ h.deliver hd
  | send sig    => exact Option.some.inj he ▸ h.send

end Inv
end WorkloadKit.Signest
