import WorkloadKit.LttngSimple.Theorems.Cleanup
import WorkloadKit.LttngSimple.Theorems.Issued

namespace WorkloadKit.LttngSimple

open Script

variable {ω : Type} {sys : Sys ω} {opts : Options} {as bs : List Action} {cs pre mid post : List Call}
  {current out : String}

def Cmd.isTraced : Cmd → Bool
  | traced _ => true
  | _        => false

-- The commands whose codes are checked.
def checkedCmds (as : List Action) : List Cmd :=
  as.filterMap fun
    | .stub cmd true _ => some cmd
    | _                => none

-- The traced command is executed at most once, after the session has been created and all the commands that
-- are required have returned 0.
structure Ordered (current out : String) (required : List Cmd) (cs : List Call) : Prop where
  once  : cs.countP (·.cmd.isTraced) ≤ 1
  after : ∀ pre c post, cs = pre ++ c :: post → c.cmd.isTraced = true →
    (⟨.create current out, some 0⟩ :: required.map (⟨·, some 0⟩)).Sublist pre

-- The traced command, with the code that it has returned.
inductive Program : Option (List String) → List Call → Prop
  | none : Program none []
  | some {cmd : List String} {code : Option ℤ} : Program (some cmd) [⟨.traced cmd, code⟩]

-- What a call of `do_trace` that does not raise has issued.
inductive Finished (opts : Options) (cmd : Option (List String)) (current out : String) : List Call → Prop
  | daemon {pre mid : List Call} : opts.daemon = true → Retried current out pre → (∀ c ∈ mid, c.cmd.Enables) →
    Finished opts cmd current out (pre ++ ⟨.create current out, some 0⟩ :: mid)
  | tornDown {pre mid program : List Call} {code₁ code₂ : Option ℤ} :
    opts.daemon = false → Retried current out pre → (∀ c ∈ mid, c.cmd.Enables) → Program cmd program →
    Finished opts cmd current out (pre ++ ⟨.create current out, some 0⟩ :: mid ++ program ++
      [⟨.stop, code₁⟩, ⟨.destroy current, code₂⟩])

namespace Matches

theorem append (h : Matches (as ++ bs) cs) :
    ∃ cs₁ cs₂, cs = cs₁ ++ cs₂ ∧ Matches as cs₁ ∧ Matches bs cs₂ := by
  induction as generalizing cs
  case nil => exact ⟨[], cs, rfl, .nil, h⟩
  case cons a as hi =>
    cases h
    case cons ds es ha h =>
      have ⟨cs₁, cs₂, he, h₁, h₂⟩ := hi h
      exact ⟨ds ++ cs₁, cs₂, by rw [he, List.append_assoc], .cons ha h₁, h₂⟩

theorem checked (h : Matches as cs) : ((checkedCmds as).map (⟨·, some 0⟩)).Sublist cs := by
  induction h
  case nil => exact List.Sublist.refl _
  case cons a as cs ds ha _ hi =>
    cases a
    case info | clear =>
      obtain rfl : cs = [] := ha
      exact hi
    case stub cmd check env =>
      obtain ⟨code, rfl, hc⟩ := ha
      cases check
      case false => exact hi.cons _
      case true =>
        obtain rfl := hc rfl
        exact hi.cons_cons _

end Matches

namespace Aborts

theorem append (h : Aborts (as ++ bs) cs) :
    Aborts as cs ∨ ∃ cs₁ cs₂, cs = cs₁ ++ cs₂ ∧ Matches as cs₁ ∧ Aborts bs cs₂ := by
  induction as generalizing cs
  case nil => exact .inr ⟨[], cs, rfl, .nil, h⟩
  case cons a as hi =>
    cases h
    case here ha => exact .inl <| .here ha
    case later ds es ha h =>
      rcases hi h with h | ⟨cs₁, cs₂, he, h₁, h₂⟩
      · exact .inl <| .later ha h
      · exact .inr ⟨ds ++ cs₁, cs₂, by rw [he, List.append_assoc], .cons ha h₁, h₂⟩

-- After the commands up to the one that fails, there is at most the one of the nested call of `cmd_stub`.
theorem cmds (h : Aborts as cs) : ∃ cmds ds, cs.map Call.cmd = cmds ++ ds ∧
    cmds <+: as.filterMap Action.cmd ∧ ∀ d ∈ ds, d.Destroys := by
  induction h
  case here a as cs ha =>
    cases a
    case info => contradiction
    case clear =>
      obtain rfl : cs = [] := ha
      exact ⟨[], [], rfl, List.nil_prefix, nofun⟩
    case stub cmd check env =>
      obtain ⟨code, ds, rfl, _, _, hd⟩ := ha
      refine ⟨[cmd], ds.map Call.cmd, rfl, ?_, by simpa using hd⟩
      exact (List.prefix_cons_inj cmd).mpr List.nil_prefix
  case later a as cs ds ha _ hi =>
    obtain ⟨cmds, es, he, hp, hd⟩ := hi
    have hc := (Matches.cons ha .nil).cmds
    rw [List.append_nil] at hc
    refine ⟨[a].filterMap Action.cmd ++ cmds, es, ?_, ?_, hd⟩
    · rw [List.map_append, hc, he, List.append_assoc]
    · rw [show a :: as = [a] ++ as from rfl, List.filterMap_append]
      exact (List.prefix_append_right_inj _).mpr hp

end Aborts

theorem Cmd.Enables.not_isTraced (h : Cmd.Enables c) : c.isTraced = false := by
  cases c <;> first | rfl | contradiction

theorem Cmd.Destroys.not_isTraced (h : Cmd.Destroys c) : c.isTraced = false := by
  cases c <;> first | rfl | contradiction

theorem enablePlan_cmds (opts : Options) (evlist : List String) (kernel ust : Bool) :
    ∀ c ∈ (enablePlan opts evlist kernel ust).filterMap Action.cmd, c.Enables := by
  intro c hc
  have ⟨a, ha, hc⟩ := List.mem_filterMap.mp hc
  have he := enablePlan_enables opts evlist kernel ust a ha
  cases a
  case info | clear => contradiction
  case stub         => exact Option.some.inj hc ▸ he

theorem finishPlan_traced (sys : Sys ω) (opts : Options) (cmd : Option (List String)) (current : String) :
    ((finishPlan sys opts cmd current).filterMap Action.cmd).countP Cmd.isTraced ≤ 1 := by
  unfold finishPlan
  split
  · exact Nat.zero_le 1
  · cases cmd
    case none => exact Nat.zero_le 1
    case some => exact Nat.le_refl 1

theorem countP_isTraced (cs : List Call) :
    cs.countP (·.cmd.isTraced) = (cs.map Call.cmd).countP Cmd.isTraced := by
  rw [List.countP_map]
  rfl

namespace Ordered

theorem of_not_traced (h : ∀ c ∈ cs, c.cmd.isTraced = false) : Ordered current out required cs where
  once  := by
    have hz : cs.countP (·.cmd.isTraced) = 0 := by simpa [List.countP_eq_zero] using h
    simp [hz]
  after := by
    rintro pre c post rfl hc
    simp [h c <| List.mem_append_right _ List.mem_cons_self] at hc

-- The traced command can only be in the second part.
theorem append (hn : ∀ c ∈ cs₁, c.cmd.isTraced = false) (hc : cs₂.countP (·.cmd.isTraced) ≤ 1)
    (hs : (⟨.create current out, some 0⟩ :: required.map (⟨·, some 0⟩)).Sublist cs₁) :
    Ordered current out required (cs₁ ++ cs₂) where
  once  := by
    have hz : cs₁.countP (·.cmd.isTraced) = 0 := by simpa [List.countP_eq_zero] using hn
    rwa [List.countP_append, hz, Nat.zero_add]
  after := by
    intro pre c post he ht
    rcases List.append_eq_append_iff.mp he with ⟨l, hp, _⟩ | ⟨l, hp, hl⟩
    · exact hs.trans <| hp ▸ List.sublist_append_left cs₁ l
    · cases l
      case nil => rwa [hp, List.append_nil] at hs
      case cons d l =>
        obtain ⟨rfl, _⟩ := List.cons.inj hl
        simp [hn c <| hp ▸ List.mem_append_right _ List.mem_cons_self] at ht

end Ordered

theorem Abandoned.not_traced (h : Abandoned session out cs) : ∀ c ∈ cs, c.cmd.isTraced = false := by
  intro c hc
  rcases h.cmd c hc with he | hd
  · rw [he]
    rfl
  · exact hd.not_isTraced

theorem Retried.not_traced (h : Retried session out cs) : ∀ c ∈ cs, c.cmd.isTraced = false := by
  cases h
  case nil => simp
  case cons hd => exact List.forall_mem_cons.mpr ⟨rfl, fun c hc => (hd c hc).not_isTraced⟩

theorem Matches.enables (h : Matches as cs) (he : ∀ c ∈ as.filterMap Action.cmd, c.Enables) :
    ∀ c ∈ cs, c.cmd.Enables :=
  fun _ hc => he _ <| h.cmds ▸ List.mem_map_of_mem hc

theorem Aborts.not_traced (h : Aborts as cs) (he : ∀ c ∈ as.filterMap Action.cmd, c.Enables) :
    ∀ c ∈ cs, c.cmd.isTraced = false := by
  have ⟨cmds, ds, hm, hp, hd⟩ := h.cmds
  intro c hc
  rcases List.mem_append.mp <| hm ▸ List.mem_map_of_mem hc with h | h
  · exact (he _ <| hp.mem h).not_isTraced
  · exact (hd _ h).not_isTraced

theorem Aborts.traced (h : Aborts as cs) (hc : (as.filterMap Action.cmd).countP Cmd.isTraced ≤ 1) :
    cs.countP (·.cmd.isTraced) ≤ 1 := by
  have ⟨cmds, ds, hm, hp, hd⟩ := h.cmds
  have hz : ds.countP Cmd.isTraced = 0 :=
    List.countP_eq_zero.mpr fun d h => by simp [(hd d h).not_isTraced]
  rw [countP_isTraced, hm, List.countP_append, hz, Nat.add_zero]
  exact Nat.le_trans hp.sublist.countP_le hc

-- What follows the creation of the session: the traced command comes after the part that enables the events.
theorem Ordered.of_created (hr : Retried current out pre) (hm : Matches as mid)
    (he : ∀ c ∈ as.filterMap Action.cmd, c.Enables) (hc : post.countP (·.cmd.isTraced) ≤ 1) :
    Ordered current out (checkedCmds as) ((pre ++ ⟨.create current out, some 0⟩ :: mid) ++ post) := by
  refine .append ?_ hc ?_
  · have hn (c : Call) (hm' : c ∈ mid) := (hm.enables he c hm').not_isTraced
    exact List.forall_mem_append.mpr ⟨hr.not_traced, List.forall_mem_cons.mpr ⟨rfl, hn⟩⟩
  · exact (hm.checked.cons_cons _).trans <| List.sublist_append_right _ _

theorem Matches.program (h : Matches (programPlan sys opts cmd) cs) : Program cmd cs := by
  cases cmd
  case none =>
    obtain rfl := List.map_eq_nil_iff.mp h.cmds
    exact .none
  case some =>
    obtain ⟨⟨_, code⟩, _, rfl, rfl, he⟩ := List.map_eq_cons_iff.mp h.cmds
    obtain rfl := List.map_eq_nil_iff.mp he
    exact .some

theorem Matches.tearDown (h : Matches (tearDownPlan current) cs) :
    ∃ code₁ code₂, cs = [⟨.stop, code₁⟩, ⟨.destroy current, code₂⟩] := by
  obtain ⟨⟨_, code₁⟩, _, rfl, rfl, h₁⟩ := List.map_eq_cons_iff.mp h.cmds
  obtain ⟨⟨_, code₂⟩, _, rfl, rfl, h₂⟩ := List.map_eq_cons_iff.mp h₁
  obtain rfl := List.map_eq_nil_iff.mp h₂
  exact ⟨code₁, code₂, rfl⟩

theorem Finished.of_matches (hr : Retried current out pre) (he : ∀ c ∈ mid, c.cmd.Enables)
    (h : Matches (finishPlan sys opts cmd current) post) :
    Finished opts cmd current out ((pre ++ ⟨.create current out, some 0⟩ :: mid) ++ post) := by
  unfold finishPlan at h
  split at h
  case isTrue hd =>
    rw [h.eq_nil rfl, List.append_nil]
    exact .daemon hd hr he
  case isFalse hd =>
    have ⟨program, down, hp, hm, ht⟩ := h.append
    have ⟨code₁, code₂, hs⟩ := ht.tearDown
    rw [hp, hs, ← List.append_assoc]
    exact .tornDown (by simpa using hd) hr he hm.program

section

variable (sys opts)

-- What is issued for a target after the creation of its session, if nothing fails, and if something fails.
theorem Matches.ordered (hr : Retried current out pre)
    (h : Matches (enablePlan opts evlist kernel ust ++ finishPlan sys opts cmd current) cs) :
    Ordered current out (checkedCmds <| enablePlan opts evlist kernel ust)
      (pre ++ ⟨.create current out, some 0⟩ :: cs) := by
  obtain ⟨mid, post, rfl, hm, hs⟩ := h.append
  have hc : post.countP (·.cmd.isTraced) ≤ 1 := by
    rw [countP_isTraced, hs.cmds]
    exact finishPlan_traced sys opts cmd current
  rw [← List.cons_append, ← List.append_assoc]
  exact .of_created hr hm (enablePlan_cmds opts evlist kernel ust) hc

theorem Matches.finished (hr : Retried current out pre)
    (h : Matches (enablePlan opts evlist kernel ust ++ finishPlan sys opts cmd current) cs) :
    Finished opts cmd current out (pre ++ ⟨.create current out, some 0⟩ :: cs) := by
  obtain ⟨mid, post, rfl, hm, hs⟩ := h.append
  rw [← List.cons_append, ← List.append_assoc]
  exact .of_matches hr (hm.enables <| enablePlan_cmds opts evlist kernel ust) hs

theorem Stopped.ordered
    (h : Stopped current out (enablePlan opts evlist kernel ust ++ finishPlan sys opts cmd current) cs) :
    Ordered current out (checkedCmds <| enablePlan opts evlist kernel ust) cs := by
  have he := enablePlan_cmds opts evlist kernel ust
  cases h
  case clear => exact .of_not_traced nofun
  case create ha => exact .of_not_traced ha.not_traced
  case later pre cs hr ha =>
    rcases ha.append with ha | ⟨mid, post, rfl, hm, hs⟩
    · refine .of_not_traced <| List.forall_mem_append.mpr ⟨hr.not_traced, ?_⟩
      exact List.forall_mem_cons.mpr ⟨rfl, ha.not_traced he⟩
    · rw [← List.cons_append, ← List.append_assoc]
      exact .of_created hr hm he <| hs.traced <| finishPlan_traced sys opts cmd current

end

-- The traced command is executed at most once, and only after everything that precedes it has succeeded. A
-- call that does not raise tears its session down, unless it is in daemon mode.
theorem do_trace_order (sys : Sys ω) (opts : Options) (cmd : Option (List String)) (session : String)
    (evlist : List String) (kernel ust : Bool) (w : World ω) :
    let r := doTrace sys opts cmd session evlist kernel ust w
    let current := withSuffix session kernel ust ++ "-" ++ sys.uuid4 w.uuids
    let out := join opts.output (withSuffix session kernel ust)
    ∃ cs, Issued opts { w with uuids := (final r).uuids } (final r) cs ∧
      Ordered current out (checkedCmds <| enablePlan opts evlist kernel ust) cs ∧
      (kernel || ust → ∀ w', r = .ok () w' → Finished opts cmd current out cs) := by
  intro r current out
  cases hk : kernel || ust
  case false =>
    have hr : r = .ok () w := by simp [r, doTrace, hk]
    exact ⟨[], hr ▸ .refl w, .of_not_traced <| List.forall_mem_nil _, by rintro ⟨⟩⟩
  case true =>
    have h := doTrace_ends sys opts hk cmd session evlist w
    cases hr : r
    case ok w' =>
      obtain ⟨pre, cs, hi, hp, hm⟩ := h.of_ok hr
      exact ⟨_, hi.reindex w'.uuids, hm.ordered sys opts hp, fun _ _ _ => hm.finished sys opts hp⟩
    case error w' =>
      obtain ⟨cs, hi, hs⟩ := h.of_error hr
      exact ⟨cs, hi.reindex w'.uuids, hs.ordered sys opts, fun _ _ h => by cases h⟩

-- No session can be created as long as there is one that is stalled.
def stalled : Sys Bool where
  environ    := fun _ => none
  uuid4      := fun _ => "0"
  call       := fun argv _ x =>
    if argv.take 2 = [LTTNG, "create"] then
      (.ok <| if x then 1 else 0, x)
    else
      (.ok 0, x && argv.take 2 ≠ [LTTNG, "destroy"])
  pathExists := fun _ _ => true
  isdir      := fun _ _ => false
  isfile     := fun _ _ => false
  listdir    := fun _ _ => .ok []
  makedirs   := fun _ x => (.ok (), x)
  rmtree     := fun _ x => (.ok (), x)

theorem not_do_trace_daemon : ¬∀ (opts : Options) (x : Bool) (w : World Bool), opts.daemon →
    doTrace stalled opts none "default" [] opts.kernel opts.ust (.init x) = .ok () w →
    ∀ c ∈ w.calls, c.cmd ≠ .stop ∧ ¬c.cmd.Destroys ∧ c.cmd.isTraced = false := by
  intro h
  let r := doTrace stalled { ustOnly with daemon := true } none "default" [] false true (.init true)
  have hr : r matches .ok () _ := by decide +kernel
  have hc : (final r).calls =
      [⟨.create "default-u-0" "/tmp/default-u", some 1⟩, ⟨.destroy "", some 0⟩,
       ⟨.destroy "default-u-0", some 0⟩, ⟨.create "default-u-0" "/tmp/default-u", some 0⟩,
       ⟨.enableUstChannel, some 0⟩, ⟨.enableUstEvents, some 0⟩, ⟨.addUstContext, some 0⟩,
       ⟨.start, some 0⟩] := by
    decide +kernel
  have hd := h { ustOnly with daemon := true } true
  cases he : r
  case ok w =>
    rw [he] at hc
    exact (hd w rfl he ⟨.destroy "", some 0⟩ <| hc ▸ by simp).right.left trivial
  case error =>
    rw [he] at hr
    contradiction

end WorkloadKit.LttngSimple
