import WorkloadKit.LttngSimple.Theorems.Sessions

namespace WorkloadKit.LttngSimple

open Script

variable {ω : Type} {sys : Sys ω} {opts : Options} {w w' w₁ w₂ w₃ : World ω} {cs cs₁ cs₂ : List Call}

-- The line that `cmd_stub` writes to the log before it executes a command.
def Cmd.line (cmd : Cmd) : String :=
  "exec: " ++ " ".intercalate cmd.argv

def isExec (entry : Level × String) : Bool :=
  entry.fst = .debug && "exec: ".toList.isPrefixOf entry.snd.toList

def execLines (log : List (Level × String)) : List String :=
  (log.filter isExec).map Prod.snd

-- The commands that `cmd_stub` has been called with on the way from one state to another, with their codes.
-- In a dry run they are only written to the log, and each of them counts as a success.
structure Issued (opts : Options) (w w' : World ω) (cs : List Call) : Prop where
  lines  : execLines w'.log = execLines w.log ++ cs.map (·.cmd.line)
  calls  : w'.calls = w.calls ++ if opts.dryRun then [] else cs
  uuids  : w'.uuids = w.uuids
  codes  : opts.dryRun = true → ∀ c ∈ cs, c.retcode = some 0
  frozen : opts.dryRun = true → w'.external = w.external

theorem isExec_line (cmd : Cmd) : isExec (.debug, cmd.line) = true := by
  simp only [isExec, Cmd.line, String.toList_append]
  rfl

-- The other texts of the script begin in another way.
theorem not_isExec_append (text rest : String) (hl : 6 ≤ text.toList.length)
    (h : "exec: ".toList.isPrefixOf text.toList = false) : isExec (.debug, text ++ rest) = false := by
  rw [isExec, String.toList_append, Bool.and_eq_false_iff]
  refine .inr <| Bool.eq_false_iff.mpr fun hp => ?_
  have hp := List.isPrefixOf_iff_prefix.mp hp
  have := List.prefix_of_prefix_length_le hp (List.prefix_append _ rest.toList) hl
  rw [List.isPrefixOf_iff_prefix.mpr this] at h
  contradiction

theorem not_isExec_of_level {level : Level} (h : level ≠ .debug) (text : String) :
    isExec (level, text) = false := by
  simp [isExec, h]

namespace Issued

theorem refl (w : World ω) : Issued opts w w [] where
  lines  := by simp
  calls  := by simp
  uuids  := rfl
  codes  := by simp
  frozen := fun _ => rfl

theorem trans (h₁ : Issued opts w₁ w₂ cs₁) (h₂ : Issued opts w₂ w₃ cs₂) :
    Issued opts w₁ w₃ (cs₁ ++ cs₂) where
  lines  := by rw [h₂.lines, h₁.lines, List.map_append, List.append_assoc]
  calls  := by
    rw [h₂.calls, h₁.calls]
    split <;> simp
  uuids  := h₂.uuids.trans h₁.uuids
  codes  := fun hd => List.forall_mem_append.mpr ⟨h₁.codes hd, h₂.codes hd⟩
  frozen := fun hd => (h₂.frozen hd).trans <| h₁.frozen hd

-- The identifiers of the sessions play no role for what is issued.
theorem reindex (h : Issued opts w w' cs) (k : ℕ) :
    Issued opts { w with uuids := k } { w' with uuids := k } cs where
  lines  := h.lines
  calls  := h.calls
  uuids  := rfl
  codes  := h.codes
  frozen := h.frozen

theorem log {level : Level} {text : String} (h : isExec (level, text) = false) (w : World ω) :
    Issued opts w { w with log := w.log ++ [(level, text)] } [] where
  lines  := by simp [execLines, h]
  calls  := by simp
  uuids  := rfl
  codes  := by simp
  frozen := fun _ => rfl

theorem debug (text rest : String) (hl : 6 ≤ text.toList.length)
    (h : "exec: ".toList.isPrefixOf text.toList = false) (w : World ω) :
    Issued opts w { w with log := w.log ++ [(.debug, text ++ rest)] } [] :=
  .log (not_isExec_append text rest hl h) w

end Issued

section

variable (opts) in
theorem log_ends {level : Level} (h : level ≠ .debug) (text : String) (w : World ω) :
    Ends (log level text) w (fun _ w' => Issued opts w w' []) fun _ => False :=
  .modify <| .log (not_isExec_of_level h text) w

variable (sys opts)

theorem exec_ends (cmd : Cmd) (env : Environ) (w : World ω) :
    Ends (exec sys opts cmd env) w (fun code w' => Issued opts w w' [⟨cmd, some code⟩])
      fun w' => Issued opts w w' [⟨cmd, none⟩] := by
  have hp := not_isExec_append "LD_PRELOAD=" ((env "LD_PRELOAD").getD "") (by decide) (by decide)
  have hx (text : String) := not_isExec_append "exit: " text (by decide) (by decide)
  have hl := isExec_line cmd
  simp only [Cmd.line] at hl
  cases hd : opts.dryRun
  case true =>
    simp only [Ends, exec, debug, log, hd, bind_apply, modify_apply, pure_apply, if_true]
    exact ⟨by simp [execLines, hp, hl, Cmd.line], by simp [hd], rfl, by simp, fun _ => rfl⟩
  case false =>
    simp only [Ends, exec, debug, log, hd, bind_apply, modify_apply, call, Bool.false_eq_true, if_false]
    rcases hc : sys.call cmd.argv env w.external with ⟨_ | code, x⟩
    case error => exact ⟨by simp [execLines, hp, hl, Cmd.line], by simp [hd], rfl, by simp [hd], by simp [hd]⟩
    case ok =>
      refine ⟨?_, by simp [hd], rfl, by simp [hd], by simp [hd]⟩
      simp [execLines, hp, hx, hl, Cmd.line]

-- The nested command is only issued after one whose code is checked.
theorem cmdStub_ends (cmd : Cmd) (check : Bool) (cmdEnv : Option Environ) (w : World ω) :
    Ends (cmdStub sys opts cmd check cmdEnv) w
      (fun _ w' => ∃ code, Issued opts w w' [⟨cmd, some code⟩] ∧ (check = true → code = 0))
      fun w' => ∃ code ds, Issued opts w w' (⟨cmd, code⟩ :: ds) ∧ code ≠ some 0 ∧
        (check = false → ds = []) ∧ ∀ d ∈ ds, d.cmd.Destroys := by
  refine (exec_ends sys opts cmd _ w).bind (fun code w₁ h₁ => ?_) fun w₁ h₁ => ?_
  · split
    case isFalse hn => exact .pure ⟨code, h₁, by tauto⟩
    case isTrue hc =>
      have hz : some code ≠ some 0 := by simpa using hc.right
      refine (exec_ends sys opts (.destroy current) _ w₁).bind (fun code₂ w₂ h₂ => ?_) fun w₂ h₂ => ?_
      · exact ⟨some code, _, h₁.trans h₂, hz, by simp [hc.left], by simp [Cmd.Destroys]⟩
      · exact ⟨some code, _, h₁.trans h₂, hz, by simp [hc.left], by simp [Cmd.Destroys]⟩
  · exact ⟨none, [], h₁, by simp, by simp, by simp⟩

-- The removal of a trace may raise.
theorem clearOutput_ends (out : String) (w : World ω) :
    Ends (clearOutput sys opts out) w (fun _ w' => Issued opts w w' []) fun w' => Issued opts w w' [] := by
  have hw : Issued opts w { w with log := w.log ++ [(.debug, "Would remove trace: " ++ out)] } [] :=
    .debug _ out (by decide) (by decide) w
  have hr : Issued opts w { w with log := w.log ++ [(.debug, "Removing trace: " ++ out)] } [] :=
    .debug _ out (by decide) (by decide) w
  have ha : Issued opts w { w with log := w.log ++ [(.warning, "Append to existing trace: " ++ out)] } [] :=
    .log (not_isExec_of_level (by decide) _) w
  cases hi : sys.isdir out w.external <;> cases hc : opts.clearTrace <;> cases hd : opts.dryRun <;>
    simp only [Ends, clearOutput, log, debug, act, hi, hc, hd, bind_apply, get_apply, modify_apply,
      Bool.false_eq_true, if_true, if_false]
  case false.false.false | false.false.true | false.true.false | false.true.true => exact .refl w
  case true.false.false | true.false.true => exact ha
  case true.true.true => exact hw
  case true.true.false =>
    rcases sys.rmtree out w.external with ⟨_ | _, x⟩ <;>
      exact ⟨hr.lines, hr.calls, rfl, hr.codes, by simp [hd]⟩

end

-- What an action issues if it succeeds, and if it fails.
def Action.Issues : Action → List Call → Prop
  | info _, cs           => cs = []
  | clear _, cs          => cs = []
  | stub cmd check _, cs => ∃ code, cs = [⟨cmd, some code⟩] ∧ (check = true → code = 0)

def Action.Fails : Action → List Call → Prop
  | info _, _            => False
  | clear _, cs          => cs = []
  | stub cmd check _, cs => ∃ code ds, cs = ⟨cmd, code⟩ :: ds ∧ code ≠ some 0 ∧
    (check = false → ds = []) ∧ ∀ d ∈ ds, d.cmd.Destroys

-- What a list of actions issues if all of them succeed, and if one of them fails.
inductive Matches : List Action → List Call → Prop
  | nil : Matches [] []
  | cons {a : Action} {as : List Action} {cs ds : List Call} :
    a.Issues cs → Matches as ds → Matches (a :: as) (cs ++ ds)

inductive Aborts : List Action → List Call → Prop
  | here {a : Action} {as : List Action} {cs : List Call} : a.Fails cs → Aborts (a :: as) cs
  | later {a : Action} {as : List Action} {cs ds : List Call} :
    a.Issues cs → Aborts as ds → Aborts (a :: as) (cs ++ ds)

-- What is issued before a session is created: nothing, or the first attempt, which has failed.
inductive Retried (session out : String) : List Call → Prop
  | nil : Retried session out []
  | cons {code : Option ℤ} {ds : List Call} : code ≠ some 0 → (∀ d ∈ ds, d.cmd.Destroys) →
    Retried session out (⟨.create session out, code⟩ :: ds)

-- What is issued if a session can not be created.
structure Abandoned (session out : String) (cs : List Call) : Prop where
  cmd    : ∀ c ∈ cs, c.cmd = .create session out ∨ c.cmd.Destroys
  failed : ∃ c ∈ cs, c.retcode ≠ some 0

-- What is issued for a target for which something fails. The actions are those that follow the creation of
-- the session.
inductive Stopped (session out : String) (as : List Action) : List Call → Prop
  | clear : Stopped session out as []
  | create {cs : List Call} : Abandoned session out cs → Stopped session out as cs
  | later {pre cs : List Call} : Retried session out pre → Aborts as cs →
    Stopped session out as (pre ++ ⟨.create session out, some 0⟩ :: cs)

def Action.cmd : Action → Option Cmd
  | stub cmd _ _     => some cmd
  | info _ | clear _ => none

theorem Matches.cmds (h : Matches as cs) : cs.map Call.cmd = as.filterMap Action.cmd := by
  induction h
  case nil => rfl
  case cons a _ _ _ ha _ hi =>
    rw [List.map_append, hi]
    cases a
    case info | clear => rw [show _ = [] from ha]; rfl
    case stub =>
      obtain ⟨_, rfl, _⟩ := ha
      rfl

theorem Matches.eq_nil (h : Matches as cs) (hn : as.filterMap Action.cmd = []) : cs = [] :=
  List.map_eq_nil_iff.mp <| h.cmds.trans hn

theorem Aborts.eq_nil {text out : String} (h : Aborts [.info text, .clear out] cs) : cs = [] := by
  rcases h with ha | ⟨ha, h⟩
  · contradiction
  · rcases h with hb | ⟨_, h⟩
    · rw [show _ = [] from ha, show _ = [] from hb, List.append_nil]
    · cases h

section

variable (sys opts)

theorem Action.run_ends (a : Action) (w : World ω) :
    Ends (a.run sys opts) w (fun _ w' => ∃ cs, Issued opts w w' cs ∧ a.Issues cs)
      fun w' => ∃ cs, Issued opts w w' cs ∧ a.Fails cs := by
  cases a
  case info text =>
    exact (log_ends opts (by decide) text w).mono (fun _ _ h => ⟨_, h, rfl⟩) fun _ => False.elim
  case clear out =>
    exact (clearOutput_ends sys opts out w).mono (fun _ _ h => ⟨_, h, rfl⟩) fun _ h => ⟨_, h, rfl⟩
  case stub cmd check env =>
    refine (cmdStub_ends sys opts cmd check env w).mono (fun _ _ ⟨code, h, hc⟩ => ⟨_, h, code, rfl, hc⟩) ?_
    exact fun _ ⟨code, ds, h, hc⟩ => ⟨_, h, code, ds, rfl, hc⟩

theorem perform_ends (as : List Action) (w : World ω) :
    Ends (perform sys opts as) w (fun _ w' => ∃ cs, Issued opts w w' cs ∧ Matches as cs)
      fun w' => ∃ cs, Issued opts w w' cs ∧ Aborts as cs := by
  induction as generalizing w
  case nil => exact ⟨[], .refl w, .nil⟩
  case cons a as hi =>
    rw [perform_cons]
    refine (a.run_ends sys opts w).bind (fun _ w₁ ⟨cs₁, h₁, ha⟩ => ?_) fun w₁ ⟨cs₁, h₁, ha⟩ => ?_
    · refine (hi w₁).mono (fun _ _ ⟨cs₂, h₂, hs⟩ => ?_) fun _ ⟨cs₂, h₂, hs⟩ => ?_
      · exact ⟨_, h₁.trans h₂, .cons ha hs⟩
      · exact ⟨_, h₁.trans h₂, .later ha hs⟩
    · exact ⟨_, h₁, .here ha⟩

theorem createSession_ends (session out : String) (w : World ω) :
    Ends (createSession sys opts session out) w
      (fun _ w' => ∃ cs, Issued opts w w' (cs ++ [⟨.create session out, some 0⟩]) ∧ Retried session out cs)
      fun w' => ∃ cs, Issued opts w w' cs ∧ Abandoned session out cs := by
  refine (cmdStub_ends sys opts (.create session out) true none w).tryCatch
    (fun _ w₁ ⟨code, h₁, hc⟩ => ?_) fun _ w₁ ⟨code, ds, h₁, hc, _, hds⟩ => ?_
  · obtain rfl := hc rfl
    exact ⟨[], h₁, .nil⟩
  refine (cmdStub_ends sys opts (.destroy session) false none w₁).bind
    (fun _ w₂ ⟨code₂, h₂, _⟩ => ?_) fun w₂ ⟨code₂, ds₂, h₂, _, _, hds₂⟩ => ?_
  · refine (cmdStub_ends sys opts (.create session out) true none w₂).mono
      (fun _ w₃ ⟨code₃, h₃, hc₃⟩ => ?_) fun w₃ ⟨code₃, ds₃, h₃, hc₃, _, hds₃⟩ => ?_
    · obtain rfl := hc₃ rfl
      refine ⟨_, (h₁.trans h₂).trans h₃, .cons hc ?_⟩
      exact List.forall_mem_append.mpr ⟨hds, by simp [Cmd.Destroys]⟩
    · refine ⟨_, (h₁.trans h₂).trans h₃, ?_, ⟨.create session out, code⟩, by simp, hc⟩
      simp only [List.forall_mem_append, List.forall_mem_cons, List.not_mem_nil, IsEmpty.forall_iff,
        implies_true, and_true]
      refine ⟨⟨⟨.inl trivial, fun d hd => .inr <| hds d hd⟩, .inr trivial⟩, .inl trivial, ?_⟩
      exact fun d hd => .inr <| hds₃ d hd
  · refine ⟨_, h₁.trans h₂, ?_, ⟨.create session out, code⟩, by simp, hc⟩
    simp only [List.forall_mem_append, List.forall_mem_cons]
    exact ⟨⟨.inl trivial, fun d hd => .inr <| hds d hd⟩, .inr trivial, fun d hd => .inr <| hds₂ d hd⟩

theorem doTrace_ends (hk : kernel || ust) (cmd : Option (List String)) (session : String)
    (evlist : List String) (w : World ω) :
    let current := withSuffix session kernel ust ++ "-" ++ sys.uuid4 w.uuids
    let out := join opts.output (withSuffix session kernel ust)
    let as := enablePlan opts evlist kernel ust ++ finishPlan sys opts cmd current
    let w₀ := { w with uuids := w.uuids + 1 }
    Ends (doTrace sys opts cmd session evlist kernel ust) w
      (fun _ w' => ∃ pre cs, Issued opts w₀ w' (pre ++ ⟨.create current out, some 0⟩ :: cs) ∧
        Retried current out pre ∧ Matches as cs)
      fun w' => ∃ cs, Issued opts w₀ w' cs ∧ Stopped current out as cs := by
  intro current out as w₀
  have hu : Ends (uuid4 sys) w (fun uuid w' => uuid = sys.uuid4 w.uuids ∧ w' = w₀) fun _ => False :=
    ⟨rfl, rfl⟩
  rw [doTrace_eq hk]
  refine hu.bind (fun _ _ ⟨hu, hw⟩ => ?_) fun _ => False.elim
  subst hu hw
  refine (perform_ends sys opts _ w₀).bind (fun _ w₁ ⟨cs₁, h₁, hm⟩ => ?_) fun w₁ ⟨cs₁, h₁, ha⟩ => ?_
  · obtain rfl := hm.eq_nil rfl
    refine (createSession_ends sys opts current out w₁).bind
      (fun _ w₂ ⟨pre, h₂, hr⟩ => ?_) fun w₂ ⟨cs₂, h₂, ha⟩ => ?_
    · refine (perform_ends sys opts as w₂).mono
        (fun _ w₃ ⟨cs₃, h₃, hm⟩ => ?_) fun w₃ ⟨cs₃, h₃, ha⟩ => ?_
      · exact ⟨pre, cs₃, by simpa using (h₁.trans h₂).trans h₃, hr, hm⟩
      · exact ⟨_, by simpa using (h₁.trans h₂).trans h₃, .later hr ha⟩
    · exact ⟨cs₂, h₁.trans h₂, .create ha⟩
  · obtain rfl := ha.eq_nil
    exact ⟨[], h₁, .clear⟩

end

end WorkloadKit.LttngSimple
