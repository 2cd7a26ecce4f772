import WorkloadKit.LttngSimple.Theorems.Plan

namespace WorkloadKit.LttngSimple

open Script

variable {ω : Type} {sys : Sys ω} {opts : Options} {x : ω}

namespace Cmd

def Destroys : Cmd → Prop
  | destroy _ | destroyAll => True
  | _                      => False

-- The commands that neither create nor destroy sessions.
def Neutral : Cmd → Prop
  | create _ _ => False
  | cmd        => ¬cmd.Destroys

-- The commands that prepare a session.
def Enables : Cmd → Prop
  | enableKernelChannel | addKernelContext | enableSyscalls | enableKernelEvents => True
  | enableKernelEvent _ => True
  | enableUstChannel | enableUstEvents | addUstContext | start => True
  | _ => False

theorem Neutral.not_destroys (h : Neutral cmd) : ¬cmd.Destroys := by
  cases cmd
  case create => contradiction
  all_goals exact h

theorem Enables.neutral (h : Enables cmd) : cmd.Neutral := by
  cases cmd <;> first | contradiction | exact id

end Cmd

-- The sessions that the commands up to a given one have created, and that they have not destroyed.
def Call.track (live : List String) (c : Call) : List String :=
  match c.cmd with
  | .create session _ => if c.retcode = some 0 then session :: live else live
  | .destroy session  => live.filter (· ≠ session)
  | _                 => live

def live (cs : List Call) : List String :=
  cs.foldl Call.track []

-- No command destroys anything but a session that has been created before.
def Own (cs : List Call) : Prop :=
  ∀ pre c, pre ++ [c] <+: cs → c.cmd.Destroys → ∃ session ∈ live pre, c.cmd = .destroy session

theorem live_append_neutral (h : ∀ c ∈ cs₂, c.cmd.Neutral) : live (cs₁ ++ cs₂) = live cs₁ := by
  induction cs₂ generalizing cs₁
  case nil => simp
  case cons c cs₂ hi =>
    have ⟨hc, hs⟩ := List.forall_mem_cons.mp h
    rw [← List.singleton_append, ← List.append_assoc, hi hs, live, List.foldl_append]
    obtain ⟨cmd, _⟩ := c
    cases cmd <;> first | rfl | exact absurd trivial hc | contradiction

theorem live_created (cs : List Call) (session out : String) :
    live (cs ++ [⟨.create session out, some 0⟩]) = session :: live cs := by
  simp [live, Call.track]

theorem live_not_created (cs : List Call) (session out : String) (h : code ≠ some 0) :
    live (cs ++ [⟨.create session out, code⟩]) = live cs := by
  simp [live, Call.track, h]

theorem live_destroyed (cs : List Call) (session : String) (code : Option ℤ) :
    live (cs ++ [⟨.destroy session, code⟩]) = (live cs).filter (· ≠ session) := by
  simp [live, Call.track]

namespace Own

theorem nil : Own [] := by
  intro pre c h
  simp at h

theorem mono (h : Own cs₂) (hp : cs₁ <+: cs₂) : Own cs₁ :=
  fun pre c hc => h pre c <| hc.trans hp

theorem concat (h : Own cs) (hc : c.cmd.Destroys → ∃ session ∈ live cs, c.cmd = .destroy session) :
    Own (cs ++ [c]) := by
  intro pre d hp hd
  rcases List.prefix_concat_iff.mp hp with he | hp
  · have ⟨hp, he⟩ := List.append_inj' he rfl
    obtain ⟨rfl, rfl⟩ := And.intro hp <| List.singleton_inj.mp he
    exact hc hd
  · exact h pre d hp hd

theorem append_neutral (h : Own cs₁) (hn : ∀ c ∈ cs₂, c.cmd.Neutral) : Own (cs₁ ++ cs₂) := by
  induction cs₂ generalizing cs₁
  case nil => simpa
  case cons c cs₂ hi =>
    have ⟨hc, hs⟩ := List.forall_mem_cons.mp hn
    have h₁ : Own (cs₁ ++ [c]) := h.concat fun hd => absurd hd hc.not_destroys
    simpa using hi h₁ hs

end Own

theorem not_own_of_live (h : cs₁ ++ [c] <+: cs₂) (hd : c.cmd.Destroys) (hl : live cs₁ = []) : ¬Own cs₂ := by
  intro ho
  have ⟨session, hm, _⟩ := ho _ _ h hd
  simp [hl] at hm

theorem not_own_of_destroyAll (h : cs₁ ++ [⟨.destroyAll, code⟩] <+: cs₂) : ¬Own cs₂ := by
  intro ho
  have ⟨_, _, he⟩ := ho _ _ h trivial
  contradiction

def Action.Neutral : Action → Prop
  | stub cmd _ _     => cmd.Neutral
  | info _ | clear _ => True

def Action.Enables : Action → Prop
  | stub cmd _ _     => cmd.Enables
  | info _ | clear _ => False

theorem Action.Enables.neutral {a : Action} (h : a.Enables) : a.Neutral := by
  cases a
  case info | clear => trivial
  case stub         => exact Cmd.Enables.neutral h

theorem Action.calls_cmd (h : c ∈ Action.calls sys opts a x) : ∃ check env, a = .stub c.cmd check env := by
  cases a
  case info  => simp [calls] at h
  case clear => simp [calls] at h
  case stub cmd check env =>
    refine ⟨check, env, ?_⟩
    simp only [calls] at h
    split at h
    · simp at h
    · split at h <;> simp_all

theorem Action.calls_stub (sys : Sys ω) (hd : opts.dryRun = false) (cmd : Cmd) (check : Bool)
    (env : Option Environ) (x : ω) : ∃ code, calls sys opts (.stub cmd check env) x = [⟨cmd, code⟩] := by
  rcases hc : sys.call cmd.argv (env.getD sys.environ) x with ⟨_ | code, _⟩
  case error => exact ⟨none, by simp [calls, hd, hc]⟩
  case ok    => exact ⟨some code, by simp [calls, hd, hc]⟩

theorem Action.calls_checked (hd : opts.dryRun = false)
    (h : (attempt sys opts (.stub cmd true env) x).1) :
    calls sys opts (.stub cmd true env) x = [⟨cmd, some 0⟩] := by
  rcases hc : sys.call cmd.argv (env.getD sys.environ) x with ⟨_ | code, _⟩
  case error => simp [attempt_stub hd, hc] at h
  case ok =>
    have h : code = 0 := by simpa [attempt_stub hd, hc] using h
    simp [calls, hd, hc, h]

theorem calls_neutral (sys : Sys ω) (opts : Options) (x : ω) (h : ∀ a ∈ as, a.Neutral) :
    ∀ c ∈ calls sys opts as x, c.cmd.Neutral := by
  induction as generalizing x
  case nil => simp [calls]
  case cons a as hi =>
    obtain ⟨ha, hs⟩ := List.forall_mem_cons.mp h
    intro c hc
    rcases List.mem_append.mp hc with hc | hc
    · obtain ⟨_, _, rfl⟩ := Action.calls_cmd hc
      exact ha
    · exact hi _ hs c hc

theorem kernelPlan_enables (opts : Options) (evlist : List String) :
    ∀ a ∈ kernelPlan opts evlist, a.Enables := by
  simp only [kernelPlan, List.forall_mem_append]
  split_ifs <;> simp [Action.Enables, Cmd.Enables]

theorem ustPlan_enables (kernel addContext : Bool) : ∀ a ∈ ustPlan kernel addContext, a.Enables := by
  simp only [ustPlan, List.forall_mem_append]
  split_ifs <;> simp [Action.Enables, Cmd.Enables]

theorem enablePlan_enables (opts : Options) (evlist : List String) (kernel ust : Bool) :
    ∀ a ∈ enablePlan opts evlist kernel ust, a.Enables := by
  simp only [enablePlan, List.forall_mem_append]
  refine ⟨⟨?_, ?_⟩, by simp [Action.Enables, Cmd.Enables]⟩
  · split
    · exact kernelPlan_enables opts evlist
    · simp
  · split
    · exact ustPlan_enables kernel (kernel && addContext opts evlist)
    · simp

theorem enablePlan_neutral (opts : Options) (evlist : List String) (kernel ust : Bool) :
    ∀ a ∈ enablePlan opts evlist kernel ust, a.Neutral :=
  fun a ha => (enablePlan_enables opts evlist kernel ust a ha).neutral

theorem programPlan_neutral (sys : Sys ω) (opts : Options) (cmd : Option (List String)) :
    ∀ a ∈ programPlan sys opts cmd, a.Neutral := by
  cases cmd <;> simp [programPlan, Action.Neutral, Cmd.Neutral, Cmd.Destroys]

@[simp]
theorem Action.calls_info (text : String) (x : ω) : calls sys opts (.info text) x = [] :=
  rfl

@[simp]
theorem Action.calls_clear (out : String) (x : ω) : calls sys opts (.clear out) x = [] :=
  rfl

theorem calls_finishPlan (sys : Sys ω) (hd : opts.dryRun = false) (cmd : Option (List String))
    (current : String) (x : ω) :
    ∃ cs code, (∀ c ∈ cs, c.cmd.Neutral) ∧ calls sys opts (finishPlan sys opts cmd current) x =
      cs ++ if opts.daemon then [] else [⟨.destroy current, code⟩] := by
  cases hm : opts.daemon
  case true => exact ⟨[], none, by simp, by simp [finishPlan, hm, calls]⟩
  case false =>
    have hp := calls_neutral sys opts x (programPlan_neutral sys opts cmd)
    obtain ⟨code₁, hs⟩ :=
      Action.calls_stub sys hd .stop false none (after sys opts (programPlan sys opts cmd) x)
    obtain ⟨code₂, hr⟩ := Action.calls_stub sys hd (.destroy current) false none
      (Action.attempt sys opts (.stub .stop false none) (after sys opts (programPlan sys opts cmd) x)).2
    refine ⟨calls sys opts (programPlan sys opts cmd) x ++ [⟨.stop, code₁⟩], code₂, ?_, ?_⟩
    · simpa [or_imp, forall_and, Cmd.Neutral, Cmd.Destroys] using hp
    · simp [finishPlan, hm, calls_append, tearDownPlan, calls, hs, hr]

-- The commands of a target for which nothing fails: its session is the first thing that is created and
-- the last one that is destroyed, unless it is left running in daemon mode.
theorem calls_tracePlan (hd : opts.dryRun = false)
    (h : Runs sys opts (tracePlan sys opts cmd session evlist kernel ust uuid) x) :
    ∃ current out cs code, (∀ c ∈ cs, c.cmd.Neutral) ∧
      calls sys opts (tracePlan sys opts cmd session evlist kernel ust uuid) x =
        [⟨.create current out, some 0⟩] ++ cs ++ if opts.daemon then [] else [⟨.destroy current, code⟩] := by
  obtain ⟨h, _⟩ := runs_append.mp h
  obtain ⟨_, hc⟩ := runs_append.mp h
  have hc := Action.calls_checked hd (runs_cons.mp hc).1
  have he := enablePlan_neutral opts evlist kernel ust
  rw [tracePlan, calls_append, calls_append, calls_append]
  generalize withSuffix session kernel ust ++ "-" ++ uuid = current at *
  generalize join opts.output (withSuffix session kernel ust) = out at *
  generalize after sys opts (_ ++ _) x = y at *
  obtain ⟨cs, code, hn, hf⟩ :=
    calls_finishPlan sys hd cmd current (after sys opts (enablePlan opts evlist kernel ust) y)
  refine ⟨current, out, calls sys opts (enablePlan opts evlist kernel ust) y ++ cs, code, ?_, ?_⟩
  · exact List.forall_mem_append.mpr ⟨calls_neutral sys opts y he, hn⟩
  · simp [calls, hc, hf]

end WorkloadKit.LttngSimple
