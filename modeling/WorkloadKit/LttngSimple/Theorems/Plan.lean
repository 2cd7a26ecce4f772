import WorkloadKit.LttngSimple.State

namespace WorkloadKit.LttngSimple

open Script

-- What `do_trace` does as long as nothing fails is a list of such actions.
inductive Action
  | info (text : String)
  | clear (out : String)
  | stub (cmd : Cmd) (check : Bool) (cmdEnv : Option Environ)

variable {ω : Type} (sys : Sys ω) (opts : Options)

def Action.run : Action → Script (World ω) Unit
  | info text             => LttngSimple.info text
  | clear out             => clearOutput sys opts out
  | stub cmd check cmdEnv => cmdStub sys opts cmd check cmdEnv

def perform (as : List Action) : Script (World ω) Unit :=
  as.forM (Action.run sys opts)

-- Whether an action succeeds, and what it makes of the system. Nothing can fail in a dry run.
def Action.attempt : Action → ω → Bool × ω
  | info _, x                => (true, x)
  | clear out, x             =>
    if !opts.dryRun && sys.isdir out x && opts.clearTrace then
      match sys.rmtree out x with
      | (.ok _, x)    => (true, x)
      | (.error _, x) => (false, x)
    else
      (true, x)
  | stub cmd check cmdEnv, x =>
    if opts.dryRun then
      (true, x)
    else
      match sys.call cmd.argv (cmdEnv.getD sys.environ) x with
      | (.ok retcode, x) => (!check || retcode = 0, x)
      | (.error _, x)    => (false, x)

-- The command that an action issues.
def Action.calls : Action → ω → List Call
  | stub cmd _ cmdEnv, x =>
    if opts.dryRun then
      []
    else
      match sys.call cmd.argv (cmdEnv.getD sys.environ) x with
      | (.ok retcode, _) => [⟨cmd, some retcode⟩]
      | (.error _, _)    => [⟨cmd, none⟩]
  | _, _                 => []

-- None of the actions fails when they are done one after the other.
def Runs : List Action → ω → Prop
  | [], _      => True
  | a :: as, x => (a.attempt sys opts x).1 ∧ Runs as (a.attempt sys opts x).2

def after (as : List Action) (x : ω) : ω :=
  as.foldl (fun x a => (a.attempt sys opts x).2) x

def calls : List Action → ω → List Call
  | [], _      => []
  | a :: as, x => a.calls sys opts x ++ calls as (a.attempt sys opts x).2

def kernelPlan (evlist : List String) : List Action :=
  [.stub .enableKernelChannel true none] ++
  (if addContext opts evlist then [.stub .addKernelContext true none] else []) ++
  (if opts.syscall then [.stub .enableSyscalls false none] else []) ++
  if opts.enableAllEvents then
    [.stub .enableKernelEvents true none]
  else
    evlist.map fun ev => .stub (.enableKernelEvent ev) true none

def ustPlan (kernel addContext : Bool) : List Action :=
  [.stub .enableUstChannel true none, .stub .enableUstEvents true none] ++
  if !kernel || addContext then [.stub .addUstContext true none] else []

def programPlan : Option (List String) → List Action
  | none     => []
  | some cmd =>
    [.info <| "Executing command: " ++ " ".intercalate cmd,
     .stub (.traced cmd) false (programEnv sys opts)]

-- The actions between the creation of a session and its destruction.
def enablePlan (evlist : List String) (kernel ust : Bool) : List Action :=
  (if kernel then kernelPlan opts evlist else []) ++
  (if ust then ustPlan kernel (kernel && addContext opts evlist) else []) ++
  [.stub .start true none]

def tearDownPlan (current : String) : List Action :=
  [.stub .stop false none, .stub (.destroy current) false none, .info <| "done tracing: " ++ current]

def finishPlan (cmd : Option (List String)) (current : String) : List Action :=
  if opts.daemon then
    [.info "daemon mode"]
  else
    programPlan sys opts cmd ++ tearDownPlan current

-- A target whose session gets a given identifier.
def tracePlan (cmd : Option (List String)) (session : String) (evlist : List String)
    (kernel ust : Bool) (uuid : String) : List Action :=
  let session := withSuffix session kernel ust
  let current := session ++ "-" ++ uuid
  let out := join opts.output session
  [.info <| "start tracing: " ++ current, .clear out] ++
  [.stub (.create current out) true none] ++
  (enablePlan opts evlist kernel ust ++ finishPlan sys opts cmd current)

-- The targets of a run, the first of which gets the identifier with the index `k`.
def runPlan (evlist : List String) : List Target → ℕ → List Action
  | [], _      => []
  | t :: ts, k =>
    tracePlan sys opts t.cmd t.name evlist opts.kernel opts.ust (sys.uuid4 k) ++ runPlan evlist ts (k + 1)

variable {sys opts}

theorem perform_append (as bs : List Action) :
    perform sys opts (as ++ bs) = (perform sys opts as >>= fun _ => perform sys opts bs) := by
  simp [perform]

theorem perform_cons (a : Action) (as : List Action) :
    perform sys opts (a :: as) = (a.run sys opts >>= fun _ => perform sys opts as) := by
  simp [perform]

theorem perform_nil : perform sys opts [] = pure () :=
  rfl

theorem perform_singleton (a : Action) : perform sys opts [a] = a.run sys opts := by
  simp [perform]

theorem enableKernel_eq (evlist : List String) :
    enableKernel sys opts evlist = (do
      perform sys opts (kernelPlan opts evlist)
      return addContext opts evlist) := by
  have h : perform sys opts (evlist.map fun ev => .stub (.enableKernelEvent ev) true none) =
      evlist.forM fun ev => cmdStub sys opts (.enableKernelEvent ev) true none := by
    simp [perform, Action.run]
  cases ha : addContext opts evlist <;> cases hs : opts.syscall <;> cases he : opts.enableAllEvents <;>
    simp [enableKernel, kernelPlan, perform_cons, perform_nil, h, Action.run, ha, hs, he]

theorem enableUst_eq (kernel addContext : Bool) :
    enableUst sys opts kernel addContext = perform sys opts (ustPlan kernel addContext) := by
  cases kernel <;> cases addContext <;>
    simp [enableUst, ustPlan, perform_cons, perform_nil, Action.run]

theorem runProgram_eq (cmd : Option (List String)) :
    runProgram sys opts cmd = perform sys opts (programPlan sys opts cmd) := by
  cases cmd <;> simp [runProgram, programPlan, perform_cons, perform_nil, Action.run]

-- Only the creation of the session differs from what the plan of the target says.
theorem doTrace_eq (h : kernel || ust) :
    doTrace sys opts cmd session evlist kernel ust = (do
      let current := withSuffix session kernel ust ++ "-" ++ (← uuid4 sys)
      let out := join opts.output (withSuffix session kernel ust)
      perform sys opts [.info <| "start tracing: " ++ current, .clear out]
      createSession sys opts current out
      perform sys opts (enablePlan opts evlist kernel ust ++ finishPlan sys opts cmd current)) := by
  cases hd : opts.daemon <;> cases kernel <;> cases ust <;>
    simp_all [doTrace, enablePlan, finishPlan, tearDownPlan, enableKernel_eq, enableUst_eq, runProgram_eq,
      perform_append, perform_cons, perform_nil, Action.run]

-- What a list of actions leaves behind if none of them fails.
structure Performed (sys : Sys ω) (opts : Options) (as : List Action) (w w' : World ω) : Prop where
  external : w'.external = after sys opts as w.external
  uuids    : w'.uuids = w.uuids
  calls    : w'.calls = w.calls ++ calls sys opts as w.external

theorem runs_cons {a : Action} {as : List Action} : Runs sys opts (a :: as) x ↔
    (a.attempt sys opts x).1 ∧ Runs sys opts as (after sys opts [a] x) :=
  .rfl

theorem runs_append {as bs : List Action} :
    Runs sys opts (as ++ bs) x ↔ Runs sys opts as x ∧ Runs sys opts bs (after sys opts as x) := by
  induction as generalizing x
  case nil     => simp [Runs, after]
  case cons hi => simp [Runs, hi, after, and_assoc]

theorem calls_append (as bs : List Action) :
    calls sys opts (as ++ bs) x = calls sys opts as x ++ calls sys opts bs (after sys opts as x) := by
  induction as generalizing x
  case nil     => simp [calls, after]
  case cons hi => simp [calls, hi, after]

namespace Performed

theorem refl (w : World ω) : Performed sys opts [] w w where
  external := rfl
  uuids    := rfl
  calls    := by simp [LttngSimple.calls]

theorem append (h₁ : Performed sys opts as w₁ w₂) (h₂ : Performed sys opts bs w₂ w₃) :
    Performed sys opts (as ++ bs) w₁ w₃ where
  external := by rw [h₂.external, h₁.external, after, after, after, List.foldl_append]
  uuids    := by rw [h₂.uuids, h₁.uuids]
  calls    := by rw [h₂.calls, h₁.calls, h₁.external, calls_append, List.append_assoc]

end Performed

theorem exec_of_dryRun (sys : Sys ω) (h : opts.dryRun) (cmd : Cmd) (env : Environ) (w : World ω) :
    ∃ log, exec sys opts cmd env w = .ok 0 { w with log } :=
  ⟨_, by simp only [exec, h, debug, log]; rfl⟩

theorem exec_ok (h : opts.dryRun = false) (hc : sys.call cmd.argv env w.external = (.ok retcode, x)) :
    ∃ log, exec sys opts cmd env w =
      .ok retcode { w with external := x, calls := w.calls ++ [⟨cmd, some retcode⟩], log } := by
  simp [exec, h, debug, log, call, hc]

theorem exec_error (h : opts.dryRun = false) (hc : sys.call cmd.argv env w.external = (.error e, x)) :
    ∃ log, exec sys opts cmd env w =
      .error e { w with external := x, calls := w.calls ++ [⟨cmd, none⟩], log } := by
  simp [exec, h, debug, log, call, hc]

-- The three cases of a command that is called: it succeeds, it returns a code that is checked, and it can
-- not be started.
theorem cmdStub_ok (h : opts.dryRun = false)
    (hc : sys.call cmd.argv (cmdEnv.getD sys.environ) w.external = (.ok retcode, x))
    (hr : check = true → retcode = 0) :
    ∃ log, cmdStub sys opts cmd check cmdEnv w =
      .ok () { w with external := x, calls := w.calls ++ [⟨cmd, some retcode⟩], log } := by
  have ⟨log, he⟩ := exec_ok h hc
  have hn : ¬(check = true ∧ retcode ≠ 0) := by tauto
  exact ⟨log, by simp only [cmdStub, bind_apply, he, if_neg hn, pure_apply]⟩

theorem cmdStub_failed (h : opts.dryRun = false)
    (hc : sys.call cmd.argv (cmdEnv.getD sys.environ) w.external = (.ok retcode, x)) (hr : retcode ≠ 0) :
    ∃ e w', cmdStub sys opts cmd true cmdEnv w = .error e w' ∧
      ∃ code, w'.calls = w.calls ++ [⟨cmd, some retcode⟩, ⟨.destroy current, code⟩] := by
  have ⟨log₁, he₁⟩ := exec_ok h hc
  let w₁ : World ω := { w with external := x, calls := w.calls ++ [⟨cmd, some retcode⟩], log := log₁ }
  rcases hd : sys.call (Cmd.destroy current).argv sys.environ w₁.external with ⟨e | code, y⟩
  case error =>
    have ⟨log₂, he₂⟩ := exec_error h hd
    exact ⟨_, _, by simp [cmdStub, he₁, hr, w₁, he₂]; exact ⟨rfl, rfl⟩, none, by simp⟩
  case ok =>
    have ⟨log₂, he₂⟩ := exec_ok h hd
    exact ⟨_, _, by simp [cmdStub, he₁, hr, w₁, he₂]; exact ⟨rfl, rfl⟩, some code, by simp⟩

theorem cmdStub_error (h : opts.dryRun = false)
    (hc : sys.call cmd.argv (cmdEnv.getD sys.environ) w.external = (.error e, x)) (check : Bool) :
    ∃ log, cmdStub sys opts cmd check cmdEnv w =
      .error e { w with external := x, calls := w.calls ++ [⟨cmd, none⟩], log } := by
  have ⟨log, he⟩ := exec_error h hc
  exact ⟨log, by simp only [cmdStub, bind_apply, he]⟩

section

variable (sys opts)

-- An existing trace is only removed, which may fail, if this has been asked for and it is not a dry run.
theorem clearOutput_eq (out : String) (w : World ω) :
    ∃ log, clearOutput sys opts out w =
      if !opts.dryRun && sys.isdir out w.external && opts.clearTrace then
        act (sys.rmtree out) { w with log }
      else
        .ok () { w with log } := by
  cases hi : sys.isdir out w.external
  case false => exact ⟨w.log, by simp [clearOutput, hi]⟩
  case true =>
    cases hc : opts.clearTrace <;> cases hd : opts.dryRun <;>
      simp only [clearOutput, log, debug, hi, hc, hd, bind_apply, get_apply, modify_apply, reduceIte,
        Bool.false_eq_true, Bool.and_true, Bool.and_false, Bool.not_true, Bool.not_false] <;>
      exact ⟨_, rfl⟩

end

theorem clearOutput_ok (h : (Action.attempt sys opts (.clear out) w.external).1) :
    ∃ log, clearOutput sys opts out w =
      .ok () { w with external := (Action.attempt sys opts (.clear out) w.external).2, log } := by
  have ⟨log, he⟩ := clearOutput_eq sys opts out w
  refine ⟨log, ?_⟩
  simp only [he, Action.attempt] at h ⊢
  split
  case isTrue hc =>
    rw [if_pos hc] at h
    rcases hr : sys.rmtree out w.external with ⟨_ | _, x⟩ <;> simp_all [act]
  case isFalse => rfl

theorem clearOutput_error (h : (Action.attempt sys opts (.clear out) w.external).1 = false) :
    ∃ e w', clearOutput sys opts out w = .error e w' := by
  have ⟨log, he⟩ := clearOutput_eq sys opts out w
  simp only [he, Action.attempt] at h ⊢
  split
  case isTrue hc =>
    rw [if_pos hc] at h
    rcases hr : sys.rmtree out w.external with ⟨_ | _, x⟩ <;> simp_all [act]
  case isFalse hc =>
    rw [if_neg hc] at h
    contradiction

namespace Action

theorem attempt_stub (hd : opts.dryRun = false) :
    attempt sys opts (.stub cmd check cmdEnv) x =
      match sys.call cmd.argv (cmdEnv.getD sys.environ) x with
      | (.ok retcode, x) => (!check || retcode = 0, x)
      | (.error _, x)    => (false, x) := by
  simp [attempt, hd]

theorem run_of_attempt {a : Action} (h : (a.attempt sys opts w.external).1) :
    ∃ w', a.run sys opts w = .ok () w' ∧ Performed sys opts [a] w w' := by
  cases a
  case info => exact ⟨_, rfl, rfl, rfl, by simp [LttngSimple.calls, calls]⟩
  case clear =>
    have ⟨log, he⟩ := clearOutput_ok h
    exact ⟨_, he, rfl, rfl, by simp [LttngSimple.calls, calls]⟩
  case stub cmd check cmdEnv =>
    cases hd : opts.dryRun
    case true =>
      have ⟨log, he⟩ := exec_of_dryRun sys hd cmd (cmdEnv.getD sys.environ) w
      refine ⟨{ w with log }, by simp [run, cmdStub, he], ?_, rfl, ?_⟩
      · simp [after, attempt, hd]
      · simp [LttngSimple.calls, calls, hd]
    case false =>
      rcases hc : sys.call cmd.argv (cmdEnv.getD sys.environ) w.external with ⟨_ | code, x⟩
      case error => simp [attempt_stub hd, hc] at h
      case ok =>
        have hr : check = true → code = 0 := by
          intro hk
          simpa [attempt_stub hd, hc, hk] using h
        have ⟨log, he⟩ := cmdStub_ok hd hc hr
        refine ⟨_, he, ?_, rfl, ?_⟩
        · simp [after, attempt_stub hd, hc]
        · simp [LttngSimple.calls, calls, hd, hc]

theorem run_of_not_attempt {a : Action} (h : (a.attempt sys opts w.external).1 = false) :
    ∃ e w', a.run sys opts w = .error e w' := by
  cases a
  case info => contradiction
  case clear => exact clearOutput_error h
  case stub cmd check cmdEnv =>
    cases hd : opts.dryRun
    case true => simp [attempt, hd] at h
    case false =>
      simp only [attempt_stub hd] at h
      rcases hc : sys.call cmd.argv (cmdEnv.getD sys.environ) w.external with ⟨_ | code, x⟩
      case error =>
        have ⟨log, he⟩ := cmdStub_error hd hc check
        exact ⟨_, _, he⟩
      case ok =>
        obtain ⟨rfl, hn⟩ : check = true ∧ code ≠ 0 := by simpa [hc] using h
        have ⟨_, _, he, _⟩ := cmdStub_failed hd hc hn
        exact ⟨_, _, he⟩

end Action

theorem runs_of_dryRun (h : opts.dryRun) (as : List Action) (x : ω) : Runs sys opts as x := by
  induction as generalizing x
  case nil           => trivial
  case cons a as hi => exact ⟨by cases a <;> simp [Action.attempt, h], hi _⟩

theorem calls_of_dryRun (h : opts.dryRun) (as : List Action) (x : ω) : calls sys opts as x = [] := by
  induction as generalizing x
  case nil          => rfl
  case cons a as hi => cases a <;> simp [calls, Action.calls, h, hi]

theorem perform_of_runs (h : Runs sys opts as w.external) :
    ∃ w', perform sys opts as w = .ok () w' ∧ Performed sys opts as w w' := by
  induction as generalizing w
  case nil => exact ⟨w, rfl, .refl w⟩
  case cons a as hi =>
    have ⟨ha, hs⟩ := runs_cons.mp h
    have ⟨w₁, hr, h₁⟩ := Action.run_of_attempt ha
    have ⟨w₂, hp, h₂⟩ := hi <| h₁.external ▸ hs
    exact ⟨w₂, by rw [perform_cons, bind_apply, hr]; exact hp, h₁.append h₂⟩

theorem perform_of_not_runs (h : ¬Runs sys opts as w.external) :
    ∃ e w', perform sys opts as w = .error e w' := by
  induction as generalizing w
  case nil => exact absurd trivial h
  case cons a as hi =>
    cases ha : (a.attempt sys opts w.external).1
    case false =>
      have ⟨e, w', he⟩ := Action.run_of_not_attempt ha
      exact ⟨e, w', by rw [perform_cons, bind_apply, he]⟩
    case true =>
      have ⟨w₁, hr, h₁⟩ := Action.run_of_attempt ha
      have hn : ¬Runs sys opts as w₁.external := fun hs => h <| runs_cons.mpr ⟨ha, h₁.external ▸ hs⟩
      have ⟨e, w', he⟩ := hi hn
      exact ⟨e, w', by rw [perform_cons, bind_apply, hr]; exact he⟩

theorem createSession_of_attempt
    (h : (Action.attempt sys opts (.stub (.create session out) true none) w.external).1) :
    createSession sys opts session out w = cmdStub sys opts (.create session out) true none w := by
  have ⟨_, he, _⟩ := Action.run_of_attempt h
  rw [createSession, tryCatch_apply]
  simp only [Action.run] at he
  rw [he]

-- As long as nothing fails, a target is traced according to its plan.
theorem doTrace_eq_perform (hk : kernel || ust)
    (h : Runs sys opts (tracePlan sys opts cmd session evlist kernel ust (sys.uuid4 w.uuids)) w.external) :
    doTrace sys opts cmd session evlist kernel ust w =
      perform sys opts (tracePlan sys opts cmd session evlist kernel ust (sys.uuid4 w.uuids))
        { w with uuids := w.uuids + 1 } := by
  have ⟨h, _⟩ := runs_append.mp h
  have ⟨hp, hc⟩ := runs_append.mp h
  let w₀ : World ω := { w with uuids := w.uuids + 1 }
  have ⟨w₁, he₁, h₁⟩ := perform_of_runs (w := w₀) hp
  have hc := (runs_cons.mp <| h₁.external ▸ hc).1
  rw [tracePlan, perform_append, perform_append, perform_singleton]
  simp only [doTrace_eq hk, bind_apply, uuid4]
  rw [he₁]
  simp only [createSession_of_attempt hc, Action.run]

theorem doTrace_of_runs (hk : kernel || ust)
    (h : Runs sys opts (tracePlan sys opts cmd session evlist kernel ust (sys.uuid4 w.uuids)) w.external) :
    ∃ w', doTrace sys opts cmd session evlist kernel ust w = .ok () w' ∧
      Performed sys opts (tracePlan sys opts cmd session evlist kernel ust (sys.uuid4 w.uuids))
        { w with uuids := w.uuids + 1 } w' := by
  rw [doTrace_eq_perform hk h]
  exact perform_of_runs h

end WorkloadKit.LttngSimple
