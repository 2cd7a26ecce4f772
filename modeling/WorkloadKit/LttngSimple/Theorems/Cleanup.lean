import WorkloadKit.LttngSimple.Theorems.Sessions

namespace WorkloadKit.LttngSimple

open Script

variable {ω : Type} {sys : Sys ω} {opts : Options} {x : ω}

-- Commands that have been issued stay issued.
def Grows (w w' : World ω) : Prop :=
  w.calls <+: w'.calls

namespace Grows

instance : Std.Refl (Grows (ω := ω)) where
  refl _ := List.prefix_rfl

instance : IsTrans (World ω) Grows where
  trans _ _ _ h₁ h₂ := List.IsPrefix.trans h₁ h₂

theorem log (level : Level) (text : String) : Keeps (Grows (ω := ω)) (log level text) :=
  fun _ => List.prefix_rfl

theorem act (f : ω → Except String Unit × ω) : Keeps Grows (act f) := by
  intro w
  simp only [LttngSimple.act]
  split <;> exact List.prefix_rfl

theorem call (cmd : Cmd) (env : Environ) : Keeps Grows (call sys cmd env) := by
  intro w
  simp only [LttngSimple.call]
  split <;> exact List.prefix_append _ _

theorem exec (cmd : Cmd) (env : Environ) : Keeps Grows (exec sys opts cmd env) :=
  .bind (log _ _) fun _ => .bind (log _ _) fun _ => .ite (.pure _) <|
    .bind (call _ _) fun _ => .bind (log _ _) fun _ => .pure _

theorem cmdStub (cmd : Cmd) (check : Bool) (env : Option Environ) :
    Keeps Grows (cmdStub sys opts cmd check env) :=
  .bind (exec _ _) fun _ => .ite (.bind (exec _ _) fun _ => .throw _) (.pure _)

theorem clearOutput (out : String) : Keeps Grows (clearOutput sys opts out) := by
  intro w
  have ⟨log, he⟩ := clearOutput_eq sys opts out w
  rw [he]
  split
  · exact act _ { w with log }
  · exact List.prefix_rfl

theorem createSession (session out : String) : Keeps Grows (createSession sys opts session out) :=
  .tryCatch (cmdStub _ _ _) fun _ => .bind (cmdStub _ _ _) fun _ => cmdStub _ _ _

theorem perform (as : List Action) : Keeps Grows (perform sys opts as) := by
  refine .forM fun a => ?_
  cases a
  case info  => exact log _ _
  case clear => exact clearOutput _
  case stub  => exact cmdStub _ _ _

theorem doTrace (hk : kernel || ust) : Keeps Grows (doTrace sys opts cmd session evlist kernel ust) := by
  rw [doTrace_eq hk]
  exact .bind (fun _ => List.prefix_rfl) fun _ => .bind (perform _) fun _ =>
    .bind (createSession _ _) fun _ => perform _

theorem traceTargets (hk : opts.kernel || opts.ust) (evlist : List String) (ts : List Target) :
    Keeps Grows (traceTargets sys opts evlist ts) :=
  .forM fun _ => doTrace hk

end Grows

@[simp]
theorem Options.tracers_daemon (opts : Options) : opts.tracers.daemon = opts.daemon := by
  unfold tracers
  split <;> rfl

theorem Options.tracers_kernel_or_ust (opts : Options) : opts.tracers.kernel || opts.tracers.ust := by
  unfold tracers
  split
  case isTrue h  => simpa using h
  case isFalse h => rfl

theorem cmdStub_unchecked (sys : Sys ω) (hd : opts.dryRun = false) (cmd : Cmd) (env : Option Environ)
    (w : World ω) : ∃ code, (final <| cmdStub sys opts cmd false env w).calls = w.calls ++ [⟨cmd, code⟩] := by
  rcases hc : sys.call cmd.argv (env.getD sys.environ) w.external with ⟨_ | code, _⟩
  case error =>
    have ⟨_, he⟩ := cmdStub_error hd hc false
    exact ⟨none, by rw [he]; rfl⟩
  case ok =>
    have hr : false = true → code = 0 := nofun
    have ⟨_, he⟩ := cmdStub_ok hd hc hr
    exact ⟨some code, by rw [he]; rfl⟩

-- If the first attempt to create a session fails, the script destroys a session before the second one.
theorem createSession_of_not_attempt (hd : opts.dryRun = false)
    (h : (Action.attempt sys opts (.stub (.create session out) true none) w.external).1 = false) :
    ∃ cs c, c.cmd.Destroys ∧ live cs = live w.calls ∧
      cs ++ [c] <+: (final <| createSession sys opts session out w).calls := by
  rw [createSession, tryCatch_apply]
  rcases hc : sys.call (Cmd.create session out).argv ((none : Option Environ).getD sys.environ) w.external
    with ⟨_ | code, x⟩
  case error =>
    obtain ⟨log, he⟩ := cmdStub_error hd hc true
    rw [he]
    let w₁ : World ω := { w with external := x, calls := w.calls ++ [⟨.create session out, none⟩], log }
    obtain ⟨code, hs⟩ := cmdStub_unchecked sys hd (.destroy session) none w₁
    refine ⟨w₁.calls, ⟨.destroy session, code⟩, trivial, live_not_created _ _ _ (by rintro ⟨⟩), ?_⟩
    rw [← hs]
    exact Keeps.final_bind fun _ => Grows.cmdStub _ _ _
  case ok =>
    have hn : code ≠ 0 := by
      rw [Action.attempt_stub hd, hc] at h
      simpa using h
    obtain ⟨e, w₁, he, code', hs⟩ := cmdStub_failed hd hc hn
    rw [he]
    refine ⟨w.calls ++ [⟨.create session out, some code⟩], ⟨.destroy LttngSimple.current, code'⟩, trivial,
      live_not_created _ _ _ (by simpa using hn), ?_⟩
    rw [List.append_assoc]
    exact hs ▸ Keeps.bind (Grows.cmdStub _ _ _) (fun _ => Grows.cmdStub _ _ _) w₁

-- A target for which something fails: the failure is either passed on to the caller, or it has made the
-- script destroy a session that does not exist.
theorem doTrace_of_not_runs (hk : kernel || ust) (hd : opts.dryRun = false) (hl : live w.calls = [])
    (h : ¬Runs sys opts (tracePlan sys opts cmd session evlist kernel ust (sys.uuid4 w.uuids)) w.external) :
    (∃ e w', doTrace sys opts cmd session evlist kernel ust w = .error e w') ∨
      ¬Own (final <| doTrace sys opts cmd session evlist kernel ust w).calls := by
  let w₀ : World ω := { w with uuids := w.uuids + 1 }
  have hu : uuid4 sys w = .ok (sys.uuid4 w.uuids) w₀ := rfl
  simp only [doTrace_eq hk, bind_apply (m := uuid4 sys), hu]
  rw [tracePlan, runs_append, runs_append] at h
  generalize withSuffix session kernel ust ++ "-" ++ sys.uuid4 w.uuids = current at *
  generalize join opts.output (withSuffix session kernel ust) = out at *
  by_cases hp : Runs sys opts [.info <| "start tracing: " ++ current, .clear out] w₀.external
  case neg =>
    obtain ⟨e, w', he⟩ := perform_of_not_runs hp
    exact .inl ⟨e, w', by rw [bind_apply, he]⟩
  case pos =>
    obtain ⟨w₁, he₁, h₁⟩ := perform_of_runs hp
    have hl₁ : live w₁.calls = [] := by
      rw [h₁.calls]
      simpa [calls] using hl
    simp only [bind_apply (m := perform _ _ _), he₁]
    cases hc : (Action.attempt sys opts (.stub (.create current out) true none) w₁.external).1
    case false =>
      obtain ⟨cs, c, hd, hl, hp⟩ := createSession_of_not_attempt hd hc
      refine .inr <| not_own_of_live (hp.trans ?_) hd (hl.trans hl₁)
      exact Keeps.final_bind fun _ => Grows.perform _
    case true =>
      obtain ⟨w₂, he₂, h₂⟩ := Action.run_of_attempt hc
      have hn : ¬Runs sys opts (enablePlan opts evlist kernel ust ++ finishPlan sys opts cmd current)
          w₂.external := by
        intro hr
        refine h ⟨⟨hp, ?_⟩, ?_⟩
        · exact runs_cons.mpr ⟨h₁.external ▸ hc, trivial⟩
        · exact (h₁.append h₂).external ▸ hr
      obtain ⟨e, w', he⟩ := perform_of_not_runs hn
      simp only [Action.run] at he₂
      exact .inl ⟨e, w', by rw [bind_apply, createSession_of_attempt hc, he₂]; exact he⟩

-- What has been created for a target for which nothing fails is destroyed, unless this is in daemon mode.
theorem own_tracePlan (ho : Own cs) (hl : live cs = [])
    (h : Runs sys opts (tracePlan sys opts cmd session evlist kernel ust uuid) x) :
    Own (cs ++ calls sys opts (tracePlan sys opts cmd session evlist kernel ust uuid) x) ∧
      (opts.daemon = false →
        live (cs ++ calls sys opts (tracePlan sys opts cmd session evlist kernel ust uuid) x) = []) := by
  cases hd : opts.dryRun
  case true =>
    rw [calls_of_dryRun hd, List.append_nil]
    exact ⟨ho, fun _ => hl⟩
  case false =>
    have ⟨current, out, ds, code, hn, hc⟩ := calls_tracePlan hd h
    have ho₁ : Own (cs ++ [⟨.create current out, some 0⟩]) := ho.concat nofun
    have hl₁ : live (cs ++ [⟨.create current out, some 0⟩] ++ ds) = [current] := by
      rw [live_append_neutral hn, live_created, hl]
    have ho₂ := ho₁.append_neutral hn
    rw [hc, ← List.append_assoc, ← List.append_assoc]
    cases opts.daemon
    case true  => exact ⟨by simpa using ho₂, nofun⟩
    case false =>
      refine ⟨ho₂.concat fun _ => ⟨current, hl₁ ▸ List.mem_singleton_self _, rfl⟩, fun _ => ?_⟩
      exact (live_destroyed ..).trans <| by rw [hl₁]; simp

theorem traceTargets_cons (t : Target) (ts : List Target) (evlist : List String) :
    traceTargets sys opts evlist (t :: ts) =
      (doTrace sys opts t.cmd t.name evlist opts.kernel opts.ust >>= fun _ =>
        traceTargets sys opts evlist ts) :=
  rfl

-- By induction on the targets. At the start of each of them, no session is left of the ones before.
theorem traceTargets_of_runs (hk : opts.kernel || opts.ust) (hm : opts.daemon → ts.length ≤ 1)
    (ho : Own w.calls) (hl : live w.calls = [])
    (h : Runs sys opts (runPlan sys opts evlist ts w.uuids) w.external) :
    ∃ w', traceTargets sys opts evlist ts w = .ok () w' ∧ Own w'.calls := by
  induction ts generalizing w
  case nil => exact ⟨w, rfl, ho⟩
  case cons t ts hi =>
    have ⟨ht, hs⟩ := runs_append.mp h
    have ⟨w₁, he, hp⟩ := doTrace_of_runs hk ht
    have ⟨ho₁, hl₁⟩ := own_tracePlan ho hl ht
    rw [← hp.calls] at ho₁ hl₁
    rw [traceTargets_cons, bind_apply, he]
    cases hd : opts.daemon
    case true =>
      obtain rfl : ts = [] := by simpa using hm hd
      exact ⟨w₁, rfl, ho₁⟩
    case false =>
      refine hi (by simp [hd]) ho₁ (hl₁ hd) ?_
      rw [hp.uuids, hp.external]
      exact hs

theorem traceTargets_of_not_runs (hk : opts.kernel || opts.ust) (hd : opts.dryRun = false)
    (hm : opts.daemon → ts.length ≤ 1) (ho : Own w.calls) (hl : live w.calls = [])
    (h : ¬Runs sys opts (runPlan sys opts evlist ts w.uuids) w.external) :
    (∃ e w', traceTargets sys opts evlist ts w = .error e w') ∨
      ¬Own (final <| traceTargets sys opts evlist ts w).calls := by
  induction ts generalizing w
  case nil => exact absurd trivial h
  case cons t ts hi =>
    rw [traceTargets_cons]
    by_cases ht : Runs sys opts
      (tracePlan sys opts t.cmd t.name evlist opts.kernel opts.ust (sys.uuid4 w.uuids)) w.external
    case neg =>
      rcases doTrace_of_not_runs hk hd hl ht with ⟨e, w', he⟩ | hn
      · exact .inl ⟨e, w', by rw [bind_apply, he]⟩
      · exact .inr fun ho => hn <| ho.mono <| Keeps.final_bind fun _ => Grows.traceTargets hk _ _
    case pos =>
      have ⟨w₁, he, hp⟩ := doTrace_of_runs hk ht
      have ⟨ho₁, hl₁⟩ := own_tracePlan ho hl ht
      rw [← hp.calls] at ho₁ hl₁
      have hs : ¬Runs sys opts (runPlan sys opts evlist ts w₁.uuids) w₁.external := by
        rw [hp.uuids, hp.external]
        exact fun hs => h <| runs_append.mpr ⟨ht, hs⟩
      rw [bind_apply, he]
      cases hd : opts.daemon
      case true =>
        obtain rfl : ts = [] := by simpa using hm hd
        exact absurd trivial hs
      case false => exact hi (by simp [hd]) ho₁ (hl₁ hd) hs

-- The batch mode, in which there may be several targets, is incompatible with daemon mode.
theorem getTargets_spec (sys : Sys ω) (opts : Options) (args : List String) (w : World ω) :
    match getTargets sys opts args w with
    | .ok ts w'   => w' = w ∧ (opts.daemon → ts.length ≤ 1)
    | .error _ w' => w' = w := by
  unfold getTargets
  cases opts.batch
  case none => simp
  case some batch =>
    cases opts.daemon
    case true => simp
    case false =>
      simp only [Bool.false_eq_true, if_false, bind_apply, get_apply]
      cases sys.listdir batch w.external <;> simp

-- Nothing has been executed when the loop over the targets starts.
theorem setup_spec (sys : Sys ω) (opts : Options) (args : List String) (x : ω) :
    match setup sys opts args (.init x) with
    | .ok ts w   => w.calls = [] ∧ w.uuids = 0 ∧ (opts.daemon → ts.length ≤ 1)
    | .error _ w => w.calls = [] := by
  have hg (w : World ω) (h : w.calls = [] ∧ w.uuids = 0) : match getTargets sys opts args w with
      | .ok ts w   => w.calls = [] ∧ w.uuids = 0 ∧ (opts.daemon → ts.length ≤ 1)
      | .error _ w => w.calls = [] := by
    have hs := getTargets_spec sys opts args w
    cases hr : getTargets sys opts args w <;> simp_all
  simp only [setup, bind_apply, get_apply]
  by_cases hp : (!sys.pathExists opts.output (World.init x).external) = true
  case pos =>
    simp only [if_pos hp, bind_apply, act]
    rcases sys.makedirs opts.output (World.init x).external with ⟨_ | _, y⟩
    · rfl
    · exact hg _ ⟨rfl, rfl⟩
  case neg =>
    simp only [if_neg hp]
    exact hg _ ⟨rfl, rfl⟩

-- If something fails while a session exists, the script destroys this session, and it does not destroy
-- any other ones.
structure Cleanup (sys : Sys ω) (opts : Options) (args evlist : List String) (x : ω) : Prop where
  own    : Own (final <| main sys opts args evlist (.init x)).calls
  raised : ∀ ts w e w', setup sys opts args (.init x) = .ok ts w →
    traceTargets sys opts.tracers evlist ts w = .error e w' →
    ∀ cs session out ds,
      (final <| main sys opts args evlist (.init x)).calls = cs ++ [⟨.create session out, some 0⟩] ++ ds →
      ∃ c ∈ ds, c.cmd = .destroy session

theorem main_of_setup_error (h : setup sys opts args (.init x) = .error e w) :
    final (main sys opts args evlist <| .init x) = w := by
  simp [main, h, final]

theorem main_of_no_targets (h : setup sys opts args (.init x) = .ok [] w) :
    final (main sys opts args evlist <| .init x) = w := by
  simp [main, h, final]

theorem main_of_ok (h : setup sys opts args (.init x) = .ok ts w) (ht : ts ≠ [])
    (hr : traceTargets sys opts.tracers evlist ts w = .ok () w') :
    final (main sys opts args evlist <| .init x) = { w' with log := w'.log ++ [(.debug, "done")] } := by
  simp [main, h, if_neg ht, hr]
  rfl

-- The handler at the end of the script destroys all sessions.
theorem main_of_error (h : setup sys opts args (.init x) = .ok ts w) (ht : ts ≠ [])
    (hr : traceTargets sys opts.tracers evlist ts w = .error e w') :
    final (main sys opts args evlist <| .init x) =
      final (cmdStub sys opts.tracers .destroyAll false none { w' with log := w'.log ++ [(.error, e)] }) := by
  simp only [main, bind_apply, h, List.isEmpty_iff, if_neg ht, tryCatch_apply, hr, log, modify_apply]
  cases cmdStub sys opts.tracers .destroyAll false none { w' with log := w'.log ++ [(.error, e)] } <;> rfl

theorem cleanup_of_runs
    (h : ∀ ts w, setup sys opts args (.init x) = .ok ts w →
      Runs sys opts.tracers (runPlan sys opts.tracers evlist ts 0) w.external) :
    Cleanup sys opts args evlist x := by
  have hs := setup_spec sys opts args x
  cases he : setup sys opts args (.init x)
  case error e w =>
    rw [he] at hs
    exact ⟨by rw [main_of_setup_error he, hs]; exact Own.nil, by simp [he]⟩
  case ok ts w =>
    rw [he] at hs
    obtain ⟨hw, hu, hm⟩ := hs
    have ho : Own w.calls := hw ▸ Own.nil
    have hl : live w.calls = [] := by rw [hw]; rfl
    have ⟨w', hr, ho'⟩ :=
      traceTargets_of_runs opts.tracers_kernel_or_ust (by simpa using hm) ho hl (hu ▸ h ts w he)
    constructor
    case own =>
      by_cases ht : ts = []
      case pos => rwa [main_of_no_targets (ht ▸ he)]
      case neg => rwa [main_of_ok he ht hr]
    case raised =>
      intro _ _ _ _ he₂ hr₂
      cases he.symm.trans he₂
      cases hr.symm.trans hr₂

-- If something fails then either it is passed on to the handler, or a session has been destroyed before.
theorem Cleanup.runs (hc : Cleanup sys opts args evlist x) (he : setup sys opts args (.init x) = .ok ts w) :
    Runs sys opts.tracers (runPlan sys opts.tracers evlist ts 0) w.external := by
  by_contra hn
  have hs := setup_spec sys opts args x
  rw [he] at hs
  obtain ⟨hw, hu, hm⟩ := hs
  have ht : ts ≠ [] := by
    rintro rfl
    exact hn trivial
  have hd : opts.tracers.dryRun = false := by
    by_contra hd
    exact hn <| runs_of_dryRun (by simpa using hd) _ _
  have hown : Own w.calls := hw ▸ Own.nil
  have hl : live w.calls = [] := by rw [hw]; rfl
  rw [← hu] at hn
  have hf := traceTargets_of_not_runs opts.tracers_kernel_or_ust hd (by simpa using hm) hown hl hn
  have ho := hc.own
  cases hr : traceTargets sys opts.tracers evlist ts w
  case ok w' =>
    rw [hr] at hf
    rw [main_of_ok he ht hr] at ho
    rcases hf with ⟨_, _, he⟩ | hn
    · contradiction
    · exact hn ho
  case error e w' =>
    have ⟨code, hp⟩ := cmdStub_unchecked sys hd .destroyAll none { w' with log := w'.log ++ [(.error, e)] }
    rw [main_of_error he ht hr, hp] at ho
    exact not_own_of_destroyAll List.prefix_rfl ho

-- The script cleans up exactly if there is nothing to clean up: in a dry run, and if no existing trace
-- can not be removed, every command can be started and each command whose code is checked returns 0.
theorem cleanup_iff (sys : Sys ω) (opts : Options) (args evlist : List String) (x : ω) :
    Cleanup sys opts args evlist x ↔ ∀ ts w, setup sys opts args (.init x) = .ok ts w →
      Runs sys opts.tracers (runPlan sys opts.tracers evlist ts 0) w.external := by
  constructor
  case mp  => exact fun hc _ _ he => hc.runs he
  case mpr => exact cleanup_of_runs

-- A session has been created, and the command that starts it fails.
def failingStart : Sys Unit where
  environ    := fun _ => none
  uuid4      := fun _ => "0"
  call       := fun argv _ x => (.ok <| if argv = [LTTNG, "start"] then 1 else 0, x)
  pathExists := fun _ _ => true
  isdir      := fun _ _ => false
  isfile     := fun _ _ => false
  listdir    := fun _ _ => .ok []
  makedirs   := fun _ x => (.ok (), x)
  rmtree     := fun _ x => (.ok (), x)

def ustOnly : Options where
  kernel          := false
  ust             := true
  output          := "/tmp"
  batch           := none
  daemon          := false
  dryRun          := false
  enableAllEvents := false
  libcWrapper     := false
  syscall         := false
  stateless       := false
  name            := none
  clearTrace      := false

theorem not_cleanup : ¬Cleanup failingStart ustOnly ["ls"] [] () := by
  intro h
  have hc : (final <| main failingStart ustOnly ["ls"] [] (.init ())).calls =
      [⟨.create "ls-u-0" "/tmp/ls-u", some 0⟩, ⟨.enableUstChannel, some 0⟩, ⟨.enableUstEvents, some 0⟩,
       ⟨.addUstContext, some 0⟩, ⟨.start, some 1⟩, ⟨.destroy "", some 0⟩, ⟨.destroyAll, some 0⟩] := by
    decide +kernel
  have ⟨c, hm, hd⟩ := h.raised _ _ _ _ rfl rfl [] _ _ _ hc
  revert c
  decide

end WorkloadKit.LttngSimple
