import Mathlib.Data.Int.Notation
import Mathlib.Data.Nat.Notation
import WorkloadKit.Library.Script

namespace WorkloadKit.LttngSimple

-- The values of the environment variables.
abbrev Environ :=
  String → Option String

-- What the script uses of the system. A value of `ω` is everything outside of the script, so the
-- commands that are executed may change it in any way. The message is the one of the exception that is
-- raised, and `call` raises if the command can not be started.
structure Sys (ω : Type) where
  environ    : Environ
  uuid4      : ℕ → String
  call       : List String → Environ → ω → Except String ℤ × ω
  pathExists : String → ω → Bool
  isdir      : String → ω → Bool
  isfile     : String → ω → Bool
  listdir    : String → ω → Except String (List String)
  makedirs   : String → ω → Except String Unit × ω
  rmtree     : String → ω → Except String Unit × ω

-- os.path.join
def join (dir name : String) : String :=
  if name.toList.head? = some '/' then
    name
  else if dir = "" ∨ dir.toList.getLast? = some '/' then
    dir ++ name
  else
    dir ++ "/" ++ name

-- os.path.basename
def basename (path : String) : String :=
  .ofList (path.toList.reverse.takeWhile (· ≠ '/')).reverse

-- The commands that `cmd_stub` is called with. The last one is the traced command.
inductive Cmd
  | create (session out : String)
  | destroy (session : String)
  | destroyAll
  | enableKernelChannel
  | addKernelContext
  | enableSyscalls
  | enableKernelEvents
  | enableKernelEvent (ev : String)
  | enableUstChannel
  | enableUstEvents
  | addUstContext
  | start
  | stop
  | traced (cmd : List String)
  deriving DecidableEq

def LTTNG : String := "lttng"

def Cmd.argv : Cmd → List String
  | create session out   => [LTTNG, "create", session, "-o", out]
  | destroy session      => [LTTNG, "destroy", session]
  | destroyAll           => [LTTNG, "destroy", "-a"]
  | enableKernelChannel  =>
    [LTTNG, "enable-channel", "k", "-k", "--subbuf-size", "16384", "--num-subbuf", "4096"]
  | addKernelContext     =>
    [LTTNG, "add-context", "-k", "-c", "k", "-t", "pid", "-t", "tid", "-t", "procname"]
  | enableSyscalls       => [LTTNG, "enable-event", "-c", "k", "-a", "-k", "--syscall"]
  | enableKernelEvents   => [LTTNG, "enable-event", "-c", "k", "-a", "-k"]
  | enableKernelEvent ev => [LTTNG, "enable-event", "-k", "-c", "k", ev]
  | enableUstChannel     =>
    [LTTNG, "enable-channel", "u", "-u", "--subbuf-size", "4194304", "--num-subbuf", "64"]
  | enableUstEvents      => [LTTNG, "enable-event", "-c", "u", "-a", "-u"]
  | addUstContext        => [LTTNG, "add-context", "-c", "u", "-u", "-t", "vpid", "-t", "vtid"]
  | start                => [LTTNG, "start"]
  | stop                 => [LTTNG, "stop"]
  | traced cmd           => cmd

structure Options where
  kernel          : Bool
  ust             : Bool
  output          : String
  batch           : Option String
  daemon          : Bool
  dryRun          : Bool
  enableAllEvents : Bool
  libcWrapper     : Bool
  syscall         : Bool
  stateless       : Bool
  name            : Option String
  clearTrace      : Bool

structure Target where
  name : String
  cmd  : Option (List String)

-- A call of `subprocess.call`, with the code that the command has returned if it could be started.
structure Call where
  cmd     : Cmd
  retcode : Option ℤ
  deriving DecidableEq

inductive Level
  | debug | info | warning | error
  deriving DecidableEq

-- The field `calls` is a ghost, which records the commands that have been issued.
structure World (ω : Type) where
  external : ω
  uuids    : ℕ
  calls    : List Call
  log      : List (Level × String)

def World.init (x : ω) : World ω where
  external := x
  uuids    := 0
  calls    := []
  log      := []

-- The module-level variable. The assignments of `do_trace` are to a variable of its own, so the value
-- that `cmd_stub` sees is always the initial one.
def current : String := ""

section Script

variable {ω : Type} (sys : Sys ω) (opts : Options)

def log (level : Level) (text : String) : Script (World ω) Unit :=
  modify fun w => { w with log := w.log ++ [(level, text)] }

def debug (text : String) : Script (World ω) Unit :=
  log .debug text

def info (text : String) : Script (World ω) Unit :=
  log .info text

-- A function of the system that changes it.
def act (f : ω → Except String Unit × ω) : Script (World ω) Unit := fun w =>
  match f w.external with
  | (.ok (), x)   => .ok () { w with external := x }
  | (.error e, x) => .error e { w with external := x }

def uuid4 : Script (World ω) String := fun w =>
  .ok (sys.uuid4 w.uuids) { w with uuids := w.uuids + 1 }

-- subprocess.call
def call (cmd : Cmd) (env : Environ) : Script (World ω) ℤ := fun w =>
  match sys.call cmd.argv env w.external with
  | (.ok retcode, x) => .ok retcode { w with external := x, calls := w.calls ++ [⟨cmd, some retcode⟩] }
  | (.error e, x)    => .error e { w with external := x, calls := w.calls ++ [⟨cmd, none⟩] }

-- The part of `cmd_stub` that precedes its check.
def exec (cmd : Cmd) (env : Environ) : Script (World ω) ℤ := do
  debug <| "LD_PRELOAD=" ++ (env "LD_PRELOAD").getD ""
  debug <| "exec: " ++ " ".intercalate cmd.argv
  if opts.dryRun then
    return 0
  else
    let retcode ← call sys cmd env
    debug <| "exit: " ++ toString retcode
    return retcode

-- The nested call of `cmd_stub` does not check, so it only executes its command.
def cmdStub (cmd : Cmd) (check : Bool) (cmdEnv : Option Environ) : Script (World ω) Unit := do
  let retcode ← exec sys opts cmd (cmdEnv.getD sys.environ)
  if check ∧ retcode ≠ 0 then
    let _ ← exec sys opts (.destroy current) sys.environ
    throw "command failed"

-- Checks and cleanup
def clearOutput (out : String) : Script (World ω) Unit := do
  if sys.isdir out (← get).external then
    if opts.clearTrace then
      if opts.dryRun then
        debug <| "Would remove trace: " ++ out
      else
        debug <| "Removing trace: " ++ out
        act <| sys.rmtree out
    else
      log .warning <| "Append to existing trace: " ++ out

-- Step 1: start session
def createSession (session out : String) : Script (World ω) Unit :=
  tryCatch (cmdStub sys opts (.create session out) true none) fun _ => do
    cmdStub sys opts (.destroy session) false none
    cmdStub sys opts (.create session out) true none

-- Whether to enable pid/tid context. It is not required if there is a sched_switch event.
def addContext (evlist : List String) : Bool :=
  !evlist.contains "sched_switch" || opts.stateless

-- Step 2: enable required events. Returns the value of `add_context`.
def enableKernel (evlist : List String) : Script (World ω) Bool := do
  cmdStub sys opts .enableKernelChannel true none
  if addContext opts evlist then
    cmdStub sys opts .addKernelContext true none
  if opts.syscall then
    cmdStub sys opts .enableSyscalls false none
  if opts.enableAllEvents then
    cmdStub sys opts .enableKernelEvents true none
  else
    evlist.forM fun ev => cmdStub sys opts (.enableKernelEvent ev) true none
  return addContext opts evlist

def enableUst (kernel addContext : Bool) : Script (World ω) Unit := do
  cmdStub sys opts .enableUstChannel true none
  cmdStub sys opts .enableUstEvents true none
  if !kernel || addContext then
    cmdStub sys opts .addUstContext true none

def programEnv : Environ := fun name =>
  if opts.libcWrapper ∧ name = "LD_PRELOAD" then
    some "liblttng-ust-libc-wrapper.so"
  else
    sys.environ name

-- Step 4: run the program under tracing
def runProgram (cmd : Option (List String)) : Script (World ω) Unit := do
  match cmd with
  | none     => return
  | some cmd =>
    info <| "Executing command: " ++ " ".intercalate cmd
    cmdStub sys opts (.traced cmd) false (programEnv sys opts)

-- The session with the suffixes of the tracers
def withSuffix (session : String) (kernel ust : Bool) : String :=
  session ++ (if kernel then "-k" else "") ++ (if ust then "-u" else "")

def doTrace (cmd : Option (List String)) (session : String) (evlist : List String)
    (kernel ust : Bool) : Script (World ω) Unit := do
  if !(kernel || ust) then
    return
  else
    let session := withSuffix session kernel ust
    let out := join opts.output session
    let current := session ++ "-" ++ (← uuid4 sys)
    info <| "start tracing: " ++ current
    clearOutput sys opts out
    createSession sys opts current out
    let addContext ← if kernel then enableKernel sys opts evlist else pure false
    if ust then
      enableUst sys opts kernel addContext
    -- Step 3: start tracing
    cmdStub sys opts .start true none
    if opts.daemon then
      info "daemon mode"
    else
      runProgram sys opts cmd
      -- Step 5: tear down
      cmdStub sys opts .stop false none
      cmdStub sys opts (.destroy current) false none
      info <| "done tracing: " ++ current

-- If no options for kernel or user space are provided, both are traced.
def Options.tracers : Options :=
  if opts.kernel ∨ opts.ust then opts else { opts with kernel := true, ust := true }

def getTargets (args : List String) : Script (World ω) (List Target) := do
  match opts.batch with
  | none =>
    let target : Target := match args with
      | []       => { name := "default", cmd := none }
      | exe :: _ => { name := basename exe, cmd := some args }
    return [{ target with name := opts.name.getD target.name }]
  | some batch =>
    if opts.daemon then
      throw "The batch mode is incompatible with daemon mode"
    else
      let w ← get
      match sys.listdir batch w.external with
      | .error e => throw e
      | .ok exes =>
        let exes := exes.filter fun exe => sys.isfile (join batch exe) w.external
        return exes.map fun exe => { name := exe, cmd := some [join batch exe] }

-- The statements of the script between the loading of the event list and the loop over the targets.
def setup (args : List String) : Script (World ω) (List Target) := do
  if !sys.pathExists opts.output (← get).external then
    act <| sys.makedirs opts.output
  getTargets sys opts args

-- The loop over the targets. Each of the branches of the source passes on the two options.
def traceTargets (evlist : List String) (targets : List Target) : Script (World ω) Unit :=
  targets.forM fun t => doTrace sys opts t.cmd t.name evlist opts.kernel opts.ust

-- The script after it has loaded the event list. The result is its exit code.
def main (args evlist : List String) : Script (World ω) ℕ := do
  let targets ← setup sys opts args
  if targets.isEmpty then
    return 1
  else
    let opts := opts.tracers
    tryCatch (do traceTargets sys opts evlist targets; debug "done") fun e => do
      log .error e
      cmdStub sys opts .destroyAll false none
    return 0

end Script
end WorkloadKit.LttngSimple
