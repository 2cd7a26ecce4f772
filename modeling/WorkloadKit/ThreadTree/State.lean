import Mathlib.Data.Finset.Insert
import Mathlib.Logic.Function.Basic
import WorkloadKit.Library.System

namespace WorkloadKit.ThreadTree

-- The arguments of `make_task`.
structure Params where
  nbStages  : ℕ
  nbThreads : ℕ

-- The field `nb_thread` of a stage.
def Params.nbThread (p : Params) (stage : ℕ) : ℤ :=
  p.nbThreads - stage

-- The identifiers of threads, in the order of their creation.
abbrev Tid := ℕ

-- The fields of a stage that change. An element of `ready` is `none` as long as it is the zero that it
-- has been allocated with. The fields `posted` and `spawns` are ghosts. They record the indices of the
-- threads that have posted `sem_ready`, and how often `spawn_stage` has been called with the stage.
structure Stage where
  exitCount : ℕ
  mutex     : ℕ
  semReady  : ℕ
  ready     : ℕ → Option Tid
  posted    : Finset ℕ
  spawns    : ℕ

-- The statement that `thread_worker` executes next. The increment of `exit_count` is not a single step:
-- `load` reads the old value into `index`, and `incr` writes the new one. An iteration of the loop in
-- `spawn_stage` is one step.
inductive Thread.Pc
  | doSomething | lock | load | incr | unlock | store | post | test | spawn (i : ℕ) | returned
  deriving DecidableEq

-- The field `index` means nothing before it has been loaded.
structure Thread where
  stage : ℕ
  pc    : Thread.Pc
  index : ℕ

-- The statement that `main` executes next: the loop of `spawn_stage`, or the ones of `wait_task`. In
-- `join` it is about to evaluate the argument of `pthread_join`, in `joining` it waits for that thread.
-- There is no telling what it does in `undefined`, after a call with an identifier of no thread.
inductive Main
  | spawn (i : ℕ)
  | stage (k : ℕ) | wait (k i : ℕ) | print (k i : ℕ) | join (k i : ℕ) | joining (k i : ℕ) (tid : Tid)
  | undefined | done
  deriving DecidableEq

-- The threads are the ones below `created`. The field `joined` is a ghost, which records the arguments
-- of the calls of `pthread_join`.
structure State where
  main    : Main
  stages  : ℕ → Stage
  threads : Tid → Thread
  created : ℕ
  joined  : List Tid

-- The state after `make_task` in which `main` has just called `spawn_stage` with the first stage.
def init : State where
  main    := .spawn 0
  stages  := fun k =>
    { exitCount := 0, mutex := 1, semReady := 0, ready := fun _ => none, posted := ∅
      spawns := if k = 0 then 1 else 0 }
  threads := fun _ => { stage := 0, pc := .doSomething, index := 0 }
  created := 0
  joined  := []

namespace State

def setThread (s : State) (tid : Tid) (t : Thread) : State :=
  { s with threads := Function.update s.threads tid t }

def setStage (s : State) (k : ℕ) (stage : Stage) : State :=
  { s with stages := Function.update s.stages k stage }

section

variable (s : State) (t : Thread) (stage : Stage)

@[simp] theorem setThread_self : (s.setThread tid t).threads tid = t := Function.update_self ..
@[simp] theorem setThread_main : (s.setThread tid t).main = s.main := rfl
@[simp] theorem setThread_stages : (s.setThread tid t).stages = s.stages := rfl
@[simp] theorem setThread_created : (s.setThread tid t).created = s.created := rfl
@[simp] theorem setThread_joined : (s.setThread tid t).joined = s.joined := rfl

@[simp]
theorem setThread_of_ne (h : u ≠ tid) : (s.setThread tid t).threads u = s.threads u :=
  Function.update_of_ne h ..

@[simp] theorem setStage_self : (s.setStage k stage).stages k = stage := Function.update_self ..
@[simp] theorem setStage_main : (s.setStage k stage).main = s.main := rfl
@[simp] theorem setStage_threads : (s.setStage k stage).threads = s.threads := rfl
@[simp] theorem setStage_created : (s.setStage k stage).created = s.created := rfl
@[simp] theorem setStage_joined : (s.setStage k stage).joined = s.joined := rfl

@[simp]
theorem setStage_of_ne (h : j ≠ k) : (s.setStage k stage).stages j = s.stages j :=
  Function.update_of_ne h ..

end

def pthreadCreate (s : State) (stage : ℕ) : State :=
  { s.setThread s.created { stage, pc := .doSomething, index := 0 } with created := s.created + 1 }

@[simp]
theorem pthreadCreate_main (s : State) : (s.pthreadCreate stage).main = s.main :=
  rfl

end State

-- Whether the iteration `i` of the loop of `spawn_stage` creates a thread.
def Params.Spawns (p : Params) (stage i : ℕ) : Prop :=
  stage < p.nbStages ∧ i < p.nbThread stage

instance : Decidable (Params.Spawns p stage i) :=
  inferInstanceAs <| Decidable (_ ∧ _)

def stepMain (p : Params) (s : State) : Option State :=
  match s.main with
  | .spawn i         =>
    if p.Spawns 0 i then
      some { s.pthreadCreate 0 with main := .spawn (i + 1) }
    else
      some { s with main := .stage 0 }
  | .stage k         => some { s with main := if k < p.nbStages then .wait k 0 else .done }
  | .wait k i        =>
    let stage := s.stages k
    if i < p.nbThread k then
      if 0 < stage.semReady then
        some { s.setStage k { stage with semReady := stage.semReady - 1 } with main := .print k i }
      else
        none
    else
      some { s with main := .stage (k + 1) }
  | .print k i       => some { s with main := .join k i }
  | .join k i        =>
    match (s.stages k).ready i with
    | some tid => some { s with main := .joining k i tid, joined := s.joined ++ [tid] }
    | none     => some { s with main := .undefined }
  | .joining k i tid =>
    if (s.threads tid).pc = .returned then some { s with main := .wait k (i + 1) } else none
  | .undefined       => none
  | .done            => none

def threadWorker (p : Params) (s : State) (tid : Tid) : Option State :=
  let t := s.threads tid
  let stage := s.stages t.stage
  match t.pc with
  | .doSomething => some <| s.setThread tid { t with pc := .lock }
  | .lock        =>
    if 0 < stage.mutex then
      some <| (s.setThread tid { t with pc := .load }).setStage t.stage
        { stage with mutex := stage.mutex - 1 }
    else
      none
  | .load        => some <| s.setThread tid { t with pc := .incr, index := stage.exitCount }
  | .incr        =>
    some <| (s.setThread tid { t with pc := .unlock }).setStage t.stage
      { stage with exitCount := t.index + 1 }
  | .unlock      =>
    some <| (s.setThread tid { t with pc := .store }).setStage t.stage
      { stage with mutex := stage.mutex + 1 }
  | .store       =>
    some <| (s.setThread tid { t with pc := .post }).setStage t.stage
      { stage with ready := Function.update stage.ready t.index (some tid) }
  | .post        =>
    some <| (s.setThread tid { t with pc := .test }).setStage t.stage
      { stage with semReady := stage.semReady + 1, posted := insert t.index stage.posted }
  | .test        =>
    let next := s.stages (t.stage + 1)
    if t.index = p.nbThread t.stage - 1 then
      some <| (s.setThread tid { t with pc := .spawn 0 }).setStage (t.stage + 1)
        { next with spawns := next.spawns + 1 }
    else
      some <| s.setThread tid { t with pc := .returned }
  | .spawn i     =>
    if p.Spawns (t.stage + 1) i then
      some <| (s.setThread tid { t with pc := .spawn (i + 1) }).pthreadCreate (t.stage + 1)
    else
      some <| s.setThread tid { t with pc := .returned }
  | .returned    => none

inductive Event
  | main | thread (tid : Tid)
  deriving DecidableEq

def step (p : Params) (s : State) : Event → Option State
  | .main       => stepMain p s
  | .thread tid => if tid < s.created then threadWorker p s tid else none

def tree (p : Params) : System State Event where
  init := init
  step := step p

end WorkloadKit.ThreadTree
