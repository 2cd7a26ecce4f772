import Mathlib.Algebra.BigOperators.Group.List.Basic
import Mathlib.Algebra.Order.BigOperators.Group.List
import Mathlib.Algebra.Order.Group.Nat
import Mathlib.Algebra.Ring.Nat
import Mathlib.Tactic.Common

-- Processes that do some work, fork other processes and wait for them, on a machine with enough processors.
namespace WorkloadKit.ForkJoin

-- The processes are of type `κ`, and the pieces of work of type `ω`. In `wait` a process waits until the last
-- process that it has forked exits.
inductive Task (κ ω : Type*)
  | exit
  | work (w : ω) (next : Task κ ω)
  | fork (name : κ) (child next : Task κ ω)
  | wait (next : Task κ ω)

-- The processes that a path goes through, each with what it does there. The last one comes first.
abbrev Path (κ ω : Type*) :=
  List (κ × List ω)

-- A point in time in a run, and the path on which there is no waiting until then.
structure Moment (κ ω : Type*) where
  time : ℕ
  path : Path κ ω
  deriving DecidableEq

namespace Path

variable {κ ω : Type*}

def enter (name : κ) (p : Path κ ω) : Path κ ω :=
  (name, []) :: p

def extend (w : ω) : Path κ ω → Path κ ω
  | []              => []
  | (name, ws) :: p => (name, ws ++ [w]) :: p

-- The processes in the order in which they are visited.
def names (p : Path κ ω) : List κ :=
  p.reverse.map Prod.fst

def works (p : Path κ ω) : List ω :=
  p.reverse.flatMap Prod.snd

-- How long the work on a path takes.
def length (dur : ω → ℕ) (p : Path κ ω) : ℕ :=
  (p.works.map dur).sum

@[simp]
theorem length_enter {dur : ω → ℕ} {name : κ} {p : Path κ ω} : (p.enter name).length dur = p.length dur := by
  simp [length, works, enter]

@[simp]
theorem enter_ne_nil {name : κ} {p : Path κ ω} : p.enter name ≠ [] :=
  List.cons_ne_nil _ _

theorem extend_ne_nil {w : ω} {p : Path κ ω} (h : p ≠ []) : p.extend w ≠ [] := by
  cases p
  case nil  => exact absurd rfl h
  case cons => exact List.cons_ne_nil _ _

theorem length_extend {dur : ω → ℕ} {w : ω} {p : Path κ ω} (h : p ≠ []) :
    (p.extend w).length dur = p.length dur + dur w := by
  cases p
  case nil  => exact absurd rfl h
  case cons => simp [length, works, extend, Nat.add_assoc]

theorem length_mono {dur dur' : ω → ℕ} {p : Path κ ω} (h : ∀ w, dur' w ≤ dur w) :
    p.length dur' ≤ p.length dur :=
  List.sum_le_sum fun w _ => h w

theorem length_congr {dur dur' : ω → ℕ} {p : Path κ ω} (h : ∀ w ∈ p.works, dur' w = dur w) :
    p.length dur' = p.length dur := by
  rw [length, length, List.map_congr_left h]

end Path

namespace Moment

variable {κ ω : Type*}

-- A process begins, or goes on after it has waited.
def enter (name : κ) (m : Moment κ ω) : Moment κ ω :=
  { m with path := m.path.enter name }

def work (dur : ω → ℕ) (w : ω) (m : Moment κ ω) : Moment κ ω where
  time := m.time + dur w
  path := m.path.extend w

def start (name : κ) : Moment κ ω where
  time := 0
  path := [(name, [])]

end Moment

namespace Task

variable {κ ω : Type*}

-- The moment at which a process exits, given the current one and the one at which its last child exits.
def run (dur : ω → ℕ) (self : κ) : Task κ ω → (now child : Moment κ ω) → Moment κ ω
  | exit,                 m, _ => m
  | work w next,          m, c => next.run dur self (m.work dur w) c
  | fork name child next, m, _ => next.run dur self m <| child.run dur name (m.enter name) (m.enter name)
  | wait next,            m, c => next.run dur self (if m.time < c.time then c.enter self else m) c

-- A run of a process without parents or children.
def exec (dur : ω → ℕ) (name : κ) (t : Task κ ω) : Moment κ ω :=
  t.run dur name (.start name) (.start name)

-- The paths to the exit of a process, given those to the current moment and to the exit of its last child. A
-- path can go through the process or through the child where the process waits.
def paths (self : κ) : Task κ ω → (now child : List (Path κ ω)) → List (Path κ ω)
  | exit,                 ps, _  => ps
  | work w next,          ps, cs => next.paths self (ps.map <| .extend w) cs
  | fork name child next, ps, _  =>
    next.paths self ps <| child.paths name (ps.map <| .enter name) (ps.map <| .enter name)
  | wait next,            ps, cs => next.paths self (ps ++ cs.map (.enter self)) cs

def allPaths (name : κ) (t : Task κ ω) : List (Path κ ω) :=
  t.paths name [[(name, [])]] [[(name, [])]]

end Task

variable {κ ω : Type*} {dur dur' : ω → ℕ} {ps cs : List (Path κ ω)} {m c : Moment κ ω} {name : κ} {w : ω}
variable {t : Task κ ω} {p : Path κ ω}

-- Among some paths there is the one of a moment, and it is a longest one.
structure Longest (dur : ω → ℕ) (ps : List (Path κ ω)) (m : Moment κ ω) : Prop where
  mem : m.path ∈ ps
  eq  : m.path.length dur = m.time
  le  : ∀ p ∈ ps, p.length dur ≤ m.time
  ne  : ∀ p ∈ ps, p ≠ []

namespace Longest

theorem start : Longest dur [[(name, [])]] (.start name) where
  mem := List.mem_singleton_self _
  eq  := rfl
  le  := fun _ hp => (List.mem_singleton.mp hp ▸ rfl : _ = _).le
  ne  := fun _ hp => List.mem_singleton.mp hp ▸ List.cons_ne_nil _ _

theorem enter (h : Longest dur ps m) : Longest dur (ps.map <| .enter name) (m.enter name) where
  mem := List.mem_map_of_mem h.mem
  eq  := Path.length_enter.trans h.eq
  le  := List.forall_mem_map.mpr fun p hp => Path.length_enter.trans_le <| h.le p hp
  ne  := List.forall_mem_map.mpr fun _ _ => Path.enter_ne_nil

theorem work (h : Longest dur ps m) : Longest dur (ps.map <| .extend w) (m.work dur w) where
  mem := List.mem_map_of_mem h.mem
  eq  := by rw [Moment.work, Path.length_extend (h.ne _ h.mem), h.eq]
  le  := List.forall_mem_map.mpr fun p hp => by
    rw [Path.length_extend (h.ne p hp)]
    exact Nat.add_le_add_right (h.le p hp) _
  ne  := List.forall_mem_map.mpr fun p hp => Path.extend_ne_nil <| h.ne p hp

-- The later one of two moments.
theorem wait (h : Longest dur ps m) (hc : Longest dur cs c) :
    Longest dur (ps ++ cs) (if m.time < c.time then c else m) := by
  have ne : ∀ p ∈ ps ++ cs, p ≠ [] := List.forall_mem_append.mpr ⟨h.ne, hc.ne⟩
  split
  case isTrue hl =>
    refine ⟨List.mem_append_right _ hc.mem, hc.eq, List.forall_mem_append.mpr ⟨fun p hp => ?_, hc.le⟩, ne⟩
    exact (h.le p hp).trans hl.le
  case isFalse hl =>
    refine ⟨List.mem_append_left _ h.mem, h.eq, List.forall_mem_append.mpr ⟨h.le, fun p hp => ?_⟩, ne⟩
    exact (hc.le p hp).trans <| not_lt.mp hl

theorem run (h : Longest dur ps m) (hc : Longest dur cs c) :
    Longest dur (t.paths name ps cs) (t.run dur name m c) := by
  induction t generalizing name ps cs m c
  case exit                => exact h
  case work hi             => exact hi h.work hc
  case fork child _ hc' hi => exact hi h <| hc' h.enter h.enter
  case wait hi             => exact hi (h.wait hc.enter) hc

-- A path that is longer than each of the others is the one of the moment, and the only one as long as it.
theorem unique (h : Longest dur ps m) (hp : p ∈ ps) (hl : ∀ q ∈ ps, q ≠ p → q.length dur < p.length dur) :
    m.path = p ∧ m.time = p.length dur ∧ ∀ q ∈ ps, q.length dur = m.time → q = p := by
  have hu (q : Path κ ω) (hq : q ∈ ps) (he : q.length dur = m.time) : q = p := by
    by_contra hn
    have := h.le p hp
    have := hl q hq hn
    omega
  have hm : m.path = p := hu _ h.mem h.eq
  exact ⟨hm, hm ▸ h.eq.symm, hu⟩

end Longest

-- The path on which there is no waiting is a longest one.
theorem longest (dur : ω → ℕ) (name : κ) (t : Task κ ω) : Longest dur (t.allPaths name) (t.exec dur name) :=
  .run .start .start

theorem time_mono (h : ∀ w, dur' w ≤ dur w) : (t.exec dur' name).time ≤ (t.exec dur name).time := by
  have hl := longest dur' name t
  rw [← hl.eq]
  exact (Path.length_mono h).trans <| (longest dur name t).le _ hl.mem

-- A run is not shorter if only some work is done faster that is not on its critical path.
theorem time_eq_of_critical (h : ∀ w, dur' w ≤ dur w)
    (hc : ∀ w ∈ (t.exec dur name).path.works, dur' w = dur w) :
    (t.exec dur' name).time = (t.exec dur name).time := by
  have hl := longest dur name t
  refine (time_mono h).antisymm ?_
  rw [← hl.eq, ← Path.length_congr hc]
  exact (longest dur' name t).le _ hl.mem

end WorkloadKit.ForkJoin
