import Mathlib.Algebra.BigOperators.Fin
import Mathlib.Tactic.Ring
import WorkloadKit.Imbalance.Theorems.Iterations
import WorkloadKit.Library.Rest

namespace WorkloadKit.Imbalance

open scoped BigOperators

variable {exp : Experiment} {s s' : State exp.threads} {e : Event exp.threads} {es : List (Event exp.threads)}
  {self v : Fin exp.threads} {w : Worker} {n : ℕ}

-- The rest of a cycle before the call of `do_hog` and after it.
def cycleRest : ℕ :=
  2 ^ 31 + 6

namespace Worker

-- The calls of `do_hog` count down from a positive `int`, and there is one for each cycle.
structure Bounded (cycles : ℕ) (w : Worker) : Prop where
  counts  : ∀ niters, w.pc = .hog niters → 1 ≤ niters ∧ niters < 2 ^ 31
  started : w.started ≤ cycles
  done    : w.pc = .returned → w.i = cycles

-- How many statements are left at most, where a worker that has not been created counts in, too.
def rest (cycles : ℕ) (w : Worker) : ℕ :=
  match w.pc with
  | .unborn      => cycles * cycleRest + 2
  | .test        => (cycles - w.i) * cycleRest + 1
  | .hog niters  => (cycles - w.i - 1) * cycleRest + niters.toNat + 5
  | .barrierWait => (cycles - w.i - 1) * cycleRest + 5
  | .waiting _   => (cycles - w.i - 1) * cycleRest + 4
  | .rotate      => (cycles - w.i - 1) * cycleRest + 3
  | .increment   => (cycles - w.i - 1) * cycleRest + 2
  | .returned    => 0

end Worker

def Main.rest (n : ℕ) : Main → ℕ
  | create i => n + 2 + (n - i)
  | join i   => 1 + (n - i)
  | returned => 0

def State.rest (s : State exp.threads) : ℕ :=
  s.main.rest exp.threads + ∑ v, (s.workers v).rest exp.cycles

theorem load_lt_int {max : ℤ} {pos : ℕ} : load max pos < 2 ^ 31 := by
  have := Int.bmod_lt (x := (pos + 1) * max) (m := 2 ^ 32) (by decide)
  rw [load]
  omega

theorem doHog_lt {niters m : ℤ} (hn : niters < 2 ^ 31) (hm : doHog niters = .hog m) : 1 ≤ m ∧ m < 2 ^ 31 := by
  obtain rfl := Pc.hog.inj hm
  split <;> omega

-- What `main` and the workers have done.
structure Runs (s : State exp.threads) : Prop where
  bounded : ∀ v, (s.workers v).Bounded exp.cycles
  born    : ∀ v, (s.workers v).pc = .unborn → ∃ i ≤ (v : ℕ), s.main = .create i
  joined  : ∀ i, s.main = .join i → ∀ v : Fin exp.threads, (v : ℕ) < i → (s.workers v).pc = .returned
  ended   : s.main = .returned → ∀ v, (s.workers v).pc = .returned

namespace Runs

theorem init : Runs (init exp.threads : State exp.threads) where
  bounded _ := ⟨by simp [Imbalance.init], Nat.zero_le _, by simp [Imbalance.init]⟩
  born v _  := ⟨0, Nat.zero_le _, rfl⟩
  joined    := nofun
  ended     := nofun

-- A worker goes on.
theorem setWorker (h : Runs s) {b : Barrier} (hr : (s.workers self).pc ≠ .returned) (hw : w.Bounded exp.cycles)
    (hu : w.pc ≠ .unborn) : Runs { s.setWorker self w with barrier := b } where
  bounded := State.setWorker_forall (fun _ w => w.Bounded exp.cycles) hw fun v _ => h.bounded v
  born    := State.setWorker_forall (fun v w => w.pc = .unborn → ∃ i ≤ (v : ℕ), s.main = .create i)
    (fun hp => absurd hp hu) fun v _ => h.born v
  joined i hm := State.setWorker_forall (fun v w => (v : ℕ) < i → w.pc = .returned)
    (fun hv => absurd (h.joined i hm self hv) hr) fun v _ => h.joined i hm v
  ended hm := absurd (h.ended hm self) hr

theorem worker (h : Runs s) (he : worker exp s self = some s') :
    Runs s' ∧ s'.rest < s.rest := by
  obtain ⟨hc, hs, _⟩ := h.bounded self
  have go {w : Worker} {b : Barrier} (hr : (s.workers self).pc ≠ .returned) (hw : w.Bounded exp.cycles)
      (hu : w.pc ≠ .unborn) (hl : w.rest exp.cycles < (s.workers self).rest exp.cycles) :
      Runs { s.setWorker self w with barrier := b } ∧
        State.rest { s.setWorker self w with barrier := b } < s.rest :=
    ⟨h.setWorker hr hw hu, Nat.add_lt_add_left (sum_rest_update_lt hl) _⟩
  cases hp : (s.workers self).pc <;>
    simp only [Imbalance.worker, hp, Option.some.injEq, reduceCtorEq, Option.ite_none_left_eq_some] at he <;>
    simp only [Worker.started, hp] at hs
  case test =>
    split at he <;> cases he
    case isTrue hi =>
      have hl (m : ℤ) (hm : doHog (load exp.max (s.workers self).pos) = .hog m) := doHog_lt load_lt_int hm
      obtain ⟨m, hm⟩ : ∃ m, doHog (load exp.max (s.workers self).pos) = .hog m := ⟨_, rfl⟩
      refine go (by simp [hp]) ⟨hl, ?_, by simp [hm]⟩ (by simp [hm]) ?_
      · simp only [Worker.started, hm]
        exact hi
      · have := hl m hm
        obtain ⟨k, hk⟩ := Nat.exists_eq_add_of_lt hi
        simp only [Worker.rest, hp, hm, hk, cycleRest, Nat.add_sub_cancel_left, Nat.add_assoc, Nat.add_mul]
        omega
    case isFalse hi =>
      refine go (by simp [hp]) ⟨by simp, hs, fun _ => ?_⟩ (by simp) (by simp [Worker.rest, hp])
      show (s.workers self).i = exp.cycles
      omega
  case hog niters =>
    subst he
    have hn := hc niters hp
    split
    case isTrue hz =>
      refine go (by simp [hp]) ⟨by simp, hs, by simp⟩ (by simp) ?_
      simp only [Worker.rest, hp]
      omega
    case isFalse hz =>
      refine go (by simp [hp]) ⟨fun m hm => ?_, hs, by simp⟩ (by simp) ?_
      · obtain rfl := Pc.hog.inj hm
        omega
      · simp only [Worker.rest, hp]
        omega
  case barrierWait => exact he ▸ go (by simp [hp]) ⟨by simp, hs, by simp⟩ (by simp) (by simp [Worker.rest, hp])
  case waiting ticket =>
    obtain ⟨_, rfl⟩ := he
    exact go (by simp [hp]) ⟨by simp, hs, by simp⟩ (by simp) (by simp [Worker.rest, hp])
  case rotate => exact he ▸ go (by simp [hp]) ⟨by simp, hs, by simp⟩ (by simp) (by simp [Worker.rest, hp])
  case increment =>
    refine he ▸ go (by simp [hp]) ⟨by simp, hs, by simp⟩ (by simp) ?_
    simp [Worker.rest, hp, Nat.sub_sub]

theorem create (hi : Inv s) (h : Runs s) {i : ℕ} (hm : s.main = .create i) (hin : i < exp.threads) :
    let s' := { s.setWorker ⟨i, hin⟩ (start i) with main := .create (i + 1) }
    Runs s' ∧ s'.rest < s.rest := by
  refine ⟨⟨?bounded, ?born, nofun, nofun⟩, ?rest⟩
  case bounded =>
    refine State.setWorker_forall (fun _ w => w.Bounded exp.cycles) ⟨nofun, Nat.zero_le _, nofun⟩
      fun v _ => h.bounded v
  case born =>
    refine State.setWorker_forall (fun v w => w.pc = .unborn → ∃ j ≤ (v : ℕ), Main.create (i + 1) = .create j)
      nofun fun v hv hp => ⟨i + 1, ?_, rfl⟩
    have ⟨j, hj, hm'⟩ := h.born v hp
    obtain rfl := Main.create.inj <| hm.symm.trans hm'
    have : (v : ℕ) ≠ i := fun he => hv <| Fin.ext he
    omega
  case rest =>
    have hu := hi.main i hm ⟨i, hin⟩ le_rfl
    have hw : Worker.rest exp.cycles (start i) <
        (s.workers ⟨i, hin⟩).rest exp.cycles := by
      simp [Worker.rest, start, hu]
    have := sum_rest_update_lt hw
    simp only [State.rest, State.setWorker, hm, Main.rest]
    omega

theorem main (hi : Inv s) (h : Runs s) (he : main s = some s') : Runs s' ∧ s'.rest < s.rest := by
  simp only [Imbalance.main] at he
  cases hm : s.main <;> simp only [hm, reduceCtorEq] at he
  case create i =>
    split at he <;> cases he
    case isTrue hin  => exact h.create hi hm hin
    case isFalse hin =>
      refine ⟨{ h with born := fun v hp => ?_, joined := ?_, ended := by simp }, ?_⟩
      · obtain ⟨j, hj, hm'⟩ := h.born v hp
        obtain rfl := Main.create.inj <| hm.symm.trans hm'
        omega
      · rintro _ ⟨⟩ v hv
        exact absurd hv <| Nat.not_lt_zero _
      · simp only [State.rest, hm, Main.rest]
        omega
  case join i =>
    have hb v (hp : (s.workers v).pc = .unborn) : False := by
      obtain ⟨_, _, hm'⟩ := h.born v hp
      cases hm.symm.trans hm'
    split at he
    case isTrue hin =>
      obtain ⟨hr, he⟩ := Option.ite_none_right_eq_some.mp he
      cases he
      refine ⟨{ h with born := fun v hp => (hb v hp).elim, joined := ?_, ended := by simp }, ?_⟩
      · rintro _ ⟨⟩ v hv
        by_cases hvi : (v : ℕ) < i
        case pos => exact h.joined i hm v hvi
        case neg =>
          have hv : v = ⟨i, hin⟩ := Fin.ext <| by simp only; omega
          exact hv ▸ hr
      · simp only [State.rest, hm, Main.rest]
        omega
    case isFalse hin =>
      cases he
      refine ⟨{ h with
        born   := fun v hp => (hb v hp).elim
        joined := by simp
        ended  := fun _ v => h.joined i hm v (by omega) }, ?_⟩
      simp only [State.rest, hm, Main.rest]
      omega

theorem step (hi : Inv s) (h : Runs s) (he : step exp s e = some s') : Runs s' ∧ s'.rest < s.rest := by
  cases e
  case main   => exact h.main hi he
  case worker => exact h.worker he

end Runs

-- A worker can go on unless it waits for the others.
theorem worker_isSome (hu : (s.workers v).pc ≠ .unborn) (hr : (s.workers v).pc ≠ .returned)
    (hw : (s.workers v).pc ≠ .waiting s.barrier.generation) : (worker exp s v).isSome := by
  cases hp : (s.workers v).pc <;> simp only [worker, hp, Option.isSome_some]
  case test           => split <;> rfl
  case waiting ticket =>
    rw [if_neg fun hg => hw <| by rw [hp, hg]]
    rfl
  case unborn         => exact absurd hp hu
  case returned       => exact absurd hp hr

-- Who has not arrived at the barrier in the current generation does not wait there, and has not returned
-- while somebody else waits.
theorem exists_worker_isSome (hi : Inv s) (h : Runs s) (hb : ∀ v, (s.workers v).pc ≠ .unborn)
    (hr : (s.workers v).pc ≠ .returned) : ∃ u, (worker exp s u).isSome := by
  by_cases hw : (s.workers v).pc = .waiting s.barrier.generation
  case neg => exact ⟨v, worker_isSome (hb v) hr hw⟩
  case pos =>
    have hv : s.barrier.generation = (s.workers v).i := by simpa [Worker.InStep, hw] using hi.inStep v
    have hs := (h.bounded v).started
    simp only [Worker.started, hw] at hs
    obtain ⟨u, hu⟩ := hi.rounds.exists_eq_generation
    refine ⟨u, worker_isSome (hb u) (fun hp => ?_) fun hp => ?_⟩
    · have := (h.bounded u).done hp
      simp only [Worker.arrivals, hp] at hu
      omega
    · have hs := hi.inStep u
      simp only [Worker.InStep, hp] at hs
      simp only [Worker.arrivals, hp] at hu
      omega

theorem exists_enabled (hi : Inv s) (h : Runs s) (hm : s.main ≠ .returned) :
    ∃ e, (imbalance exp).Enabled s e := by
  simp only [System.Enabled, imbalance]
  cases hp : s.main
  case create i =>
    refine ⟨.main, ?_⟩
    simp only [step, main, hp]
    split <;> rfl
  case join i =>
    have hb v (hu : (s.workers v).pc = .unborn) : False := by
      obtain ⟨_, _, hm'⟩ := h.born v hu
      cases hp.symm.trans hm'
    by_cases hv : ∃ hin : i < exp.threads, (s.workers ⟨i, hin⟩).pc ≠ .returned
    case pos =>
      obtain ⟨_, hv⟩ := hv
      obtain ⟨u, hu⟩ := exists_worker_isSome hi h hb hv
      exact ⟨.worker u, hu⟩
    case neg =>
      refine ⟨.main, ?_⟩
      simp only [step, main, hp]
      split
      case isTrue hin => rw [if_pos <| not_not.mp fun hn => hv ⟨hin, hn⟩]; rfl
      case isFalse    => rfl
  case returned => exact absurd hp hm

-- The loads of a worker in whole turns of the rotation are the ones of all positions.
theorem sum_load_eq {k : ℕ} (hk : k < n) (f : ℕ → ℤ) (q : ℕ) :
    ((List.range (n * q)).map fun i => f ((k + i) % n)).sum = q * ∑ p : Fin n, f p := by
  have : NeZero n := ⟨(Nat.zero_lt_of_lt hk).ne'⟩
  have block : ((List.range n).map fun i => f ((k + i) % n)).sum = ∑ p : Fin n, f p := by
    calc ((List.range n).map fun i => f ((k + i) % n)).sum
      _ = ∑ i ∈ Finset.range n, f ((k + i) % n) := rfl
      _ = ∑ i : Fin n, f ((k + i) % n) := Finset.sum_range _
      _ = ∑ i : Fin n, f (rotation n k i) := by simp [rotation_val, Nat.add_comm]
      _ = ∑ p : Fin n, f p := Equiv.sum_comp (rotation n k) fun p => f p
  induction q
  case zero      => simp
  case succ q hi =>
    have hm i : f ((k + (n * q + i)) % n) = f ((k + i) % n) := by
      rw [show k + (n * q + i) = k + i + n * q by omega, Nat.add_mul_mod_self_left]
    rw [Nat.mul_succ, List.range_add, List.map_append, List.sum_append, hi, List.map_map]
    simp only [Function.comp_def, hm, block]
    push_cast
    ring

-- The iterations that a worker has executed.
def Worker.totalLoad (cycles : ℕ) (w : Worker) : ℤ :=
  ((List.range cycles).map fun i => (w.iterations i : ℤ)).sum

-- What holds in all states that can be reached.
theorem invariant (h : (imbalance exp).Reachable s) : Inv s ∧ Runs s :=
  h.invariant (I := fun s => Inv s ∧ Runs s) ⟨.init, .init⟩
    fun h _ he => ⟨h.left.step he, (h.right.step h.left he).left⟩

theorem length_le (he : (imbalance exp).exec (imbalance exp).init es = some s) :
    es.length ≤ exp.threads * (exp.cycles * (2 ^ 31 + 6) + 4) + 2 := by
  have step {s₁ e s₂} (h : Inv s₁ ∧ Runs s₁) (he : (imbalance exp).step s₁ e = some s₂) :
      (Inv s₂ ∧ Runs s₂) ∧ s₂.rest < s₁.rest := by
    obtain ⟨hr, hl⟩ := h.right.step h.left he
    exact ⟨⟨h.left.step he, hr⟩, hl⟩
  have hl := System.rest_add_length_le State.rest step ⟨.init, .init⟩ he
  have hi : State.rest (init exp.threads : State exp.threads) =
      exp.threads * (exp.cycles * (2 ^ 31 + 6) + 4) + 2 := by
    simp [State.rest, init, Main.rest, Worker.rest, cycleRest]
    ring
  rw [hi] at hl
  omega

-- Any run can go on until `main` returns.
theorem exists_returned (exp : Experiment) :
    ∃ s, (imbalance exp).Reachable s ∧ s.main = .returned := by
  have progress {s : State exp.threads} (h : Inv s ∧ Runs s) (hm : s.main ≠ .returned) :
      ∃ e s', (imbalance exp).step s e = some s' ∧ (Inv s' ∧ Runs s') ∧ s'.rest < s.rest := by
    obtain ⟨e, he⟩ := exists_enabled h.left h.right hm
    obtain ⟨s', he⟩ := Option.isSome_iff_exists.mp he
    obtain ⟨hr, hl⟩ := h.right.step h.left he
    exact ⟨e, s', he, ⟨h.left.step he, hr⟩, hl⟩
  have ⟨es, s, he, _, hm⟩ := System.exists_exec_of_rest State.rest progress ⟨.init, .init⟩
  exact ⟨s, .of_exec he, hm⟩

-- All cycles are over then.
theorem iterations_eq (h : (imbalance exp).Reachable s) (hm : s.main = .returned) (v : Fin exp.threads) :
    ∀ i < exp.cycles, ((s.workers v).iterations i : ℤ) = hogIterations exp.max ((v + i) % exp.threads) := by
  have ⟨_, hr⟩ := invariant h
  have hp := hr.ended hm v
  have hf : (s.workers v).finished = exp.cycles := by
    simp only [Worker.finished, hp, (hr.bounded v).done hp]
  exact hf ▸ (Ran.reachable h v).ran

-- Every run is finite, and can only end when `main` returns. By then each worker has called `do_hog` once in
-- each cycle, and if the workers have gone through all positions equally often, then all of them have had the
-- same load.
theorem hogs_of_run (he : (imbalance exp).exec (imbalance exp).init es = some s) :
    es.length ≤ exp.threads * (exp.cycles * (2 ^ 31 + 6) + 4) + 2 ∧
    ((∀ e, ¬(imbalance exp).Enabled s e) → s.main = .returned ∧ ∀ v, (s.workers v).pc = .returned ∧
      (s.workers v).hogs = ((List.range exp.cycles).map fun i => (v + i) % exp.threads) ∧
      (∀ i < exp.cycles, ((s.workers v).iterations i : ℤ) = hogIterations exp.max ((v + i) % exp.threads)) ∧
      (exp.threads ∣ exp.cycles →
        ∀ u, (s.workers u).totalLoad exp.cycles = (s.workers v).totalLoad exp.cycles)) := by
  have hs : (imbalance exp).Reachable s := .of_exec he
  have ⟨hi, h⟩ := invariant hs
  refine ⟨length_le he, fun hn => ?_⟩
  have hm : s.main = .returned := by
    by_contra hm
    obtain ⟨e, he⟩ := exists_enabled hi h hm
    exact hn e he
  have hr := h.ended hm
  have hh v : (s.workers v).hogs = (List.range exp.cycles).map fun i => (v + i) % exp.threads := by
    rw [(hi.workers v).hogs, Worker.started, hr v, (h.bounded v).done (hr v)]
  have total {q : ℕ} (hq : exp.cycles = exp.threads * q) v :
      (s.workers v).totalLoad exp.cycles = q * ∑ p : Fin exp.threads, hogIterations exp.max p := by
    have hl : ((List.range exp.cycles).map fun i => ((s.workers v).iterations i : ℤ)) =
        (List.range exp.cycles).map fun i => hogIterations exp.max ((v + i) % exp.threads) :=
      List.map_congr_left fun i hi => iterations_eq hs hm v i <| List.mem_range.mp hi
    rw [Worker.totalLoad, hl, hq]
    exact sum_load_eq v.isLt (hogIterations exp.max) q
  refine ⟨hm, fun v => ⟨hr v, hh v, iterations_eq hs hm v, fun hd u => ?_⟩⟩
  obtain ⟨_, hq⟩ := hd
  exact (total hq u).trans (total hq v).symm

-- Two workers, each of which is at both positions.
theorem hogs_of_run_two :
    ∃ s : State 2, (∃ es, (imbalance ⟨2, 2, 1, by decide⟩).exec (init 2) es = some s) ∧ s.main = .returned ∧
      (s.workers 0).hogs = [0, 1] ∧ (s.workers 1).hogs = [1, 0] ∧
      (s.workers 0).totalLoad 2 = (s.workers 1).totalLoad 2 := by
  let go (v : Fin 2) (k : ℕ) : List (Event 2) := List.replicate k (.worker v)
  let es := .main :: go 0 3 ++ .main :: go 1 4 ++ go 0 7 ++ go 1 6 ++ go 0 4 ++ go 1 4 ++ List.replicate 4 .main
  have hs : ((imbalance ⟨2, 2, 1, by decide⟩).exec (init 2) es).map
      (fun s => (s.main, (s.workers 0).pc, (s.workers 1).pc)) = some (.returned, .returned, .returned) := by
    decide
  obtain ⟨s, he, hs⟩ := Option.map_eq_some_iff.mp hs
  obtain ⟨hm, hp⟩ := Prod.mk.inj hs
  obtain ⟨hp₀, hp₁⟩ := Prod.mk.inj hp
  have hr : ∀ v : Fin 2, (s.workers v).pc = .returned := Fin.forall_fin_two.mpr ⟨hp₀, hp₁⟩
  have hn (e : Event 2) : ¬(imbalance ⟨2, 2, 1, by decide⟩).Enabled s e := by
    cases e
    case main     => simp [System.Enabled, imbalance, step, main, hm]
    case worker v => simp [System.Enabled, imbalance, step, worker, hr v]
  obtain ⟨hm, h⟩ := (hogs_of_run he).right hn
  exact ⟨s, ⟨es, he⟩, hm, (h 0).right.left, (h 1).right.left, (h 1).right.right.right (dvd_refl 2) 0⟩

end WorkloadKit.Imbalance
