import WorkloadKit.Calibrate.Theorems.Hog
import WorkloadKit.Cpm.State

namespace WorkloadKit.Cpm

open Calibrate CInt ForkJoin

variable {unit : ℤ}

namespace Cpm1

variable {dur : Hog → ℕ}

-- The run in which no call of `fork` fails.
def run (dur : Hog → ℕ) : Moment Process Hog :=
  (master fun _ => true).exec dur .master

theorem Lasts.eq (h : Lasts unit dur) (hu : 0 < unit) : dur .master = 4 * unit ∧ dur .masterJoined = unit ∧
    dur .child1 = unit ∧ dur .child1Joined = 2 * unit ∧ dur .child2 = 2 * unit := by
  have ht (c : Hog) : ∃ n : ℤ, c.niters unit = some n ∧ max 1 n.toNat = dur c := by
    have ⟨n, hn, hd⟩ := h c
    exact ⟨n, hn, doHog_iff.mp hd⟩
  have ⟨m₁, h₁, d₁⟩ := ht .master
  have ⟨m₂, h₂, d₂⟩ := ht .masterJoined
  have ⟨m₃, h₃, d₃⟩ := ht .child1
  have ⟨m₄, h₄, d₄⟩ := ht .child1Joined
  have ⟨m₅, h₅, d₅⟩ := ht .child2
  have h₁ := of_checkLong h₁
  have h₂ := Option.some.inj h₂
  have h₃ := Option.some.inj h₃
  have h₄ := of_checkLong h₄
  have h₅ := of_checkLong h₅
  omega

-- The paths that avoid the children, that avoid `child2`, and that go through all of the processes.
def masterOnly : Path Process Hog :=
  [(.master, [.master, .masterJoined])]

def viaChild1 : Path Process Hog :=
  [(.master, [.masterJoined]), (.child1, [.child1, .child1Joined]), (.master, [])]

def viaChild2 : Path Process Hog :=
  [(.master, [.masterJoined]), (.child1, [.child1Joined]), (.child2, [.child2]), (.child1, [.child1]),
    (.master, [])]

theorem allPaths_eq :
    (master fun _ => true).allPaths .master = [masterOnly, viaChild1, viaChild2] :=
  rfl

theorem longest_run (dur : Hog → ℕ) : Longest dur [masterOnly, viaChild1, viaChild2] (run dur) :=
  allPaths_eq ▸ longest dur Process.master _

theorem length_masterOnly : masterOnly.length dur = dur .master + dur .masterJoined := by
  simp [masterOnly, Path.length, Path.works]

theorem length_viaChild1 : viaChild1.length dur = dur .child1 + (dur .child1Joined + dur .masterJoined) := by
  simp [viaChild1, Path.length, Path.works]

theorem length_viaChild2 : viaChild2.length dur =
    dur .child1 + (dur .child2 + (dur .child1Joined + dur .masterJoined)) := by
  simp [viaChild2, Path.length, Path.works]

-- The first child that the master waits for exits after it has waited for the second one.
theorem time_eq : (run dur).time =
    max (dur .master) (dur .child1 + dur .child2 + dur .child1Joined) + dur .masterJoined := by
  have hl := longest_run dur
  have h₁ := hl.le _ <| .head _
  have h₂ := hl.le _ <| .tail _ <| .tail _ <| .head _
  rw [length_masterOnly] at h₁
  rw [length_viaChild2] at h₂
  have he := hl.eq
  have hm := hl.mem
  simp only [List.mem_cons, List.not_mem_nil, or_false] at hm
  rcases hm with hm | hm | hm
  all_goals rw [hm] at he
  case inl     => rw [length_masterOnly] at he; omega
  case inr.inl => rw [length_viaChild1] at he; omega
  case inr.inr => rw [length_viaChild2] at he; omega

-- The path goes from the master to `child1`, to `child2` and back, and no other one is as long: the run becomes
-- shorter if `child2` does less, but not if the master does less before it waits.
theorem critical_path (h : Lasts unit dur) (hu : 0 < unit) :
    (run dur).path.names = [.master, .child1, .child2, .child1, .master] ∧
    (run dur).time = 6 * unit ∧
    (∀ p ∈ (master fun _ => true).allPaths .master, p.length dur = (run dur).time → p = (run dur).path) ∧
    (∀ d < dur .child2, (run <| Function.update dur .child2 d).time < (run dur).time) ∧
    (∀ d ≤ dur .master, (run <| Function.update dur .master d).time = (run dur).time) := by
  have ⟨h₁, h₂, h₃, h₄, h₅⟩ := h.eq hu
  have ht : (run dur).time = _ := time_eq
  have hl := longest_run dur
  have hs (p : Path Process Hog) (hp : p ∈ [masterOnly, viaChild1, viaChild2]) (hn : p ≠ viaChild2) :
      p.length dur < viaChild2.length dur := by
    simp only [List.mem_cons, List.not_mem_nil, or_false] at hp
    rw [length_viaChild2]
    rcases hp with rfl | rfl | rfl
    case inl     => rw [length_masterOnly]; omega
    case inr.inl => rw [length_viaChild1]; omega
    case inr.inr => exact absurd rfl hn
  have ⟨hp, _, hu⟩ := hl.unique (.tail _ <| .tail _ <| .head _) hs
  refine ⟨by rw [hp]; rfl, by omega, fun p hm he => hp ▸ hu p hm he, fun d hd => ?_, fun d hd => ?_⟩
  case refine_1 =>
    rw [ht, time_eq]
    simp only [Function.update_self, ne_eq, reduceCtorEq, not_false_eq_true, Function.update_of_ne]
    omega
  case refine_2 =>
    refine time_eq_of_critical (fun c => ?_) fun c hc => ?_
    case refine_1 => exact update_le_self_iff.mpr hd c
    case refine_2 =>
      have hc : c ∈ viaChild2.works := hp ▸ hc
      refine Function.update_of_ne ?_ ..
      rintro rfl
      exact absurd hc (by decide)

-- A machine that makes one iteration in the time that is measured.
def oneUnit : Hog → ℕ
  | .master                 => 4
  | .masterJoined | .child1 => 1
  | .child1Joined | .child2 => 2

theorem critical_path_one : Lasts 1 oneUnit ∧ (run oneUnit).time = 6 := by
  have hd : Lasts 1 oneUnit := by
    intro c
    cases c
    case master       => exact ⟨4, rfl, doHog_iff.mpr rfl⟩
    case masterJoined => exact ⟨1, rfl, doHog_iff.mpr rfl⟩
    case child1       => exact ⟨1, rfl, doHog_iff.mpr rfl⟩
    case child1Joined => exact ⟨2, rfl, doHog_iff.mpr rfl⟩
    case child2       => exact ⟨2, rfl, doHog_iff.mpr rfl⟩
  obtain ⟨_, ht, _⟩ := critical_path hd (by decide)
  exact ⟨hd, Int.ofNat_inj.mp ht⟩

end Cpm1

namespace Cpm2

variable {dur : Hog → ℕ}

def run (dur : Hog → ℕ) : Moment Process Hog :=
  (master true).exec dur .master

theorem Lasts.eq (h : Lasts unit dur) (hu : 0 < unit) : dur .master = 2 * unit ∧ dur .child1 = unit := by
  have ⟨m₁, h₁, d₁⟩ := h .master
  have ⟨m₂, h₂, d₂⟩ := h .child1
  have h₁ := of_checkLong h₁
  have h₂ := Option.some.inj h₂
  have d₁ := doHog_iff.mp d₁
  have d₂ := doHog_iff.mp d₂
  omega

def masterOnly : Path Process Hog :=
  [(.master, [.master])]

def viaChild1 : Path Process Hog :=
  [(.master, []), (.child1, [.child1]), (.master, [])]

theorem allPaths_eq : (master true).allPaths .master = [masterOnly, viaChild1] :=
  rfl

theorem length_masterOnly : masterOnly.length dur = dur .master := by
  simp [masterOnly, Path.length, Path.works]

theorem length_viaChild1 : viaChild1.length dur = dur .child1 := by
  simp [viaChild1, Path.length, Path.works]

-- The run stays in the master if this takes longer than the child, and goes through the child if it is the other
-- way round.
theorem run_master (hl : dur .child1 < dur .master) :
    (run dur).path = masterOnly ∧ (run dur).time = dur .master ∧
    ∀ p ∈ (master true).allPaths .master, p.length dur = (run dur).time → p = masterOnly := by
  have hs (q : Path Process Hog) (hq : q ∈ (master true).allPaths .master) (hn : q ≠ masterOnly) :
      q.length dur < masterOnly.length dur := by
    rw [allPaths_eq, List.mem_pair] at hq
    rwa [hq.resolve_left hn, length_masterOnly, length_viaChild1]
  have hu := (longest dur Process.master _).unique (.head _) hs
  rwa [length_masterOnly] at hu

theorem run_child1 (hl : dur .master < dur .child1) :
    (run dur).path = viaChild1 ∧ (run dur).time = dur .child1 ∧
    ∀ p ∈ (master true).allPaths .master, p.length dur = (run dur).time → p = viaChild1 := by
  have hs (q : Path Process Hog) (hq : q ∈ (master true).allPaths .master) (hn : q ≠ viaChild1) :
      q.length dur < viaChild1.length dur := by
    rw [allPaths_eq, List.mem_pair] at hq
    rwa [hq.resolve_right hn, length_masterOnly, length_viaChild1]
  have hu := (longest dur Process.master _).unique (.tail _ <| .head _) hs
  rwa [length_viaChild1] at hu

-- The only critical path is in the master, which does not wait, as the child has been a zombie for as long as it
-- has worked. This stays so for any child that takes less time than the master, and the only critical path goes
-- through a child that takes more. The run becomes shorter if the master does less, but not if the child does.
theorem critical_path_master (h : Lasts unit dur) (hu : 0 < unit) :
    (run dur).path.names = [.master] ∧ (run dur).time = 2 * unit ∧ dur .child1 + unit = (run dur).time ∧
    (∀ p ∈ (master true).allPaths .master, p.length dur = (run dur).time → p = (run dur).path) ∧
    (∀ d < (run dur).time, (run <| Function.update dur .child1 d).path = (run dur).path ∧
      (run <| Function.update dur .child1 d).time = (run dur).time) ∧
    (∀ d > (run dur).time, (run <| Function.update dur .child1 d).path.names = [.master, .child1, .master] ∧
      (run <| Function.update dur .child1 d).time = d) ∧
    (∀ d < dur .master, (run <| Function.update dur .master d).time < (run dur).time) := by
  have ⟨h₁, h₂⟩ := h.eq hu
  have ⟨hp, ht, hq⟩ := @run_master dur (by omega)
  refine ⟨by rw [hp]; rfl, ht ▸ h₁, by omega, fun p hm he => hp ▸ hq p hm he, fun d hd => ?_, fun d hd => ?_,
    fun d hd => ?_⟩
  case refine_1 =>
    have ⟨hp', ht', _⟩ := @run_master (Function.update dur .child1 d) <| by simpa [ht] using hd
    rw [hp, hp', ht, ht']
    exact ⟨rfl, Function.update_of_ne (by decide) ..⟩
  case refine_2 =>
    have ⟨hp', ht', _⟩ := @run_child1 (Function.update dur .child1 d) <| by simpa [ht] using hd
    rw [hp', ht']
    exact ⟨rfl, Function.update_self ..⟩
  case refine_3 =>
    -- The longest path is the one of the master or the one of the child, and both of them are shorter now.
    have hl := longest (Function.update dur .master d) Process.master (master true)
    have he := hl.eq
    have hm := hl.mem
    rw [allPaths_eq, List.mem_pair] at hm
    rw [ht, run, ← he]
    rcases hm with hm | hm
    · rw [hm, length_masterOnly, Function.update_self]
      exact hd
    · rw [hm, length_viaChild1, Function.update_of_ne (by decide)]
      omega

def oneUnit : Hog → ℕ
  | .master => 2
  | .child1 => 1

theorem critical_path_master_one : Lasts 1 oneUnit ∧ (run oneUnit).time = 2 := by
  have hd : Lasts 1 oneUnit := by
    intro c
    cases c
    case master => exact ⟨2, rfl, doHog_iff.mpr rfl⟩
    case child1 => exact ⟨1, rfl, doHog_iff.mpr rfl⟩
  obtain ⟨_, ht, _⟩ := critical_path_master hd (by decide)
  exact ⟨hd, Int.ofNat_inj.mp ht⟩

end Cpm2
end WorkloadKit.Cpm
