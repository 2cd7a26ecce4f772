import Mathlib.Data.Fintype.Card
import WorkloadKit.Library.Rest
import WorkloadKit.Lockfight.State

namespace WorkloadKit.Lockfight

open scoped BigOperators

variable {φ : Type*} [DecidableEq φ] {s s' : State φ} {e : Event φ} {es : List (Event φ)} {f g : φ}
  {c : Pc} {l : Lock φ} {succeeds : Bool} {msg : String}

namespace Pc

def hasLock : Pc → Bool
  | sleep locked | unlockFile locked | sleepAgain locked => locked
  | _                                                    => false

-- The process is between its two calls of `fcntl`.
def InSection : Pc → Prop
  | sleep _ | unlockFile _ => True
  | _                      => False

def rest : Pc → ℕ
  | parseOpts    => 7
  | openFile     => 6
  | lockFile     => 5
  | setLock      => 4
  | sleep _      => 3
  | unlockFile _ => 2
  | sleepAgain _ => 1
  | exited _     => 0

end Pc

-- What a step does: a process goes on, where it takes the lock if that is free, or gives it back, or keeps
-- it. It does not get to its section without the lock unless it has printed an error.
structure Moves (s : State φ) (f : φ) (c : Pc) (s' : State φ) : Prop where
  pc     : s'.pc = Function.update s.pc f c
  rest   : c.rest < (s.pc f).rest
  lock   : s.lock = none ∧ c.hasLock = true ∧ s'.lock = some f ∨
    c.hasLock = false ∧ s'.lock = release s f ∨ c.hasLock = (s.pc f).hasLock ∧ s'.lock = s.lock
  mono   : ∀ g msg, msg ∈ s.stderr g → msg ∈ s'.stderr g
  failed : c.InSection → c.hasLock = false →
    (s.pc f).InSection ∧ (s.pc f).hasLock = false ∨ "fcntl error" ∈ s'.stderr f

theorem mem_perror {m : String} (h : m ∈ s.stderr g) : m ∈ (s.perror f msg).stderr g := by
  by_cases hg : g = f
  case pos => simp [State.perror, hg, hg ▸ h]
  case neg => simp [State.perror, hg, h]

theorem moves_of_setLock (hp : s.pc f = .setLock) (he : setLock s f succeeds = some s') :
    ∃ c, Moves s f c s' := by
  rw [setLock] at he
  split at he
  case isTrue =>
    obtain ⟨_, hl, rfl⟩ := Option.map_eq_some_iff.mp he
    obtain ⟨hn, rfl⟩ := Lock.acquire_eq_some.mp hl
    exact ⟨.sleep true, rfl, by simp [hp, Pc.rest], .inl ⟨hn, rfl, rfl⟩, fun _ _ => id, nofun⟩
  case isFalse =>
    cases he
    refine ⟨.sleep false, rfl, by simp [hp, Pc.rest], .inr <| .inr ⟨?_, rfl⟩, fun _ _ => mem_perror, ?_⟩
    · simp [hp, Pc.hasLock]
    · exact fun _ _ => .inr <| by simp [State.perror]

theorem moves_of_unlockFile {locked : Bool} (hp : s.pc f = .unlockFile locked) :
    ∃ c, Moves s f c (unlockFile s f locked succeeds) := by
  rw [unlockFile]
  split
  case isTrue  =>
    exact ⟨.sleepAgain false, rfl, by simp [hp, Pc.rest], .inr <| .inl ⟨rfl, rfl⟩, fun _ _ => id, nofun⟩
  case isFalse =>
    refine ⟨.sleepAgain locked, rfl, by simp [hp, Pc.rest], .inr <| .inr ⟨?_, rfl⟩, fun _ _ => mem_perror, nofun⟩
    simp [hp, Pc.hasLock]

theorem moves_of_main (he : main s f succeeds = some s') : ∃ c, Moves s f c s' := by
  have keep {c : Pc} (hr : c.rest < (s.pc f).rest) (hl : c.hasLock = (s.pc f).hasLock)
      (hf : c.InSection → (s.pc f).InSection) : Moves s f c (s.goto f c) :=
    ⟨rfl, hr, .inr <| .inr ⟨hl, rfl⟩, fun _ _ => id, fun hc hn => .inl ⟨hf hc, hl ▸ hn⟩⟩
  cases hp : s.pc f <;> simp only [main, hp, reduceCtorEq, Option.some.injEq] at he
  case parseOpts =>
    split at he <;> cases he
    case isTrue  => exact ⟨_, keep (by simp [hp, Pc.rest]) (by simp [hp, Pc.hasLock]) nofun⟩
    case isFalse => exact ⟨.exited 1, rfl, by simp [hp, Pc.rest], .inr <| .inl ⟨rfl, rfl⟩, fun _ _ => id, nofun⟩
  case openFile =>
    split at he <;> cases he
    case isTrue  => exact ⟨_, keep (by simp [hp, Pc.rest]) (by simp [hp, Pc.hasLock]) nofun⟩
    case isFalse =>
      exact ⟨.exited (-1), rfl, by simp [hp, Pc.rest], .inr <| .inl ⟨rfl, rfl⟩, fun _ _ => mem_perror, nofun⟩
  case lockFile =>
    subst he
    have ⟨h₁, h₂, h₃, h₄, h₅⟩ := keep (c := .setLock) (by simp [hp, Pc.rest]) (by simp [hp, Pc.hasLock]) nofun
    exact ⟨_, h₁, h₂, h₃, h₄, h₅⟩
  case setLock      => exact moves_of_setLock hp he
  case sleep locked =>
    exact he ▸ ⟨_, keep (by simp [hp, Pc.rest]) (by simp [hp, Pc.hasLock]) (by simp [hp, Pc.InSection])⟩
  case unlockFile   => exact he ▸ moves_of_unlockFile hp
  case sleepAgain   =>
    exact he ▸ ⟨.exited 0, rfl, by simp [hp, Pc.rest], .inr <| .inl ⟨rfl, rfl⟩, fun _ _ => id, nofun⟩

structure Inv (s : State φ) : Prop where
  lock   : s.lock.HeldAt Pc.hasLock s.pc
  failed : ∀ f, (s.pc f).InSection → (s.pc f).hasLock = false → "fcntl error" ∈ s.stderr f

namespace Inv

theorem init : Inv (lockfight φ).init where
  lock _   := iff_of_false nofun Bool.false_ne_true
  failed _ := nofun

-- A process gives its lock back, if it has one.
theorem release (h : Inv s) (hc : c.hasLock = false) :
    (release s f).HeldAt Pc.hasLock (Function.update s.pc f c) := by
  rw [Lockfight.release]
  split
  case isTrue hl  => exact h.lock.release ((h.lock f).mp hl) hc
  case isFalse hl => exact h.lock.keep <| hc.trans <| .symm <| Bool.eq_false_iff.mpr <| mt (h.lock f).mpr hl

theorem moves (h : Inv s) (hm : Moves s f c s') : Inv s' where
  lock := by
    rw [hm.pc]
    rcases hm.lock with ⟨hn, hc, hl⟩ | ⟨hc, hl⟩ | ⟨hc, hl⟩ <;> rw [hl]
    · exact Lock.HeldAt.acquire (hn ▸ h.lock) hc
    · exact h.release hc
    · exact h.lock.keep hc
  failed := by
    rw [hm.pc]
    refine (Function.forall_update_iff s.pc fun g c =>
      c.InSection → c.hasLock = false → "fcntl error" ∈ s'.stderr g).mpr ⟨fun hc hl => ?_, fun g _ hc hl => ?_⟩
    · exact (hm.failed hc hl).elim (fun hp => hm.mono _ _ <| h.failed f hp.left hp.right) id
    · exact hm.mono _ _ <| h.failed g hc hl

theorem step (h : Inv s) (he : (lockfight φ).step s e = some s') : Inv s' :=
  have ⟨_, hm⟩ := moves_of_main he
  h.moves hm

theorem reachable (h : (lockfight φ).Reachable s) : Inv s :=
  h.invariant init fun h _ he => h.step he

end Inv

-- A process can go on with a call that succeeds, unless another one has the lock that it waits for.
theorem exists_enabled (h : Inv s) (hf : ∀ status, s.pc f ≠ .exited status) :
    ∃ g, (lockfight φ).Enabled s ⟨g, true⟩ := by
  have enabled {g : φ} (hx : ∀ status, s.pc g ≠ .exited status) (hl : s.pc g = .setLock → s.lock = none) :
      (lockfight φ).Enabled s ⟨g, true⟩ := by
    simp only [System.Enabled, lockfight]
    cases hp : s.pc g with simp_all [main, setLock, Lock.acquire]
  cases hl : s.lock
  case none   => exact ⟨f, enabled hf fun _ => hl⟩
  case some g =>
    have hg := (h.lock g).mp hl
    exact ⟨g, enabled (fun _ hp => by simp [hp, Pc.hasLock] at hg) fun hp => by simp [hp, Pc.hasLock] at hg⟩

-- In each run two processes are between their locking and their unlocking at the same time only if the call
-- of `fcntl` failed in one of them. All runs are finite, none gets stuck before all processes have exited,
-- and then nobody has the lock.
theorem exclusion_of_run [Fintype φ] (he : (lockfight φ).exec (lockfight φ).init es = some s) :
    (∀ f g, f ≠ g → (s.pc f).InSection → (s.pc g).InSection →
      "fcntl error" ∈ s.stderr f ∨ "fcntl error" ∈ s.stderr g) ∧
    es.length ≤ 7 * Fintype.card φ ∧
    ((∀ g, ¬(lockfight φ).Enabled s ⟨g, true⟩) → s.lock = none ∧ ∀ f, ∃ status, s.pc f = .exited status) := by
  have h := Inv.reachable <| .of_exec he
  refine ⟨fun f g hfg hf hg => ?exclusion, ?finite, fun hn => ?progress⟩
  case exclusion =>
    by_contra hn
    have ⟨hnf, hng⟩ := not_or.mp hn
    have hlf := Bool.of_not_eq_false <| mt (h.failed f hf) hnf
    have hlg := Bool.of_not_eq_false <| mt (h.failed g hg) hng
    exact hfg <| h.lock.unique hlf hlg
  case finite =>
    have := System.rest_add_length_le (I := fun _ => True) (fun s : State φ => ∑ f, (s.pc f).rest)
      (fun _ he => ⟨trivial, by
        have ⟨_, hm⟩ := moves_of_main he
        rw [hm.pc]
        exact sum_rest_update_lt hm.rest⟩) trivial he
    have hi : ∑ f, ((lockfight φ).init.pc f).rest = 7 * Fintype.card φ := by
      simp only [lockfight, Pc.rest, Finset.sum_const, Finset.card_univ]
      exact Nat.mul_comm ..
    omega
  case progress =>
    have hx f : ∃ status, s.pc f = .exited status := by
      by_contra hf
      have ⟨g, hg⟩ := exists_enabled h <| not_exists.mp hf
      exact hn g hg
    refine ⟨h.lock.free fun f => ?_, hx⟩
    have ⟨_, hf⟩ := hx f
    simp [hf, Pc.hasLock]

-- The second process goes on without the lock, as it is interrupted while it waits for it.
theorem exclusion_of_run_interrupted :
    ∃ s : State (Fin 2), (lockfight (Fin 2)).exec (lockfight (Fin 2)).init
        [⟨0, true⟩, ⟨1, true⟩, ⟨0, true⟩, ⟨1, true⟩, ⟨0, true⟩, ⟨1, true⟩, ⟨0, true⟩, ⟨1, false⟩] = some s ∧
      s.pc 0 = .sleep true ∧ s.pc 1 = .sleep false ∧
      ("fcntl error" ∈ s.stderr 0 ∨ "fcntl error" ∈ s.stderr 1) :=
  have he : (lockfight (Fin 2)).exec (lockfight (Fin 2)).init
      [⟨0, true⟩, ⟨1, true⟩, ⟨0, true⟩, ⟨1, true⟩, ⟨0, true⟩, ⟨1, true⟩, ⟨0, true⟩, ⟨1, false⟩] =
      some ⟨_, _, _, _⟩ := rfl
  ⟨_, he, rfl, rfl, (exclusion_of_run he).left 0 1 (by decide) trivial trivial⟩

end WorkloadKit.Lockfight
