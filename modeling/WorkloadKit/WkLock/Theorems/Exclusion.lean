import WorkloadKit.WkLock.State

namespace WorkloadKit.WkLock

variable {φ : Type} {s s' : State φ} {f g : φ} {c : Pc}

namespace Pc

-- Where the task that uses a file holds the mutex, where it holds the spinlock, and where it has set
-- `locked` and not cleared it yet.
def hasMutex : Pc → Bool
  | openSpin | openSet | openUnspin | openPrint | opened | releaseSpin | releaseClear | releaseMutex => true
  | _ => false

def hasSpin : Pc → Bool
  | openSet | openUnspin | releaseClear | releaseMutex | releaseUnspin => true
  | _ => false

def hasLocked : Pc → Bool
  | openUnspin | openPrint | opened | releaseSpin | releaseClear => true
  | _ => false

theorem hasMutex_of_hasLocked (h : c.hasLocked = true) : c.hasMutex = true := by
  cases c <;> trivial

end Pc

-- As `locked` is set and cleared by the holder of the mutex, it is a third lock which that holder has.
structure Inv (s : State φ) : Prop where
  mutex  : s.wkLock.HeldAt Pc.hasMutex s.pc
  spin   : s.privSpinLock.HeldAt Pc.hasSpin s.pc
  locked : ∃ l : Lock φ, l.HeldAt Pc.hasLocked s.pc ∧ s.locked = if l = none then 0 else 1

namespace Inv

theorem init : Inv (init : State φ) where
  mutex _ := by simp [WkLock.init, Pc.hasMutex]
  spin _  := by simp [WkLock.init, Pc.hasSpin]
  locked  := ⟨none, fun _ => by simp [WkLock.init, Pc.hasLocked], rfl⟩

theorem locked_eq_one (h : Inv s) (hf : (s.pc f).hasLocked = true) : s.locked = 1 := by
  have ⟨l, hh, hl⟩ := h.locked
  rw [hl, (hh f).mpr hf]
  rfl

theorem locked_eq_one_iff (h : Inv s) (hr : ∀ f, s.pc f = .closed ∨ s.pc f = .opened) :
    s.locked = 1 ↔ s.wkLock ≠ none := by
  have ⟨l, hh, hl⟩ := h.locked
  have he : l = s.wkLock := by
    ext f
    refine (hh f).trans <| .trans ?_ (h.mutex f).symm
    rcases hr f with hp | hp <;> rw [hp] <;> decide
  rw [hl, he]
  by_cases hn : s.wkLock = none <;> simp [hn]

variable [DecidableEq φ]

-- A statement that does not change any of the locks.
theorem setPc (h : Inv s) (hm : c.hasMutex = (s.pc f).hasMutex) (hs : c.hasSpin = (s.pc f).hasSpin)
    (hl : c.hasLocked = (s.pc f).hasLocked) : Inv (s.setPc f c) where
  mutex  := h.mutex.keep hm
  spin   := h.spin.keep hs
  locked := have ⟨l, hh, hl'⟩ := h.locked; ⟨l, hh.keep hl, hl'⟩

theorem acquireMutex (h : Inv s) (hp : s.pc f = .openMutex)
    (hl : s.wkLock = none) : Inv { s.setPc f .openSpin with wkLock := some f } where
  mutex  := (hl ▸ h.mutex).acquire rfl
  spin   := h.spin.keep <| by rw [hp]; rfl
  locked := have ⟨l, hh, hl'⟩ := h.locked; ⟨l, hh.keep <| by rw [hp]; rfl, hl'⟩

theorem acquireSpin (h : Inv s) (hm : c.hasMutex = (s.pc f).hasMutex) (hs : c.hasSpin = true)
    (hl : c.hasLocked = (s.pc f).hasLocked) (hl : s.privSpinLock = none) :
    Inv { s.setPc f c with privSpinLock := some f } where
  mutex  := h.mutex.keep hm
  spin   := (hl ▸ h.spin).acquire hs
  locked := have ⟨l, hh, hl'⟩ := h.locked; ⟨l, hh.keep ‹_›, hl'⟩

theorem releaseSpin (h : Inv s) (hm : c.hasMutex = (s.pc f).hasMutex) (hs : (s.pc f).hasSpin = true)
    (hs' : c.hasSpin = false) (hl : c.hasLocked = (s.pc f).hasLocked) :
    Inv { s.setPc f c with privSpinLock := none } where
  mutex  := h.mutex.keep hm
  spin   := h.spin.release hs hs'
  locked := have ⟨l, hh, hl'⟩ := h.locked; ⟨l, hh.keep hl, hl'⟩

-- Nobody has set `locked` as it would hold the mutex.
theorem setLocked (h : Inv s) (hp : s.pc f = .openSet) :
    Inv { s.setPc f .openUnspin with locked := 1 } where
  mutex  := h.mutex.keep <| by rw [hp]; rfl
  spin   := h.spin.keep <| by rw [hp]; rfl
  locked := by
    have ⟨l, hh, _⟩ := h.locked
    have hf (g : φ) : (s.pc g).hasLocked = false := by
      by_contra hg
      have hg := Bool.not_eq_false _ ▸ hg
      have hm : (s.pc f).hasMutex = true := by rw [hp]; rfl
      rw [h.mutex.unique (Pc.hasMutex_of_hasLocked hg) hm, hp] at hg
      contradiction
    exact ⟨some f, (hh.free hf ▸ hh).acquire rfl, rfl⟩

theorem clearLocked (h : Inv s) (hp : s.pc f = .releaseClear) :
    Inv { s.setPc f .releaseMutex with locked := 0 } where
  mutex  := h.mutex.keep <| by rw [hp]; rfl
  spin   := h.spin.keep <| by rw [hp]; rfl
  locked := have ⟨_, hh, _⟩ := h.locked; ⟨none, hh.release (by rw [hp]; rfl) rfl, rfl⟩

theorem releaseMutex (h : Inv s) (hp : s.pc f = .releaseMutex) :
    Inv { s.setPc f .releaseUnspin with wkLock := none } where
  mutex  := h.mutex.release (by rw [hp]; rfl) rfl
  spin   := h.spin.keep <| by rw [hp]; rfl
  locked := have ⟨l, hh, hl⟩ := h.locked; ⟨l, hh.keep <| by rw [hp]; rfl, hl⟩

theorem step (h : Inv s) (he : step s f = some s') : Inv s' := by
  cases hp : s.pc f <;>
    simp only [WkLock.step, wkOpen, wkRelease, hp, Option.some.injEq, Option.map_eq_some_iff,
      Lock.acquire_eq_some] at he
  case openMutex =>
    obtain ⟨_, ⟨hl, rfl⟩, rfl⟩ := he
    exact h.acquireMutex hp hl
  case openSpin =>
    obtain ⟨_, ⟨hl, rfl⟩, rfl⟩ := he
    exact h.acquireSpin (by rw [hp]; rfl) rfl (by rw [hp]; rfl) hl
  case releaseSpin =>
    obtain ⟨_, ⟨hl, rfl⟩, rfl⟩ := he
    exact h.acquireSpin (by rw [hp]; rfl) rfl (by rw [hp]; rfl) hl
  case openSet       => exact he ▸ h.setLocked hp
  case releaseClear  => exact he ▸ h.clearLocked hp
  case releaseMutex  => exact he ▸ h.releaseMutex hp
  case openUnspin    => exact he ▸ h.releaseSpin (by rw [hp]; rfl) (by rw [hp]; rfl) rfl (by rw [hp]; rfl)
  case releaseUnspin => exact he ▸ h.releaseSpin (by rw [hp]; rfl) (by rw [hp]; rfl) rfl (by rw [hp]; rfl)
  all_goals exact he ▸ h.setPc (by rw [hp]; rfl) (by rw [hp]; rfl) (by rw [hp]; rfl)

theorem reachable (h : (lockModule φ).Reachable s) : Inv s :=
  h.invariant init fun h _ he => h.step he

theorem isSome_step_of_hasSpin (h : (s.pc f).hasSpin = true) : (WkLock.step s f).isSome := by
  cases hp : s.pc f <;> simp [hp, Pc.hasSpin] at h <;> simp [WkLock.step, wkOpen, wkRelease, hp]

-- A task that waits for the spinlock waits for one that does not wait itself.
theorem exists_isSome_step_of_ne (h : Inv s) (hc : s.pc f ≠ .closed) (hm : s.pc f ≠ .openMutex) :
    ∃ g, s.pc g ≠ .closed ∧ (WkLock.step s g).isSome := by
  cases hl : s.privSpinLock
  case none =>
    refine ⟨f, hc, ?_⟩
    cases hp : s.pc f <;> simp_all [WkLock.step, wkOpen, wkRelease, Lock.acquire]
  case some g =>
    have hg := (h.spin g).mp hl
    exact ⟨g, fun hp => absurd hg (by rw [hp]; decide), isSome_step_of_hasSpin hg⟩

theorem exists_isSome_step (h : Inv s) (hc : s.pc f ≠ .closed) :
    ∃ g, s.pc g ≠ .closed ∧ (WkLock.step s g).isSome := by
  by_cases hm : s.pc f = .openMutex
  case neg => exact h.exists_isSome_step_of_ne hc hm
  case pos =>
    cases hl : s.wkLock
    case none   => exact ⟨f, hc, by simp [WkLock.step, wkOpen, hm, hl, Lock.acquire]⟩
    case some g =>
      have hg := (h.mutex g).mp hl
      refine h.exists_isSome_step_of_ne (f := g) ?_ ?_ <;> exact fun hp => absurd hg (by rw [hp]; decide)

end Inv

-- In any run of any number of tasks, the module behaves like one lock that a file holds while it is open.
theorem exclusion [DecidableEq φ] (h : (lockModule φ).Reachable s) :
    (∀ f g, s.pc f = .opened → s.pc g = .opened → f = g) ∧
    (∀ f, s.pc f = .releaseMutex → s.wkLock = some f) ∧
    (∀ f, s.pc f = .opened → s.locked = 1) ∧
    ((∀ f, s.pc f = .closed ∨ s.pc f = .opened) → (s.locked = 1 ↔ s.wkLock ≠ none)) ∧
    ∀ f, s.pc f ≠ .closed → ∃ g, s.pc g ≠ .closed ∧ (lockModule φ).Enabled s g := by
  have h := Inv.reachable h
  refine ⟨?unique, ?own, ?locked, h.locked_eq_one_iff, fun _ hc => h.exists_isSome_step hc⟩
  case unique => exact fun f g hf hg => h.mutex.unique (by rw [hf]; rfl) (by rw [hg]; rfl)
  case own    => exact fun f hf => (h.mutex f).mpr <| by rw [hf]; rfl
  case locked => exact fun f hf => h.locked_eq_one <| by rw [hf]; rfl

-- A file that is being closed is still in its critical section when another one already has the mutex.
theorem exclusion_overlap :
    ∃ s, (lockModule Bool).Reachable s ∧ s.pc false = .releaseUnspin ∧ s.wkLock = some true ∧
      ∃ f, s.pc f ≠ .closed ∧ (lockModule Bool).Enabled s f := by
  let fs := [false, false, false, false, false, false, true, false, false, false, false, true]
  have he : ((lockModule Bool).exec init fs).map (fun s => (s.pc false, s.wkLock)) =
      some (.releaseUnspin, some true) := by decide
  have ⟨s, he, hs⟩ := Option.map_eq_some_iff.mp he
  have ⟨hp, hl⟩ := Prod.mk.inj hs
  have ⟨_, _, _, _, hn⟩ := exclusion (.of_exec he)
  exact ⟨s, .of_exec he, hp, hl, hn false <| by rw [hp]; decide⟩

end WorkloadKit.WkLock
