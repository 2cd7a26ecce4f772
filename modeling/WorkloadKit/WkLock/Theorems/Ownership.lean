import WorkloadKit.WkLock.Tasks
import WorkloadKit.WkLock.Theorems.Exclusion

namespace WorkloadKit.WkLock

section Step

variable {φ : Type} [DecidableEq φ] {s s' : State φ} {f g : φ}

namespace Pc

-- The statement that comes after one.
def next : Pc → Pc
  | closed        => openMutex
  | openMutex     => openSpin
  | openSpin      => openSet
  | openSet       => openUnspin
  | openUnspin    => openPrint
  | openPrint     => opened
  | opened        => releaseSpin
  | releaseSpin   => releaseClear
  | releaseClear  => releaseMutex
  | releaseMutex  => releaseUnspin
  | releaseUnspin => releasePrint
  | releasePrint  => closed

-- The statements of `wk_open`, and those of `wk_release` up to the one that unlocks the mutex.
def isOpening : Pc → Bool
  | openMutex | openSpin | openSet | openUnspin | openPrint => true
  | _                                                       => false

def isReleasing : Pc → Bool
  | releaseSpin | releaseClear | releaseMutex => true
  | _                                         => false

end Pc

theorem step_pc (hs : step s f = some s') (g : φ) : s'.pc g = if g = f then (s.pc f).next else s.pc g := by
  rw [← Function.update_apply s.pc f]
  cases hp : s.pc f
  all_goals
    simp only [step, wkOpen, wkRelease, hp, Option.some.injEq, Option.map_eq_some_iff] at hs
  case openMutex | openSpin | releaseSpin =>
    obtain ⟨_, _, rfl⟩ := hs
    rfl
  all_goals exact hs ▸ rfl

-- Only two of the statements are about the mutex.
theorem step_wkLock (hs : step s f = some s') (hm : s.pc f ≠ .openMutex) (hr : s.pc f ≠ .releaseMutex) :
    s'.wkLock = s.wkLock := by
  cases hp : s.pc f
  all_goals
    simp only [step, wkOpen, wkRelease, hp, Option.some.injEq, Option.map_eq_some_iff] at hs
  case openMutex    => exact absurd hp hm
  case releaseMutex => exact absurd hp hr
  case openSpin | releaseSpin =>
    obtain ⟨_, _, rfl⟩ := hs
    rfl
  all_goals exact hs ▸ rfl

theorem step_openMutex (hs : step s f = some s') (hp : s.pc f = .openMutex) : s'.wkLock = some f := by
  simp only [step, wkOpen, hp, Option.map_eq_some_iff, Lock.acquire_eq_some] at hs
  obtain ⟨_, ⟨_, rfl⟩, rfl⟩ := hs
  rfl

theorem step_releaseMutex (hs : step s f = some s') (hp : s.pc f = .releaseMutex) : s'.wkLock = none := by
  simp only [step, wkRelease, hp] at hs
  cases hs
  rfl

end Step

variable {τ φ : Type} {live : Finset τ} {s s' : Kernel τ φ} {t u : τ} {f g : φ}

-- Each file that is used is either open or is worked on by one task, and the owner of the mutex is the task
-- that has opened the file which has it.
structure Kernel.Invariant (s : Kernel τ φ) : Prop where
  base    : Inv s.base
  opened  : ∀ t, ∀ f ∈ s.files t, s.base.pc f = .opened
  gone    : ∀ t ∉ s.live, s.files t = ∅ ∧ s.busy t = none
  working : ∀ t f, s.busy t = some f → s.base.pc f ≠ .closed ∧ s.base.pc f ≠ .opened
  unique  : ∀ t u f, s.busy t = some f → s.busy u = some f → t = u
  opening : ∀ t f, s.busy t = some f → (s.base.pc f).isOpening = true → s.opener f = some t
  owner   : ∀ f, s.base.wkLock = some f → s.owner = s.opener f
  users   : ∀ f, f ∈ s.users ↔ s.base.pc f ≠ .closed

namespace Kernel.Invariant

theorem init : Invariant (.init live : Kernel τ φ) where
  base    := .init
  opened  := nofun
  gone    := fun _ _ => ⟨rfl, rfl⟩
  working := nofun
  unique  := nofun
  opening := nofun
  owner   := nofun
  users f := iff_of_false (Finset.notMem_empty f) fun h => h rfl

theorem pc_of_wkLock (h : Invariant s) (hl : s.base.wkLock = some f) : (s.base.pc f).hasMutex = true :=
  (h.base.mutex f).mp hl

-- Nothing is locked if there are no users.
theorem locked_eq_zero (h : Invariant s) (hu : s.users = ∅) : s.base.locked = 0 := by
  have ⟨l, hh, hl⟩ := h.base.locked
  have hn : l = none := hh.free fun f => by
    have hp : s.base.pc f = .closed := by
      have := h.users f
      simpa [hu] using this
    rw [hp]
    rfl
  rw [hl, hn]
  rfl

variable [DecidableEq τ] [DecidableEq φ] {e : TaskEvent τ φ}

omit [DecidableEq φ] in
theorem ready_iff : s.ready t = true ↔ t ∈ s.live ∧ s.busy t = none := by
  simp [Kernel.ready]

theorem openFile (h : Invariant s) (hs : s.openFile t f = some s') : Invariant s' := by
  simp only [Kernel.openFile] at hs
  split at hs
  case isFalse => cases hs
  case isTrue hc =>
    have ⟨hr, _, hp⟩ := hc
    have ⟨base, hb, hs⟩ := Option.map_eq_some_iff.mp hs
    have hpc := step_pc hb
    have hl := step_wkLock hb (by simp [hp]) (by simp [hp])
    have hmutex (g : φ) (hg : s.base.wkLock = some g) : g ≠ f := fun he => by
      have := h.pc_of_wkLock hg
      simp [he, hp, Pc.hasMutex] at this
    subst hs
    exact {
      base    := h.base.step hb
      opened  := by grind [h.opened]
      gone v hv := by
        have hne : v ≠ t := fun he => hv <| he ▸ (ready_iff.mp hr).left
        simpa [hne] using h.gone v hv
      working := by grind [Function.update_apply, h.working, Pc.next]
      unique  := by grind [Function.update_apply, h.unique, h.working]
      opening := by grind [Function.update_apply, h.opening, h.working]
      owner   := by grind [Function.update_apply, h.owner]
      users   := by grind [h.users, Pc.next]
    }

omit [DecidableEq τ] in
-- A statement after which the task goes on with the file.
theorem advance {base : State φ} {owner : Option τ} {unlocks : List (τ × Option τ)} (h : Invariant s)
    (hbusy : s.busy t = some f) (hb : WkLock.step s.base f = some base)
    (hn : (s.base.pc f).next ≠ .closed ∧ (s.base.pc f).next ≠ .opened)
    (ho : ∀ g, base.wkLock = some g → owner = s.opener g) : Invariant { s with base, owner, unlocks } where
  base    := h.base.step hb
  opened  := by grind [step_pc hb, h.opened, h.working]
  gone    := h.gone
  working := by grind [step_pc hb, h.working]
  unique  := h.unique
  opening := by
    have hw := h.working t f hbusy
    have hi : (s.base.pc f).next.isOpening = true → (s.base.pc f).isOpening = true := by
      cases hp : s.base.pc f <;> simp_all [Pc.next, Pc.isOpening]
    grind [step_pc hb, h.opening, h.unique]
  owner   := ho
  users   := by grind [step_pc hb, h.users, h.working]

-- The last statement of `wk_open` and the one of `wk_release`.
theorem finish {base : State φ} {files : Finset φ} {users : Finset φ} (h : Invariant s)
    (hbusy : s.busy t = some f) (hb : WkLock.step s.base f = some base) (hl : base.wkLock = s.base.wkLock)
    (hf : ∀ g ∈ files, g ∈ s.files t ∨ g = f ∧ (s.base.pc f).next = .opened)
    (hu : ∀ g, g ∈ users ↔ if g = f then (s.base.pc f).next ≠ .closed else g ∈ s.users) :
    Invariant { s with
      base, users
      busy  := Function.update s.busy t none
      files := Function.update s.files t files } where
  base    := h.base.step hb
  opened  := by grind [Function.update_apply, step_pc hb, h.opened, h.working]
  gone u hu := by
    have ⟨_, hn⟩ := h.gone u hu
    have ht : u ≠ t := fun he => by simp [he, hbusy] at hn
    simpa [ht] using h.gone u hu
  working := by grind [Function.update_apply, step_pc hb, h.working, h.unique]
  unique  := by grind [Function.update_apply, h.unique]
  opening := by grind [Function.update_apply, step_pc hb, h.opening, h.unique]
  owner   := hl ▸ h.owner
  users   := by grind [step_pc hb, h.users]

theorem run (h : Invariant s) (hs : s.run t = some s') : Invariant s' := by
  simp only [Kernel.run] at hs
  split at hs
  case h_1 => cases hs
  case h_2 f hbusy =>
    have ⟨base, hb, hs⟩ := Option.map_eq_some_iff.mp hs
    split at hs
    case h_1 hp =>
      refine hs ▸ h.advance hbusy hb (by simp [hp, Pc.next]) fun g hg => ?_
      obtain rfl := Option.some.inj <| (step_openMutex hb hp).symm.trans hg
      exact (h.opening t f hbusy <| by rw [hp]; rfl).symm
    case h_2 hp =>
      have hl := step_wkLock hb (by simp [hp]) (by simp [hp])
      exact hs ▸ h.finish hbusy hb hl (by grind [Pc.next]) (by grind [h.users, Pc.next])
    case h_3 hp =>
      refine hs ▸ h.advance hbusy hb (by simp [hp, Pc.next]) fun g hg => ?_
      rw [step_releaseMutex hb hp] at hg
      cases hg
    case h_4 hp =>
      have hl := step_wkLock hb (by simp [hp]) (by simp [hp])
      have hu (g : φ) : g ∈ s.users.erase f ↔ if g = f then (s.base.pc f).next ≠ .closed else g ∈ s.users := by
        grind [Pc.next]
      have hi := h.finish hbusy hb hl (fun _ => .inl) hu
      rw [Function.update_eq_self] at hi
      exact hs ▸ hi
    case h_5 h₁ h₂ h₃ h₄ =>
      have hl := step_wkLock hb h₁ h₃
      refine hs ▸ h.advance hbusy hb ?_ (hl ▸ h.owner)
      have := h.working t f hbusy
      cases hp : s.base.pc f <;> simp_all [Pc.next]

omit [DecidableEq φ] in
theorem fork (h : Invariant s) (hs : s.fork t u = some s') : Invariant s' := by
  simp only [Kernel.fork] at hs
  split at hs
  case isFalse => cases hs
  case isTrue hc =>
    cases hs
    exact {
      h with
      opened := by grind [Function.update_apply, h.opened]
      gone v hv := by
        have ⟨hu, hv⟩ := not_or.mp <| mt Finset.mem_insert.mpr hv
        simpa [hu] using h.gone v hv
    }

-- In the task which drops the last reference, the file is open.
theorem closeFile (h : Invariant s) (hs : s.closeFile t f = some s') : Invariant s' := by
  simp only [Kernel.closeFile] at hs
  split at hs
  case isFalse => cases hs
  case isTrue hc =>
    have ⟨hr, hf⟩ := hc
    have hp := h.opened t f hf
    have hg (v : τ) (hv : v ∉ s.live) : v ≠ t := fun he => hv <| he ▸ (ready_iff.mp hr).left
    split at hs
    case isFalse =>
      cases hs
      exact {
        h with
        opened := by grind [Function.update_apply, h.opened]
        gone v hv := by simpa [hg v hv] using h.gone v hv
      }
    case isTrue hl =>
      have ⟨base, hb, hs⟩ := Option.map_eq_some_iff.mp hs
      have hother (u : τ) (hu : u ≠ t) : f ∉ s.files u := by
        by_cases hv : u ∈ s.live
        case pos => exact of_decide_eq_true hl u hv hu
        case neg => simp [h.gone u hv]
      have hw := step_wkLock hb (by simp [hp]) (by simp [hp])
      subst hs
      exact {
        base    := h.base.step hb
        opened  := by grind [Function.update_apply, step_pc hb, h.opened]
        gone v hv := by simpa [hg v hv] using h.gone v hv
        working := by grind [Function.update_apply, step_pc hb, h.working, Pc.next]
        unique  := by grind [Function.update_apply, h.unique, h.working]
        opening := by grind [Function.update_apply, step_pc hb, h.opening, h.working, Pc.next, Pc.isOpening]
        owner   := hw ▸ h.owner
        users   := by grind [step_pc hb, h.users, Pc.next]
      }

theorem exit (h : Invariant s) (hs : s.exit t = some s') : Invariant s' := by
  simp only [Kernel.exit] at hs
  split at hs
  case isFalse => cases hs
  case isTrue hc =>
    cases hs
    refine { h with gone := fun u hu => ?_ }
    by_cases he : u = t
    case pos =>
      subst he
      exact ⟨hc.right, (ready_iff.mp hc.left).right⟩
    case neg => exact h.gone u fun hm => hu <| Finset.mem_erase.mpr ⟨he, hm⟩

theorem wkExit (h : Invariant s) (hs : s.wkExit t = some s') : s' = { s with removed := true } := by
  simp only [Kernel.wkExit] at hs
  split at hs
  case isFalse => cases hs
  case isTrue hc =>
    rw [h.locked_eq_zero hc.right.right] at hs
    exact (Option.some.inj hs).symm

theorem step (h : Invariant s) (hs : s.step e = some s') : Invariant s' := by
  cases e
  case openFile  => exact h.openFile hs
  case run       => exact h.run hs
  case fork      => exact h.fork hs
  case closeFile => exact h.closeFile hs
  case exit      => exact h.exit hs
  case remove    => exact h.wkExit hs ▸ { h with }

end Kernel.Invariant

variable [DecidableEq τ] [DecidableEq φ] {e : TaskEvent τ φ}

theorem kernel_invariant (h : (taskSystem live).Reachable s) : s.Invariant :=
  h.invariant .init fun hi _ hs => hi.step hs

-- What a step does to a file that is worked on: it is opened, it is closed by the last task that has it open,
-- the next statement is executed, or nothing happens to any such file.
inductive Kernel.Effect (s s' : Kernel τ φ) : TaskEvent τ φ → Prop
  | openFile {t : τ} {f : φ} (hr : s.busy t = none) (hp : s.base.pc f = .closed)
    (hb : WkLock.step s.base f = some s'.base) (hs : s'.busy = Function.update s.busy t f)
    (ho : s'.opener = Function.update s.opener f t) (hu : s'.unlocks = s.unlocks) : Effect s s' (.openFile t f)
  | closeFile {t : τ} {f : φ} (hr : s.busy t = none) (hl : s.isLast t f = true) (hp : s.base.pc f = .opened)
    (hb : WkLock.step s.base f = some s'.base) (hs : s'.busy = Function.update s.busy t f)
    (ho : s'.opener = s.opener) (hu : s'.unlocks = s.unlocks) : Effect s s' (.closeFile t f)
  | run {t : τ} {f : φ} (hr : s.busy t = some f) (hb : WkLock.step s.base f = some s'.base)
    (hs : ∀ u ≠ t, s'.busy u = s.busy u)
    (ht : s'.busy t = some f ∨ s'.busy t = none ∧ (s.base.pc f).isReleasing = false)
    (ho : s'.opener = s.opener)
    (hu : s'.unlocks = if s.base.pc f = .releaseMutex then (t, s.owner) :: s.unlocks else s.unlocks) :
    Effect s s' (.run t)
  | none {e : TaskEvent τ φ} (hl : ∀ t f, e = .closeFile t f → s.isLast t f = false)
    (hb : s'.base = s.base) (hs : s'.busy = s.busy) (ho : s'.opener = s.opener)
    (hu : s'.unlocks = s.unlocks) : Effect s s' e

namespace Kernel.Effect

theorem of_run (hs : s.run t = some s') : s.Effect s' (.run t) := by
  simp only [Kernel.run] at hs
  split at hs
  case h_1 => cases hs
  case h_2 f hbusy =>
    have ⟨base, hb, hs⟩ := Option.map_eq_some_iff.mp hs
    split at hs
    all_goals subst hs
    case h_1 hp => exact .run hbusy hb (fun _ _ => rfl) (.inl hbusy) rfl <| by simp [hp]
    case h_2 hp =>
      exact .run hbusy hb (fun _ hu => by simp [hu]) (.inr <| by simp [hp, Pc.isReleasing]) rfl <| by simp [hp]
    case h_3 hp => exact .run hbusy hb (fun _ _ => rfl) (.inl hbusy) rfl <| by simp [hp]
    case h_4 hp =>
      exact .run hbusy hb (fun _ hu => by simp [hu]) (.inr <| by simp [hp, Pc.isReleasing]) rfl <| by simp [hp]
    case h_5 _ _ hp _ => exact .run hbusy hb (fun _ _ => rfl) (.inl hbusy) rfl (if_neg hp).symm

theorem of_step (h : s.Invariant) (hs : s.step e = some s') : s.Effect s' e := by
  cases e
  case run       => exact .of_run hs
  case openFile t f =>
    simp only [Kernel.step, Kernel.openFile] at hs
    split at hs
    case isFalse => cases hs
    case isTrue hc =>
      have ⟨base, hb, hs⟩ := Option.map_eq_some_iff.mp hs
      subst hs
      exact .openFile (Kernel.Invariant.ready_iff.mp hc.left).right hc.right.right hb rfl rfl rfl
  case closeFile t f =>
    simp only [Kernel.step, Kernel.closeFile] at hs
    split at hs
    case isFalse => cases hs
    case isTrue hc =>
      split at hs
      case isTrue hl =>
        have ⟨base, hb, hs⟩ := Option.map_eq_some_iff.mp hs
        subst hs
        exact .closeFile (Kernel.Invariant.ready_iff.mp hc.left).right hl (h.opened t f hc.right) hb rfl rfl rfl
      case isFalse hl =>
        cases hs
        refine .none (fun _ _ he => ?_) rfl rfl rfl rfl
        cases he
        exact Bool.not_eq_true _ ▸ hl
  case remove => exact h.wkExit hs ▸ .none (by rintro _ _ ⟨⟩) rfl rfl rfl rfl
  case fork =>
    simp only [Kernel.step, Kernel.fork] at hs
    split at hs
    all_goals cases hs
    exact .none (by rintro _ _ ⟨⟩) rfl rfl rfl rfl
  case exit =>
    simp only [Kernel.step, Kernel.exit] at hs
    split at hs
    all_goals cases hs
    exact .none (by rintro _ _ ⟨⟩) rfl rfl rfl rfl

end Kernel.Effect

-- The mutex has only been unlocked by its owner.
def Kernel.Owned (s : Kernel τ φ) : Prop :=
  ∀ u ∈ s.unlocks, u.snd = some u.fst

-- The last reference to a file is dropped by the task that has opened the file.
def ByOpener (s : Kernel τ φ) (e : TaskEvent τ φ) : Prop :=
  ∀ t f, e = .closeFile t f → s.isLast t f = true → s.opener f = some t

-- A task that is not the one which has opened the file is about to unlock the mutex.
def Kernel.Pending (s : Kernel τ φ) : Prop :=
  ∃ t f, s.busy t = some f ∧ (s.base.pc f).isReleasing = true ∧ s.opener f ≠ some t

namespace Kernel.Pending

theorem isReleasing_of_next {c : Pc} (ho : c ≠ .opened) (hn : c.next.isReleasing = true) :
    c.isReleasing = true := by
  cases c <;> first | rfl | exact absurd rfl ho | cases hn

-- A task can only come to be about to unlock the mutex by dropping the last reference.
theorem of_step (h : s.Invariant) (hs : s.step e = some s') (hc : ByOpener s e) (hp : s'.Pending) :
    s.Pending := by
  have ⟨t, f, hb, hr, ho⟩ := hp
  cases Effect.of_step h hs
  case openFile u g _ hp hst hy ho' _ =>
    have hfg : f ≠ g := by
      rintro rfl
      rw [step_pc hst, if_pos rfl, hp] at hr
      cases hr
    have htu : t ≠ u := by
      rintro rfl
      rw [hy, Function.update_self] at hb
      exact hfg (Option.some.inj hb).symm
    rw [hy, Function.update_of_ne htu] at hb
    rw [step_pc hst, if_neg hfg] at hr
    rw [ho', Function.update_of_ne hfg] at ho
    exact ⟨t, f, hb, hr, ho⟩
  case closeFile u g _ hl hp hst hy ho' _ =>
    have htu : t ≠ u := by
      rintro rfl
      rw [hy, Function.update_self] at hb
      obtain rfl := Option.some.inj hb
      exact ho <| ho' ▸ hc t g rfl hl
    rw [hy, Function.update_of_ne htu] at hb
    have hfg : f ≠ g := fun he => (h.working t f hb).right <| he ▸ hp
    rw [step_pc hst, if_neg hfg] at hr
    exact ⟨t, f, hb, hr, ho' ▸ ho⟩
  case run u g hu hst hy ht ho' _ =>
    by_cases htu : t = u
    case pos =>
      subst htu
      obtain rfl : g = f := by
        obtain ht | ⟨ht, _⟩ := ht
        all_goals rw [ht] at hb
        case inl => exact Option.some.inj hb
        case inr => cases hb
      rw [step_pc hst, if_pos rfl] at hr
      exact ⟨t, g, hu, isReleasing_of_next (h.working t g hu).right hr, ho' ▸ ho⟩
    case neg =>
      rw [hy t htu] at hb
      have hfg : f ≠ g := fun he => htu <| h.unique t u f hb (he ▸ hu)
      rw [step_pc hst, if_neg hfg] at hr
      exact ⟨t, f, hb, hr, ho' ▸ ho⟩
  case none hst hy ho' _ _ => exact ⟨t, f, hy ▸ hb, hst ▸ hr, ho' ▸ ho⟩

-- A task that is about to unlock the mutex stays so until it does.
theorem step (h : s.Invariant) (hs : s.step e = some s') (hp : s.Pending) : s'.Pending ∨ ¬s'.Owned := by
  have ⟨t, f, hb, hr, ho⟩ := hp
  have hw := h.working t f hb
  cases Effect.of_step h hs
  case openFile u g hn hp hst hy ho' _ =>
    have hfg : f ≠ g := fun he => hw.left <| he ▸ hp
    have htu : t ≠ u := fun he => by simp [he, hn] at hb
    refine .inl ⟨t, f, ?_, ?_, ?_⟩
    · rwa [hy, Function.update_of_ne htu]
    · rwa [step_pc hst, if_neg hfg]
    · rwa [ho', Function.update_of_ne hfg]
  case closeFile u g hn _ hp hst hy ho' _ =>
    have hfg : f ≠ g := fun he => hw.right <| he ▸ hp
    have htu : t ≠ u := fun he => by simp [he, hn] at hb
    refine .inl ⟨t, f, ?_, ?_, ho' ▸ ho⟩
    · rwa [hy, Function.update_of_ne htu]
    · rwa [step_pc hst, if_neg hfg]
  case run u g hu hst hy ht ho' hun =>
    by_cases htu : t = u
    case neg =>
      have hfg : f ≠ g := fun he => htu <| h.unique t u f hb (he ▸ hu)
      refine .inl ⟨t, f, (hy t htu).trans hb, ?_, ho' ▸ ho⟩
      rwa [step_pc hst, if_neg hfg]
    case pos =>
      subst htu
      obtain rfl : g = f := Option.some.inj <| hu.symm.trans hb
      by_cases hp : s.base.pc g = .releaseMutex
      case pos =>
        refine .inr fun hall => ho ?_
        have hl : s.base.wkLock = some g := (h.base.mutex g).mpr <| by rw [hp]; rfl
        rw [← h.owner g hl]
        exact hall (t, s.owner) <| by simp [hun, hp]
      case neg =>
        have ht := ht.resolve_right fun ht => by simp [hr] at ht
        refine .inl ⟨t, g, ht, ?_, ho' ▸ ho⟩
        rw [step_pc hst, if_pos rfl]
        cases hc : s.base.pc g <;> simp_all [Pc.isReleasing, Pc.next]
  case none hst hy ho' _ _ => exact .inl ⟨t, f, hy ▸ hb, hst ▸ hr, ho' ▸ ho⟩

-- A task that drops the last reference without having opened the file.
theorem of_not_byOpener (h : s.Invariant) (hs : s.step e = some s') (hc : ¬ByOpener s e) : s'.Pending := by
  simp only [ByOpener, not_forall] at hc
  have ⟨t, f, he, hl, ho⟩ := hc
  cases Effect.of_step h hs
  case closeFile u g _ _ hp hst hy ho' _ =>
    cases he
    refine ⟨t, f, by simp [hy], ?_, ho' ▸ ho⟩
    rw [step_pc hst, if_pos rfl, hp]
    rfl
  case none _ _ _ _ hn => exact absurd (hn t f he) (by simp [hl])
  all_goals cases he

end Kernel.Pending

-- The mutex is unlocked by its owner, unless it is a task that has not opened the file which does it.
theorem owned_step (h : s.Invariant) (hs : s.step e = some s') (ho : s.Owned) (hp : ¬s.Pending) : s'.Owned := by
  cases Kernel.Effect.of_step h hs
  case run t f hb _ _ _ _ hu =>
    intro u hm
    rw [hu] at hm
    split at hm
    case isFalse => exact ho u hm
    case isTrue hc =>
      obtain rfl | hm := List.mem_cons.mp hm
      case inr => exact ho u hm
      case inl =>
        have hl : s.base.wkLock = some f := (h.base.mutex f).mpr <| by rw [hc]; rfl
        by_contra hn
        exact hp ⟨t, f, hb, by rw [hc]; rfl, h.owner f hl ▸ hn⟩
  all_goals
    rw [Kernel.Owned, ‹s'.unlocks = s.unlocks›]
    exact ho

-- What has been unlocked stays recorded.
theorem not_owned_step (h : s.Invariant) (hs : s.step e = some s') (ho : ¬s.Owned) : ¬s'.Owned := by
  refine fun ho' => ho fun u hm => ho' u ?_
  cases Kernel.Effect.of_step h hs
  case run hu =>
    rw [hu]
    split
    case isTrue  => exact List.mem_cons_of_mem _ hm
    case isFalse => exact hm
  all_goals
    rw [‹s'.unlocks = s.unlocks›]
    exact hm

theorem owned_of_byOpener (h : (taskSystem live).ReachableUnder ByOpener s) : s.Owned ∧ ¬s.Pending := by
  have h : s.Invariant ∧ s.Owned ∧ ¬s.Pending := by
    refine h.invariant (I := fun s => s.Invariant ∧ s.Owned ∧ ¬s.Pending) ⟨.init, nofun, nofun⟩ ?_
    intro s₁ e s₂ ⟨hi, ho, hp⟩ hc hs
    exact ⟨hi.step hs, owned_step hi hs ho hp, mt (Kernel.Pending.of_step hi hs hc) hp⟩
  exact h.right

theorem byOpener_or (h : (taskSystem live).Reachable s) :
    (taskSystem live).ReachableUnder ByOpener s ∨ s.Pending ∨ ¬s.Owned := by
  induction h
  case init => exact .inl .init
  case step s₁ e s₂ h₁ _ hs hi =>
    have h₁ := kernel_invariant h₁
    obtain hu | hp | ho := hi
    case inr.inl => exact .inr <| hp.step h₁ hs
    case inr.inr => exact .inr <| .inr <| not_owned_step h₁ hs ho
    case inl =>
      by_cases hc : ByOpener s₁ e
      case pos => exact .inl <| hu.step hc hs
      case neg => exact .inr <| .inl <| .of_not_byOpener h₁ hs hc

-- If the last reference to a file is always dropped by the task that has opened it, then the mutex is always
-- unlocked by its owner. There is no other way, once nobody is about to unlock the mutex.
theorem owned_iff_byOpener (h : (taskSystem live).Reachable s) :
    ((taskSystem live).ReachableUnder ByOpener s → s.Owned) ∧
    ((∀ f, (s.base.pc f).isReleasing = false) → s.Owned → (taskSystem live).ReachableUnder ByOpener s) := by
  refine ⟨fun hu => (owned_of_byOpener hu).left, fun hq ho => (byOpener_or h).resolve_right ?_⟩
  rintro (⟨_, f, _, hr, _⟩ | hn)
  case inl => simp [hq f] at hr
  case inr => exact hn ho

-- A task opens the file, and its child is the first one to close it.
def childFirst : List (TaskEvent Bool Unit) :=
  .openFile false () :: List.replicate 5 (.run false) ++ [.fork false true, .closeFile true (), .exit true] ++
    .closeFile false () :: List.replicate 5 (.run false) ++ [.remove false]

-- A task opens the file, and its child is the last one to close it.
def childLast : List (TaskEvent Bool Unit) :=
  .openFile false () :: List.replicate 5 (.run false) ++ [.fork false true, .closeFile false ()] ++
    .closeFile true () :: List.replicate 5 (.run true)

theorem owned_childFirst : ∃ s, (taskSystem {false}).Reachable s ∧ s.unlocks = [(false, some false)] ∧
    (((taskSystem (φ := Unit) {false}).ReachableUnder ByOpener s → s.Owned) ∧
    ((∀ f, (s.base.pc f).isReleasing = false) → s.Owned → (taskSystem {false}).ReachableUnder ByOpener s)) := by
  have he : ((taskSystem {false}).exec (.init {false}) childFirst).map (·.unlocks) =
      some [(false, some false)] := by decide
  have ⟨s, he, hu⟩ := Option.map_eq_some_iff.mp he
  have h := System.ReachableUnder.of_exec he
  exact ⟨s, h, hu, owned_iff_byOpener h⟩

theorem not_owned : ¬∀ s, (taskSystem (τ := Bool) (φ := Unit) {false}).Reachable s → s.Owned := by
  intro h
  have he : ((taskSystem {false}).exec (.init {false}) childLast).map (·.unlocks) =
      some [(true, some false)] := by decide
  have ⟨s, he, hu⟩ := Option.map_eq_some_iff.mp he
  have := h s (.of_exec he) (true, some false) (by simp [hu])
  cases this

end WorkloadKit.WkLock
