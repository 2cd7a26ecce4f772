import Mathlib.Data.Finset.Card
import Mathlib.Data.Int.Order.Basic
import WorkloadKit.ThreadTree.Theorems.Invariant

namespace WorkloadKit.ThreadTree

variable {p : Params} {s s' : State} {tid u : Tid} {t : Thread} {st : Stage} {k i j : ℕ}

instance : DecidablePred Thread.Pc.Taken :=
  fun pc => inferInstanceAs <| Decidable (4 ≤ pc.rank)

namespace State

-- The threads that have been created for a stage.
def members (s : State) (k : ℕ) : Finset Tid :=
  (Finset.range s.created).filter fun tid => (s.threads tid).stage = k

-- The threads of a stage that have incremented `exit_count`.
def finished (s : State) (k : ℕ) : Finset Tid :=
  (s.members k).filter fun tid => (s.threads tid).pc.Taken

theorem mem_members : tid ∈ s.members k ↔ tid < s.created ∧ (s.threads tid).stage = k := by
  simp [members]

theorem mem_finished : tid ∈ s.finished k ↔ tid ∈ s.members k ∧ (s.threads tid).pc.Taken :=
  Finset.mem_filter

@[simp]
theorem finished_setStage : (s.setStage k st).finished j = s.finished j :=
  rfl

theorem members_setThread (hk : t.stage = (s.threads tid).stage) :
    (s.setThread tid t).members k = s.members k := by
  ext u
  rw [mem_members, mem_members]
  by_cases hc : u = tid <;> simp [hc, hk]

theorem finished_setThread (hk : t.stage = (s.threads tid).stage)
    (ht : t.pc.Taken ↔ (s.threads tid).pc.Taken) : (s.setThread tid t).finished k = s.finished k := by
  ext u
  rw [mem_finished, mem_finished, members_setThread hk]
  by_cases hc : u = tid
  case pos => rw [hc, setThread_self, ht]
  case neg => rw [setThread_of_ne _ _ hc]

theorem finished_setThread_taken (hl : tid < s.created) (hk : t.stage = (s.threads tid).stage)
    (ht : t.pc.Taken) :
    (s.setThread tid t).finished t.stage = insert tid (s.finished t.stage) := by
  ext u
  rw [Finset.mem_insert, mem_finished, mem_finished, members_setThread hk]
  by_cases hc : u = tid
  case pos => simp only [hc, setThread_self, mem_members, hl, hk, ht, true_and, and_true, true_or]
  case neg => rw [setThread_of_ne _ _ hc, or_iff_right hc]

theorem finished_setThread_of_ne (hk : t.stage = (s.threads tid).stage) (hj : j ≠ t.stage) :
    (s.setThread tid t).finished j = s.finished j := by
  ext u
  rw [mem_finished, mem_finished, members_setThread hk, mem_members]
  by_cases hc : u = tid
  case pos => simp only [hc, ←hk, hj.symm, and_false, false_and]
  case neg => rw [setThread_of_ne _ _ hc]

theorem members_pthreadCreate : (s.pthreadCreate k).members k = insert s.created (s.members k) := by
  ext u
  simp only [Finset.mem_insert, mem_members, pthreadCreate, Nat.lt_succ_iff_lt_or_eq]
  by_cases hc : u = s.created <;> simp [hc]

theorem members_pthreadCreate_of_ne (hj : j ≠ k) : (s.pthreadCreate k).members j = s.members j := by
  ext u
  simp only [mem_members, pthreadCreate, Nat.lt_succ_iff_lt_or_eq]
  by_cases hc : u = s.created <;> simp [hc, hj.symm]

theorem created_notMem_members : s.created ∉ s.members k := by
  simp [mem_members]

theorem finished_pthreadCreate : (s.pthreadCreate k).finished j = s.finished j := by
  ext u
  simp only [mem_finished, mem_members, pthreadCreate, Nat.lt_succ_iff_lt_or_eq]
  by_cases hc : u = s.created <;> simp [hc]

theorem card_members_pthreadCreate : ((s.pthreadCreate k).members k).card = (s.members k).card + 1 := by
  rw [members_pthreadCreate, Finset.card_insert_of_notMem created_notMem_members]

theorem pthreadCreate_threads (h : tid < s.created) : (s.pthreadCreate k).threads tid = s.threads tid :=
  setThread_of_ne _ _ h.ne

end State

-- The field `exit_count` of a stage is the number of its threads that have incremented it.
def Counted (s : State) : Prop :=
  ∀ k, (s.stages k).exitCount = (s.finished k).card

namespace Counted

theorem init : Counted init :=
  fun _ => rfl

theorem setStage (h : Counted s) (hx : st.exitCount = (s.stages k).exitCount) :
    Counted (s.setStage k st) := by
  intro j
  by_cases hc : j = k
  case pos => subst hc; simpa [hx] using h j
  case neg => simpa [hc] using h j

theorem setThread (h : Counted s) (hk : t.stage = (s.threads tid).stage)
    (ht : t.pc.Taken ↔ (s.threads tid).pc.Taken) : Counted (s.setThread tid t) := by
  intro k
  rw [State.finished_setThread hk ht]
  exact h k

theorem setThread_taken (h : Counted s) (hl : tid < s.created) (hk : t.stage = (s.threads tid).stage)
    (ht : t.pc.Taken) (hn : ¬(s.threads tid).pc.Taken)
    (hx : st.exitCount = (s.stages t.stage).exitCount + 1) :
    Counted ((s.setThread tid t).setStage t.stage st) := by
  intro k
  rw [State.finished_setStage]
  by_cases hc : k = t.stage
  case pos =>
    have hn : tid ∉ s.finished t.stage := fun h => hn (State.mem_finished.mp h).right
    rw [hc, State.setStage_self, State.finished_setThread_taken hl hk ht,
      Finset.card_insert_of_notMem hn, hx, h]
  case neg =>
    rw [State.setStage_of_ne _ _ hc, State.finished_setThread_of_ne hk hc]
    exact h k

theorem pthreadCreate (h : Counted s) : Counted (s.pthreadCreate k) := by
  intro j
  rw [State.finished_pthreadCreate]
  exact h j

theorem stepMain (h : Counted s) (he : stepMain p s = some s') : Counted s' := by
  cases hm : s.main <;> simp only [ThreadTree.stepMain, hm, Option.some.injEq, reduceCtorEq] at he
  case spawn i =>
    split at he <;> cases he
    case isTrue  => exact h.pthreadCreate
    case isFalse => exact h
  case wait k i =>
    split at he
    case isTrue =>
      split at he <;> cases he
      exact h.setStage rfl
    case isFalse => cases he; exact h
  all_goals try split at he
  all_goals cases he
  all_goals exact h

theorem threadWorker (hi : Inv s) (h : Counted s) (hl : tid < s.created)
    (he : threadWorker p s tid = some s') : Counted s' := by
  cases hp : (s.threads tid).pc <;>
    simp only [ThreadTree.threadWorker, hp, Option.some.injEq, reduceCtorEq] at he
  case incr =>
    subst he
    exact h.setThread_taken hl rfl (by simp) (by simp [hp]) <|
      congrArg Nat.succ <| (hi.threads tid hl).loaded hp
  case lock =>
    split at he <;> cases he
    exact setStage (setThread h rfl <| by simp [hp]) rfl
  case unlock | store | post =>
    subst he
    exact setStage (setThread h rfl <| by simp [hp]) rfl
  case test =>
    split at he <;> cases he
    case isTrue  => exact setStage (setThread h rfl <| by simp [hp]) rfl
    case isFalse => exact h.setThread rfl <| by simp [hp]
  case spawn i =>
    split at he <;> cases he
    case isTrue  => exact pthreadCreate (setThread h rfl <| by simp [hp])
    case isFalse => exact h.setThread rfl <| by simp [hp]
  all_goals
    subst he
    exact h.setThread rfl <| by simp [hp]

end Counted

theorem Inv.eq_of_index (hi : Inv s) (hu : u < s.created) (ht : tid < s.created)
    (hs : (s.threads u).stage = (s.threads tid).stage) (hu' : (s.threads u).pc.Taken)
    (ht' : (s.threads tid).pc.Taken) (hx : (s.threads u).index = (s.threads tid).index) : u = tid := by
  by_contra hc
  exact (hi.apart u hu tid ht hc hs).index hu' ht' hx

-- A thread of the stage `k` that has taken the last index has called `spawn_stage`.
def HasParent (p : Params) (s : State) (k : ℕ) : Prop :=
  ∃ tid < s.created, (s.threads tid).stage = k ∧ (s.threads tid).index = p.nbThread k - 1 ∧
    8 ≤ (s.threads tid).pc.rank

theorem HasParent.setThread (h : HasParent p s k) (hk : t.stage = (s.threads tid).stage)
    (hr : (s.threads tid).pc.rank ≤ t.pc.rank)
    (hx : (s.threads tid).pc.Taken → t.index = (s.threads tid).index) :
    HasParent p (s.setThread tid t) k := by
  have ⟨u, hu, hs', hx', hr'⟩ := h
  refine ⟨u, hu, ?_⟩
  by_cases hc : u = tid
  case pos =>
    subst hc
    rw [State.setThread_self]
    exact ⟨hk.trans hs', (hx <| (show 4 ≤ 8 by decide).trans hr') ▸ hx', hr'.trans hr⟩
  case neg => rw [State.setThread_of_ne _ _ hc]; exact ⟨hs', hx', hr'⟩

-- Which threads have been created for the stages, and by which of them.
structure Spawned (p : Params) (s : State) : Prop where
  main    : ∀ i, s.main = .spawn i → (s.members 0).card = i
  spawner : ∀ tid < s.created, ∀ i, (s.threads tid).pc = .spawn i →
    (s.threads tid).index = p.nbThread (s.threads tid).stage - 1 ∧
    (s.members ((s.threads tid).stage + 1)).card = i
  parent  : ∀ k, (s.members (k + 1)).Nonempty → HasParent p s k
  bounded : ∀ k, (s.members k).card ≤ (p.nbThread k).toNat
  inside  : ∀ k, (s.members k).Nonempty → k < p.nbStages

namespace Spawned

theorem init : Spawned p init where
  main    := by simp [ThreadTree.init, State.members]
  spawner := nofun
  parent  := by simp [ThreadTree.init, State.members]
  bounded _ := Nat.zero_le _
  inside _ h := have ⟨_, h⟩ := h; (Nat.not_lt_zero _ (State.mem_members.mp h).left).elim

theorem setStage (h : Spawned p s) : Spawned p (s.setStage k st) :=
  ⟨h.main, h.spawner, h.parent, h.bounded, h.inside⟩

theorem setThread (h : Spawned p s) (hk : t.stage = (s.threads tid).stage)
    (hr : (s.threads tid).pc.rank ≤ t.pc.rank)
    (hx : (s.threads tid).pc.Taken → t.index = (s.threads tid).index)
    (hs : ∀ i, t.pc = .spawn i → t.index = p.nbThread t.stage - 1 ∧ (s.members (t.stage + 1)).card = i) :
    Spawned p (s.setThread tid t) := by
  have hm {j} : (s.setThread tid t).members j = s.members j := State.members_setThread hk
  constructor <;> simp only [hm]
  case main    => exact h.main
  case spawner =>
    intro u hu
    by_cases hc : u = tid
    case pos => subst hc; rwa [State.setThread_self]
    case neg => rw [State.setThread_of_ne _ _ hc]; exact h.spawner u hu
  case parent  => exact fun k hk' => (h.parent k hk').setThread hk hr hx
  case bounded => exact h.bounded
  case inside  => exact h.inside

-- The conditions are the ones on the loop that creates the thread.
theorem pthreadCreate {m : Main}
    (main : ∀ i, m = .spawn i → ((s.pthreadCreate k).members 0).card = i)
    (spawner : ∀ tid < s.created, ∀ i, (s.threads tid).pc = .spawn i →
      (s.threads tid).index = p.nbThread (s.threads tid).stage - 1 ∧
      ((s.pthreadCreate k).members ((s.threads tid).stage + 1)).card = i)
    (parent : ∀ j, k = j + 1 ∨ (s.members (j + 1)).Nonempty → HasParent p s j)
    (bounded : ∀ j, (s.members j).card ≤ (p.nbThread j).toNat)
    (inside : ∀ j, (s.members j).Nonempty → j < p.nbStages) (hs : p.Spawns k (s.members k).card) :
    Spawned p { s.pthreadCreate k with main := m } := by
  constructor
  case main => exact main
  case spawner =>
    intro u hu i hi
    obtain hu | rfl := Nat.lt_succ_iff_lt_or_eq.mp hu
    case inl =>
      have he := State.pthreadCreate_threads (k := k) hu
      simp only [he] at hi ⊢
      exact spawner u hu i hi
    case inr => simp [State.pthreadCreate] at hi
  case parent =>
    intro j hj
    have ⟨u, hu, hp⟩ : HasParent p s j := by
      by_cases hc : k = j + 1
      case pos => exact parent j <| .inl hc
      case neg => exact parent j <| .inr <| State.members_pthreadCreate_of_ne (Ne.symm hc) ▸ hj
    have he := State.pthreadCreate_threads (k := k) hu
    exact ⟨u, Nat.lt_succ_of_lt hu, by simpa only [he]⟩
  case bounded =>
    intro j
    change ((s.pthreadCreate k).members j).card ≤ _
    by_cases hc : j = k
    case pos =>
      subst hc
      have := hs.right
      rw [State.card_members_pthreadCreate]
      omega
    case neg => rw [State.members_pthreadCreate_of_ne hc]; exact bounded j
  case inside =>
    intro j hj
    by_cases hc : j = k
    case pos => exact hc ▸ hs.left
    case neg => exact inside j <| State.members_pthreadCreate_of_ne hc ▸ hj

theorem stepMain (h : Spawned p s) (he : stepMain p s = some s') : Spawned p s' := by
  cases hm : s.main <;> simp only [ThreadTree.stepMain, hm, Option.some.injEq, reduceCtorEq] at he
  case spawn i =>
    split at he <;> cases he
    case isTrue hp =>
      refine pthreadCreate (fun j hj => ?_) (fun u hu j hj => ?_) (fun j hj => ?_) h.bounded h.inside ?_
      · cases hj
        rw [State.card_members_pthreadCreate, h.main i hm]
      · rw [State.members_pthreadCreate_of_ne (Nat.succ_ne_zero _)]
        exact h.spawner u hu j hj
      · exact h.parent j <| hj.resolve_left <| Ne.symm <| Nat.succ_ne_zero j
      · rwa [h.main i hm]
    case isFalse => exact ⟨by rintro _ ⟨⟩, h.spawner, h.parent, h.bounded, h.inside⟩
  case wait k i =>
    split at he
    case isTrue =>
      split at he <;> cases he
      exact ⟨by rintro _ ⟨⟩, h.spawner, h.parent, h.bounded, h.inside⟩
    case isFalse => cases he; exact ⟨by rintro _ ⟨⟩, h.spawner, h.parent, h.bounded, h.inside⟩
  all_goals try split at he
  all_goals cases he
  all_goals exact ⟨by rintro _ ⟨⟩, h.spawner, h.parent, h.bounded, h.inside⟩

theorem threadWorker (hi : Inv s) (h : Spawned p s) (hl : tid < s.created)
    (he : threadWorker p s tid = some s') : Spawned p s' := by
  cases hp : (s.threads tid).pc <;>
    simp only [ThreadTree.threadWorker, hp, Option.some.injEq, reduceCtorEq] at he
  case lock =>
    split at he <;> cases he
    exact setStage <| h.setThread rfl (by simp [hp]) (fun _ => rfl) (by rintro _ ⟨⟩)
  case load =>
    subst he
    exact h.setThread rfl (by simp [hp]) (by simp [hp]) (by rintro _ ⟨⟩)
  case incr | unlock | store | post =>
    subst he
    exact setStage <| h.setThread rfl (by simp [hp]) (fun _ => rfl) (by rintro _ ⟨⟩)
  case doSomething =>
    subst he
    exact h.setThread rfl (by simp [hp]) (fun _ => rfl) (by rintro _ ⟨⟩)
  case test =>
    split at he <;> cases he
    case isFalse => exact h.setThread rfl (by simp [hp]) (fun _ => rfl) (by rintro _ ⟨⟩)
    case isTrue hx =>
      refine setStage <| h.setThread rfl (by simp [hp]) (fun _ => rfl) fun i hi => ?_
      cases hi
      refine ⟨hx, ?_⟩
      rw [Finset.card_eq_zero, ←Finset.not_nonempty_iff_eq_empty]
      intro hn
      obtain ⟨u, hu, hs, hx', hr⟩ := h.parent _ hn
      have hx' := Int.ofNat_inj.mp <| hx'.trans hx.symm
      -- The last thread of a stage to take an index is the only one to spawn the next stage.
      have := hi.eq_of_index hu hl hs ((show 4 ≤ 8 by decide).trans hr) (by simp [hp]) hx'
      simp [this, hp] at hr
  case spawn i =>
    split at he <;> cases he
    case isFalse => exact h.setThread rfl (by simp [hp]) (fun _ => rfl) (by rintro _ ⟨⟩)
    case isTrue hs =>
      obtain ⟨hx, hm⟩ := h.spawner tid hl i hp
      have hk {j} : (s.setThread tid { s.threads tid with pc := .spawn (i + 1) }).members j = s.members j :=
        State.members_setThread rfl
      have hpar {j} (h : HasParent p s j) : HasParent p (s.setThread tid
          { s.threads tid with pc := .spawn (i + 1) }) j :=
        h.setThread rfl (by simp [hp]) (fun _ => rfl)
      refine pthreadCreate (fun j hj => ?_) (fun u hu j hj => ?_) (fun j hj => ?_)
        (fun j => hk ▸ h.bounded j) (fun j => hk ▸ h.inside j) ?_
      · rw [State.members_pthreadCreate_of_ne (Nat.succ_ne_zero _).symm, hk]
        exact h.main j hj
      · by_cases hc : u = tid
        case pos =>
          subst hc
          simp only [State.setThread_self, Thread.Pc.spawn.injEq] at hj ⊢
          rw [State.card_members_pthreadCreate, hk, hm]
          exact ⟨hx, hj⟩
        case neg =>
          simp only [State.setThread_of_ne _ _ hc] at hj ⊢
          obtain ⟨hx', hm'⟩ := h.spawner u hu j hj
          have hs' : (s.threads u).stage ≠ (s.threads tid).stage := by
            intro hs'
            have hx' := Int.ofNat_inj.mp <| hx'.trans <| hs' ▸ hx.symm
            exact hc <| hi.eq_of_index hu hl hs' (by simp [hj]) (by simp [hp]) hx'
          rw [State.members_pthreadCreate_of_ne (by omega), hk]
          exact ⟨hx', hm'⟩
      · obtain hj | hj := hj
        case inl => exact hpar ⟨tid, hl, Nat.succ.inj hj, Nat.succ.inj hj ▸ hx, by simp [hp]⟩
        case inr => exact hpar <| h.parent j <| hk ▸ hj
      · rwa [hk, hm]

end Spawned

namespace Inv

theorem spawned (h : (tree p).ReachableUnder C s) : Inv s ∧ Counted s ∧ Spawned p s := by
  refine h.invariant (I := fun s => Inv s ∧ Counted s ∧ Spawned p s) ⟨init, .init, .init⟩ ?_
  intro s₁ e s₂ ⟨hi, hc, hs⟩ _ he
  refine ⟨hi.step he, ?_⟩
  cases e
  case main => exact ⟨hc.stepMain he, hs.stepMain he⟩
  case thread tid =>
    simp only [tree, ThreadTree.step, Option.ite_none_right_eq_some] at he
    obtain ⟨hl, he⟩ := he
    exact ⟨hc.threadWorker hi hl he, hs.threadWorker hi hl he⟩

-- An index that a thread has taken is one of the indices of its stage.
theorem index_lt (hi : Inv s) (hc : Counted s) (hs : Spawned p s) (hl : tid < s.created)
    (ht : (s.threads tid).pc.Taken) : (s.threads tid).index < p.nbThread (s.threads tid).stage := by
  have hx := (hi.threads tid hl).taken ht
  have hf := Finset.card_filter_le (s.members (s.threads tid).stage) fun u => (s.threads u).pc.Taken
  have hb := hs.bounded (s.threads tid).stage
  rw [hc, State.finished] at hx
  omega

end Inv

end WorkloadKit.ThreadTree
