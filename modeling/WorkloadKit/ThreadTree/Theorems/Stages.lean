import Mathlib.Algebra.Order.BigOperators.Group.Finset
import Mathlib.Algebra.BigOperators.Group.Finset.Basic
import WorkloadKit.ThreadTree.Theorems.Spawn

namespace WorkloadKit.ThreadTree

variable {p : Params} {s s' : State} {tid u : Tid} {t : Thread} {st : Stage} {k i j : ℕ}

-- All threads of a stage have incremented `exit_count`.
def AllFinished (p : Params) (s : State) (k : ℕ) : Prop :=
  ((s.finished k).card : ℤ) = p.nbThread k ∧ s.finished k = s.members k

-- No more threads have to be created for a stage.
def Complete (p : Params) (s : State) (k : ℕ) : Prop :=
  ¬p.Spawns k (s.members k).card

-- The calls of `spawn_stage`, and the stages for which its loop has ended.
structure Staged (p : Params) (s : State) : Prop where
  spawns : ∀ k, (s.stages (k + 1)).spawns ≤ 1
  parent : ∀ k, 0 < (s.stages (k + 1)).spawns → HasParent p s k
  main   : (∀ i, s.main ≠ .spawn i) → Complete p s 0
  last   : ∀ tid < s.created, (s.threads tid).pc = .returned →
    (s.threads tid).index = p.nbThread (s.threads tid).stage - 1 → Complete p s ((s.threads tid).stage + 1)

namespace Staged

theorem init : Staged p init where
  spawns _ := Nat.zero_le _
  parent _ := by simp [ThreadTree.init]
  main     := by simp [ThreadTree.init]
  last     := nofun

theorem setMain (h : Staged p s) (m : Main) (hm : (∀ i, m ≠ .spawn i) → Complete p s 0) :
    Staged p { s with main := m } :=
  ⟨h.spawns, h.parent, hm, h.last⟩

theorem setStage (h : Staged p s) (hs : st.spawns = (s.stages k).spawns) : Staged p (s.setStage k st) := by
  have hs (j : ℕ) : ((s.setStage k st).stages j).spawns = (s.stages j).spawns := by
    by_cases hc : j = k
    case pos => rw [hc, State.setStage_self, hs]
    case neg => rw [State.setStage_of_ne _ _ hc]
  exact ⟨fun j => hs _ ▸ h.spawns j, fun j hj => h.parent j <| hs _ ▸ hj, h.main, h.last⟩

-- The call of `spawn_stage` by the thread that has taken the last index.
theorem setSpawns (h : Staged p s) (hz : (s.stages (k + 1)).spawns = 0) (hp : HasParent p s k)
    (hs : st.spawns = (s.stages (k + 1)).spawns + 1) : Staged p (s.setStage (k + 1) st) where
  spawns j := by
    by_cases hc : j + 1 = k + 1
    case pos => rw [hc, State.setStage_self]; omega
    case neg => rw [State.setStage_of_ne _ _ hc]; exact h.spawns j
  parent j hj := by
    by_cases hc : j + 1 = k + 1
    case pos => exact Nat.succ.inj hc ▸ hp
    case neg => rw [State.setStage_of_ne _ _ hc] at hj; exact h.parent j hj
  main := h.main
  last := h.last

theorem setThread (h : Staged p s) (hk : t.stage = (s.threads tid).stage)
    (hr : (s.threads tid).pc.rank ≤ t.pc.rank)
    (hx : (s.threads tid).pc.Taken → t.index = (s.threads tid).index)
    (hl : t.pc = .returned → t.index = p.nbThread t.stage - 1 → Complete p s (t.stage + 1)) :
    Staged p (s.setThread tid t) := by
  have hm (j : ℕ) : Complete p (s.setThread tid t) j ↔ Complete p s j := by
    rw [Complete, Complete, State.members_setThread hk]
  refine ⟨h.spawns, fun j hj => (h.parent j hj).setThread hk hr hx, fun hn => (hm _).mpr <| h.main hn, ?_⟩
  intro u hu
  by_cases hc : u = tid
  case pos =>
    subst hc
    rw [State.setThread_self]
    exact fun hp hi => (hm _).mpr <| hl hp hi
  case neg =>
    rw [State.setThread_of_ne _ _ hc]
    exact fun hp hi => (hm _).mpr <| h.last u hu hp hi

theorem pthreadCreate (h : Staged p s) (hs : p.Spawns k (s.members k).card) (m : Main)
    (hm : (∀ i, m ≠ .spawn i) → Complete p (s.pthreadCreate k) 0) :
    Staged p { s.pthreadCreate k with main := m } where
  spawns := h.spawns
  parent j hj := by
    have ⟨u, hu, hp⟩ := h.parent j hj
    have he := State.pthreadCreate_threads (k := k) hu
    exact ⟨u, Nat.lt_succ_of_lt hu, by simpa only [he]⟩
  main := hm
  last u hu hp hi := by
    obtain hu | rfl := Nat.lt_succ_iff_lt_or_eq.mp hu
    case inr => simp [State.pthreadCreate] at hp
    case inl =>
      have he := State.pthreadCreate_threads (k := k) hu
      simp only [he] at hp hi ⊢
      have hc := h.last u hu hp hi
      have hk : (s.threads u).stage + 1 ≠ k := by
        rintro rfl
        exact hc hs
      change ¬p.Spawns _ ((s.pthreadCreate k).members _).card
      rwa [State.members_pthreadCreate_of_ne hk]

theorem stepMain (h : Staged p s) (hs : Spawned p s) (he : stepMain p s = some s') : Staged p s' := by
  cases hm : s.main <;> simp only [ThreadTree.stepMain, hm, Option.some.injEq, reduceCtorEq] at he
  case spawn i =>
    split at he <;> cases he
    case isTrue hp  => exact h.pthreadCreate (by rwa [hs.main i hm]) _ (by simp)
    case isFalse hp => exact h.setMain _ fun _ => by rwa [Complete, hs.main i hm]
  case wait k i =>
    have hc := h.main <| by simp [hm]
    split at he
    case isTrue =>
      split at he <;> cases he
      refine setMain (setStage h ?_) _ fun _ => hc
      rfl
    case isFalse => cases he; exact h.setMain _ fun _ => hc
  all_goals
    have hc := h.main <| by simp [hm]
    try split at he
  all_goals cases he
  all_goals exact ⟨h.spawns, h.parent, fun _ => hc, h.last⟩

theorem threadWorker (hi : Inv s) (hs : Spawned p s) (h : Staged p s) (hl : tid < s.created)
    (he : threadWorker p s tid = some s') : Staged p s' := by
  cases hp : (s.threads tid).pc <;>
    simp only [ThreadTree.threadWorker, hp, Option.some.injEq, reduceCtorEq] at he
  case doSomething | load =>
    subst he
    exact h.setThread rfl (by simp [hp]) (by simp [hp]) (by rintro ⟨⟩)
  case lock =>
    split at he <;> cases he
    exact setStage (h.setThread rfl (by simp [hp]) (fun _ => rfl) (by rintro ⟨⟩)) rfl
  case incr | unlock | store | post =>
    subst he
    exact setStage (h.setThread rfl (by simp [hp]) (fun _ => rfl) (by rintro ⟨⟩)) rfl
  case test =>
    split at he <;> cases he
    case isFalse hx => exact h.setThread rfl (by simp [hp]) (fun _ => rfl) fun _ he => absurd he hx
    case isTrue hx =>
      have hz : (s.stages ((s.threads tid).stage + 1)).spawns = 0 := by
        by_contra hz
        obtain ⟨u, hu, hk, hx', hr⟩ := h.parent _ <| Nat.pos_of_ne_zero hz
        have he := hi.eq_of_index hu hl hk ((show 4 ≤ 8 by decide).trans hr) (by simp [hp])
          (Int.ofNat_inj.mp <| hx'.trans hx.symm)
        simp [he, hp] at hr
      refine setSpawns (h.setThread rfl (by simp [hp]) (fun _ => rfl) (by rintro ⟨⟩)) hz ?_ rfl
      exact ⟨tid, hl, by simp, by simpa using hx, by simp⟩
  case spawn i =>
    split at he <;> cases he
    case isTrue hc =>
      obtain ⟨_, hm⟩ := hs.spawner tid hl i hp
      let s₁ := s.setThread tid { s.threads tid with pc := .spawn (i + 1) }
      have h₁ : Staged p s₁ := h.setThread rfl (by simp [hp]) (fun _ => rfl) (by rintro ⟨⟩)
      have hk {j} : s₁.members j = s.members j := State.members_setThread rfl
      refine h₁.pthreadCreate (by rwa [hk, hm]) s₁.main fun hn => ?_
      rw [Complete, State.members_pthreadCreate_of_ne (Nat.succ_ne_zero _).symm, hk]
      exact h.main hn
    case isFalse hc =>
      obtain ⟨_, hm⟩ := hs.spawner tid hl i hp
      exact h.setThread rfl (by simp [hp]) (fun _ => rfl) fun _ _ => by rwa [Complete, hm]

end Staged

namespace Inv

theorem staged (h : (tree p).ReachableUnder C s) : Inv s ∧ Counted s ∧ Spawned p s ∧ Staged p s := by
  refine h.invariant (I := fun s => Inv s ∧ Counted s ∧ Spawned p s ∧ Staged p s)
    ⟨init, .init, .init, .init⟩ ?_
  intro s₁ e s₂ ⟨hi, hc, hs, ht⟩ _ he
  refine ⟨hi.step he, ?_⟩
  cases e
  case main => exact ⟨hc.stepMain he, hs.stepMain he, ht.stepMain hs he⟩
  case thread tid =>
    simp only [tree, ThreadTree.step, Option.ite_none_right_eq_some] at he
    obtain ⟨hl, he⟩ := he
    exact ⟨hc.threadWorker hi hl he, hs.threadWorker hi hl he, ht.threadWorker hi hs hl he⟩

-- A thread that has called `spawn_stage` has taken the last one of the indices, one for each thread.
theorem allFinished (hi : Inv s) (hc : Counted s) (hs : Spawned p s) (hp : HasParent p s k) :
    AllFinished p s k := by
  have ⟨tid, hl, hk, hx, hr⟩ := hp
  have hx' := (hi.threads tid hl).taken <| (show 4 ≤ 8 by decide).trans hr
  have hb := hs.bounded k
  have hf : (s.finished k).card ≤ (s.members k).card := Finset.card_filter_le ..
  rw [hk, hc] at hx'
  refine ⟨by omega, Finset.eq_of_subset_of_card_le (Finset.filter_subset ..) (by omega)⟩

-- The threads of a stage that have incremented `exit_count` have taken all indices below it.
theorem exists_index (hi : Inv s) (hc : Counted s) (hj : j < (s.finished k).card) :
    ∃ tid ∈ s.finished k, (s.threads tid).index = j := by
  have hs : (s.finished k).image (fun tid => (s.threads tid).index) = Finset.range (s.finished k).card := by
    refine Finset.eq_of_subset_of_card_le ?subset ?card
    case subset =>
      intro x hx
      obtain ⟨tid, hm, rfl⟩ := Finset.mem_image.mp hx
      have ⟨hm, ht⟩ := State.mem_finished.mp hm
      have ⟨hl, hk⟩ := State.mem_members.mp hm
      have hx := (hi.threads tid hl).taken ht
      rwa [hk, hc, ←Finset.mem_range] at hx
    case card =>
      rw [Finset.card_range, Finset.card_image_of_injOn]
      intro u hu v hv he
      have ⟨hu, htu⟩ := State.mem_finished.mp hu
      have ⟨hv, htv⟩ := State.mem_finished.mp hv
      have ⟨hu, hku⟩ := State.mem_members.mp hu
      have ⟨hv, hkv⟩ := State.mem_members.mp hv
      exact hi.eq_of_index hu hv (hku.trans hkv.symm) htu htv he
  have hm : j ∈ (s.finished k).image fun tid => (s.threads tid).index := hs ▸ Finset.mem_range.mpr hj
  exact Finset.mem_image.mp hm

-- By induction on the stages: the last thread of a stage has seen to it that the next one is complete.
theorem card_members (hi : Inv s) (hc : Counted s) (hs : Spawned p s) (ht : Staged p s)
    (hm : ∀ i, s.main ≠ .spawn i) (hr : ∀ tid < s.created, (s.threads tid).pc = .returned)
    (hk : k < p.nbStages) : (s.members k).card = p.nbThreads - k := by
  have hb (k) := hs.bounded k
  simp only [Params.nbThread] at hb
  induction k
  case zero =>
    have hc := ht.main hm
    simp only [Complete, Params.Spawns, Params.nbThread, hk, true_and] at hc
    have := hb 0
    omega
  case succ k hi' =>
    have hk' := hi' (by omega)
    have := hb (k + 1)
    by_cases hn : p.nbThreads ≤ k
    case pos => omega
    case neg =>
      have hf : s.finished k = s.members k := by
        refine Finset.filter_true_of_mem fun tid hm => ?_
        simp [hr tid (State.mem_members.mp hm).left]
      have ⟨tid, hm, hx⟩ := hi.exists_index hc (j := p.nbThreads - k - 1) (k := k) (by rw [hf]; omega)
      have ⟨hl, hk'⟩ := State.mem_members.mp (State.mem_finished.mp hm).left
      have hl := ht.last tid hl (hr tid hl) (by rw [hx, hk', Params.nbThread]; omega)
      simp only [hk', Complete, Params.Spawns, Params.nbThread, hk, true_and] at hl
      omega

end Inv

theorem Spawned.created_eq_sum (hs : Spawned p s) :
    s.created = ∑ k ∈ Finset.range p.nbStages, (s.members k).card := by
  have h := Finset.card_eq_sum_card_fiberwise (s := Finset.range s.created)
    (t := Finset.range p.nbStages) (f := fun tid => (s.threads tid).stage) ?_
  · rwa [Finset.card_range] at h
  · intro tid hl
    have hl := Finset.mem_range.mp hl
    exact Finset.mem_range.mpr <| hs.inside _ ⟨tid, State.mem_members.mpr ⟨hl, rfl⟩⟩

-- The stages run one after the other, although nothing but the last index makes them do so.
theorem stages_in_order (p : Params) (h : (tree p).Reachable s) :
    (∀ tid < s.created, (s.threads tid).pc.Taken →
      (s.threads tid).index < p.nbThread (s.threads tid).stage ∧
      ∀ u < s.created, (s.threads u).stage = (s.threads tid).stage → (s.threads u).pc.Taken →
        (s.threads u).index = (s.threads tid).index → u = tid) ∧
    (∀ k, (s.stages (k + 1)).spawns ≤ 1 ∧ (0 < (s.stages (k + 1)).spawns → AllFinished p s k)) ∧
    (∀ tid < s.created, ∀ k, (s.threads tid).stage = k + 1 → AllFinished p s k) ∧
    ((∀ i, s.main ≠ .spawn i) → (∀ tid < s.created, (s.threads tid).pc = .returned) →
      s.created = ∑ k ∈ Finset.range p.nbStages, (p.nbThreads - k)) := by
  have ⟨hi, hc, hs, ht⟩ := Inv.staged h
  refine ⟨fun tid hl hp => ⟨hi.index_lt hc hs hl hp, ?index⟩, fun k => ⟨ht.spawns k, ?spawned⟩,
    ?stage, ?count⟩
  case index   => exact fun u hu hk hu' hx => hi.eq_of_index hu hl hk hu' hp hx
  case spawned => exact fun hp => hi.allFinished hc hs <| ht.parent k hp
  case stage   =>
    intro tid hl k hk
    exact hi.allFinished hc hs <| hs.parent k ⟨tid, State.mem_members.mpr ⟨hl, hk⟩⟩
  case count =>
    intro hm hr
    rw [hs.created_eq_sum]
    exact Finset.sum_congr rfl fun k hk => hi.card_members hc hs ht hm hr <| Finset.mem_range.mp hk

-- Two threads of the first stage and one of the second.
theorem stages_in_order_two :
    let p : Params := { nbStages := 2, nbThreads := 2 }
    ∃ es s, (tree p).exec init es = some s ∧ s.created = 2 + 1 ∧ (s.stages 1).spawns ≤ 1 := by
  intro p
  let es : List Event :=
    .replicate 3 .main ++ .replicate 8 (.thread 0) ++ .replicate 10 (.thread 1) ++ .replicate 9 (.thread 2)
  have he : ((tree p).exec init es).map (fun s => (s.main, s.created, (s.threads 0).pc, (s.threads 1).pc,
      (s.threads 2).pc)) = some (.stage 0, 3, .returned, .returned, .returned) := by
    decide +kernel
  have ⟨s, hs, hc⟩ := Option.map_eq_some_iff.mp he
  simp only [Prod.mk.injEq] at hc
  have ⟨_, hn, _, hr⟩ := stages_in_order p <| .of_exec hs
  refine ⟨es, s, hs, hr (by simp [hc]) fun tid hl => ?_, (hn 0).left⟩
  obtain rfl | rfl | rfl : tid = 0 ∨ tid = 1 ∨ tid = 2 := by omega
  all_goals simp [hc]

end WorkloadKit.ThreadTree
