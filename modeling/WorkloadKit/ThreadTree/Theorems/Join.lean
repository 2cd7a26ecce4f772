import WorkloadKit.ThreadTree.Theorems.Spawn

namespace WorkloadKit.ThreadTree

variable {p : Params} {s s' : State} {e : Event} {k i j : ℕ}

-- When `main` is about to evaluate `stage->ready[i]` for a join, this is a thread of the stage which has
-- not been joined yet.
def JoinsReady (s : State) : Prop :=
  ∀ k i, s.main = .join k i → ∃ tid, (s.stages k).ready i = some tid ∧ tid < s.created ∧
    (s.threads tid).stage = k ∧ tid ∉ s.joined

-- The event does not let a thread post `sem_ready` before all threads with a smaller index have written
-- themselves to `ready`.
def PostsInOrder (s : State) : Event → Prop
  | .main       => True
  | .thread tid => let t := s.threads tid
    t.pc = .post → ∀ j < t.index, (s.stages t.stage).ready j ≠ none

-- There is no gap in `ready` below the index of a thread that has posted `sem_ready`.
def Filled (s : State) : Prop :=
  ∀ k, ∀ i ∈ (s.stages k).posted, ∀ j ≤ i, (s.stages k).ready j ≠ none

theorem stepMain_stages (he : stepMain p s = some s') (k : ℕ) :
    (s'.stages k).ready = (s.stages k).ready ∧ (s'.stages k).posted = (s.stages k).posted := by
  cases hm : s.main <;> simp only [stepMain, hm, Option.some.injEq, reduceCtorEq] at he
  case wait l i =>
    split at he
    case isTrue =>
      split at he <;> cases he
      by_cases hc : k = l <;> simp [hc]
    case isFalse => cases he; exact ⟨rfl, rfl⟩
  all_goals try split at he
  all_goals cases he
  all_goals exact ⟨rfl, rfl⟩

theorem threadWorker_stages (he : threadWorker p s tid = some s') (k : ℕ) :
    (∀ j, (s.stages k).ready j ≠ none → (s'.stages k).ready j ≠ none) ∧
    ∀ i ∈ (s'.stages k).posted, i ∈ (s.stages k).posted ∨
      (s.threads tid).pc = .post ∧ (s.threads tid).stage = k ∧ (s.threads tid).index = i := by
  cases hp : (s.threads tid).pc <;>
    simp only [threadWorker, hp, Option.some.injEq, reduceCtorEq] at he
  case store =>
    subst he
    by_cases hc : k = (s.threads tid).stage
    case neg => simp [hc]
    case pos =>
      subst hc
      refine ⟨fun j h => ?_, by simp⟩
      by_cases hj : j = (s.threads tid).index <;> simp [hj, h]
  case post =>
    subst he
    by_cases hc : k = (s.threads tid).stage
    case neg => exact ⟨by simp [hc], fun i h => .inl <| by simpa [hc] using h⟩
    case pos =>
      subst hc
      refine ⟨by simp, fun i h => ?_⟩
      simpa [or_comm, eq_comm] using h
  case lock | incr | unlock =>
    try split at he
    all_goals cases he
    by_cases hc : k = (s.threads tid).stage
    case pos => subst hc; simp
    case neg => simp [hc]
  case test =>
    split at he <;> cases he
    case isTrue =>
      by_cases hc : k = (s.threads tid).stage + 1
      case pos => subst hc; simp
      case neg => simp [hc]
    case isFalse => simp
  all_goals try split at he
  all_goals cases he
  all_goals exact ⟨fun _ => id, fun _ => .inl⟩

namespace Inv

theorem filled_step (hi : Inv s) (hf : Filled s) (hc : PostsInOrder s e)
    (he : ThreadTree.step p s e = some s') :
    Filled s' := by
  cases e
  case main =>
    intro k
    obtain ⟨hr, hp⟩ := stepMain_stages he k
    rw [hr, hp]
    exact hf k
  case thread tid =>
    simp only [ThreadTree.step, Option.ite_none_right_eq_some] at he
    obtain ⟨ht, he⟩ := he
    intro k i h j hj
    obtain ⟨hr, hp⟩ := threadWorker_stages he k
    refine hr j ?_
    obtain h | ⟨hpc, rfl, rfl⟩ := hp i h
    case inl => exact hf k i h j hj
    case inr =>
      obtain hj | rfl := hj.lt_or_eq
      case inl => exact hc hpc j hj
      case inr =>
        rw [(hi.threads tid ht).stored <| by simp [hpc]]
        exact Option.some_ne_none tid

theorem filled (h : (tree p).ReachableUnder PostsInOrder s) : Filled s := by
  refine (h.invariant (I := fun s => Inv s ∧ Filled s) ⟨init, by simp [Filled, tree, ThreadTree.init]⟩ @?_).right
  rintro _ _ _ ⟨hi, hf⟩ hc he
  exact ⟨hi.step he, hi.filled_step hf hc he⟩

-- As many threads have posted `sem_ready` as `main` has waited for, so that one of them has an index
-- which is not below the one that `main` looks at.
theorem joinsReady (hi : Inv s) (hf : Filled s) : JoinsReady s := by
  intro k i hm
  have hw := hi.waited k (i + 1) <| by simp [hm, Main.waited]
  obtain ⟨j, hj, hij⟩ : ∃ j ∈ (s.stages k).posted, i ≤ j := by
    by_contra! hc
    have hs : (s.stages k).posted ⊆ Finset.range i := fun j hj => Finset.mem_range.mpr <| hc j hj
    have := Finset.card_le_card hs
    rw [Finset.card_range] at this
    omega
  obtain ⟨tid, hr⟩ := Option.ne_none_iff_exists'.mp <| hf k j hj i hij
  obtain ⟨ht, hs, hx, _⟩ := hi.ready k i tid hr
  refine ⟨tid, hr, ht, hs, fun hj => ?_⟩
  obtain ⟨l, m, ⟨_, hs', hx', _⟩, hp⟩ := hi.joined tid hj
  simp only [hm, Main.Past] at hp
  omega

end Inv

-- The first stage is the only one with a thread, and that one takes the smallest index.
theorem postsInOrder_of_single (hp : p.nbStages = 0 ∨ p.nbThreads = 1) (h : (tree p).Reachable s) :
    (tree p).ReachableUnder PostsInOrder s := by
  refine h.mono fun {s₁ e _} h _ he => ?_
  cases e
  case main => trivial
  case thread tid =>
    simp only [tree, step, Option.ite_none_right_eq_some] at he
    intro hpc j hj
    obtain ⟨hi, hc, hs⟩ := Inv.spawned h
    have hx := hi.index_lt hc hs he.left <| by simp [hpc]
    have hk := hs.inside (s₁.threads tid).stage ⟨tid, State.mem_members.mpr ⟨he.left, rfl⟩⟩
    simp only [Params.nbThread] at hx
    omega

-- The state of `main` while it executes `spawn_stage`, if no thread has executed a statement yet.
def spawning (i : ℕ) : State :=
  { init with main := .spawn i, created := i }

theorem spawning_step (hs : 0 < p.nbStages) (hi : i < p.nbThreads) :
    (tree p).step (spawning i) .main = some (spawning (i + 1)) := by
  have hp : p.Spawns 0 i := ⟨hs, by simp [Params.nbThread, hi]⟩
  simp [tree, step, stepMain, spawning, hp, State.pthreadCreate, State.setThread, init]

theorem reachable_spawning (hs : 0 < p.nbStages) (hi : i ≤ p.nbThreads) :
    (tree p).Reachable (spawning i) := by
  induction i
  case zero => exact .init
  case succ i h => exact (h <| by omega).next <| spawning_step hs hi

theorem exec_take (tid : Tid) {t : Thread} (hl : tid < s.created) (ht : s.threads tid = t)
    (hp : t.pc = .doSomething) (hm : (s.stages t.stage).mutex = 1) :
    ∃ s', (tree p).exec s (.replicate 5 (.thread tid)) = some s' ∧ s'.main = s.main ∧
      s'.created = s.created ∧
      s'.threads = Function.update s.threads tid
        { t with pc := .store, index := (s.stages t.stage).exitCount } ∧
      s'.stages t.stage = { s.stages t.stage with exitCount := (s.stages t.stage).exitCount + 1 } := by
  simp [System.exec, tree, step, threadWorker, State.setThread, State.setStage, hl, hp, hm, ht,
    List.replicate]

theorem exec_post {t : Thread} (hl : tid < s.created) (ht : s.threads tid = t) (hp : t.pc = .store) :
    ∃ s', (tree p).exec s (.replicate 2 (.thread tid)) = some s' ∧ s'.main = s.main ∧
      (s'.stages t.stage).semReady = (s.stages t.stage).semReady + 1 ∧
      (s'.stages t.stage).ready = Function.update (s.stages t.stage).ready t.index (some tid) := by
  simp [System.exec, tree, step, threadWorker, State.setThread, State.setStage, hl, hp, ht,
    List.replicate]

theorem exec_join (hm : s.main = .wait k i) (hi : i < p.nbThread k) (hs : 0 < (s.stages k).semReady) :
    ∃ s', (tree p).exec s (.replicate 2 .main) = some s' ∧ s'.main = .join k i ∧
      (s'.stages k).ready = (s.stages k).ready := by
  simp [System.exec, tree, step, stepMain, State.setStage, hm, hi, hs, List.replicate]

theorem exec_spawning (hs : 0 < p.nbStages) :
    (tree p).exec (spawning p.nbThreads) (.replicate 2 .main) =
      some { spawning p.nbThreads with main := .wait 0 0 } := by
  simp [System.exec, tree, step, stepMain, spawning, Params.Spawns, Params.nbThread, hs, List.replicate]

-- The first thread takes its index, and the second one overtakes it before it writes itself to `ready`.
theorem exists_join_unwritten (hs : 0 < p.nbStages) (hn : 2 ≤ p.nbThreads) :
    ∃ s, (tree p).Reachable s ∧ s.main = .join 0 0 ∧ (s.stages 0).ready 0 = none := by
  have h₀ := exec_spawning hs
  let s₀ : State := { spawning p.nbThreads with main := .wait 0 0 }
  have ⟨s₁, h₁, hm₁, hc₁, ht₁, hk₁⟩ := exec_take (p := p) (s := s₀) 0
    (show 0 < p.nbThreads by omega) rfl rfl rfl
  have hc : 1 < s₁.created := hc₁ ▸ hn
  have ht : s₁.threads 1 = { stage := 0, pc := .doSomething, index := 0 } := by rw [ht₁]; rfl
  have ⟨s₂, h₂, hm₂, hc₂, ht₂, hk₂⟩ := exec_take (p := p) 1 hc ht rfl (congrArg Stage.mutex hk₁)
  have hc : 1 < s₂.created := hc₂ ▸ hc
  have ⟨s₃, h₃, hm₃, hs₃, hr₃⟩ := exec_post (p := p) hc (ht₂ ▸ Function.update_self ..) rfl
  have hm : s₃.main = .wait 0 0 := hm₃.trans <| hm₂.trans hm₁
  have ⟨s₄, h₄, hm₄, hr₄⟩ := exec_join (p := p) hm (by simp [Params.nbThread]; omega) (hs₃ ▸ Nat.succ_pos _)
  refine ⟨s₄, ?_, hm₄, ?_⟩
  · exact (reachable_spawning hs le_rfl).exec h₀ |>.exec h₁ |>.exec h₂ |>.exec h₃ |>.exec h₄
  · have hk₁ : s₁.stages 0 = { s₀.stages 0 with exitCount := 1 } := hk₁
    simp only [hr₄, hr₃, hk₂, hk₁]
    rfl

-- What `wait_task` asserts about the elements of `ready` holds in each state of a run in which no thread
-- overtakes another one on its way to `sem_post`. Only a tree in which no two threads can ever run at
-- once leaves no choice about that.
theorem join_ready_iff (p : Params) (hn : 1 ≤ p.nbThreads) :
    ((∀ s, (tree p).Reachable s → JoinsReady s) ↔ p.nbStages = 0 ∨ p.nbThreads = 1) ∧
    ∀ s, (tree p).ReachableUnder PostsInOrder s → JoinsReady s := by
  have hr {s} (h : (tree p).ReachableUnder PostsInOrder s) : JoinsReady s :=
    (Inv.reachableUnder h).joinsReady (Inv.filled h)
  refine ⟨⟨fun h => ?mp, fun hp s h => ?mpr⟩, fun _ => hr⟩
  case mp =>
    by_contra! hc
    have ⟨s, hs, hm, hx⟩ := exists_join_unwritten (by omega) (show 2 ≤ p.nbThreads by omega)
    have ⟨tid, ht, _⟩ := h s hs 0 0 hm
    exact Option.some_ne_none tid <| ht.symm.trans hx
  case mpr => exact hr <| postsInOrder_of_single hp h

theorem join_ready_iff_default :
    ¬∀ s, (tree { nbStages := 4, nbThreads := 4 }).Reachable s → JoinsReady s :=
  fun h => by simpa using (join_ready_iff { nbStages := 4, nbThreads := 4 } (by decide)).left.mp h

-- The second of two threads overtakes the first one.
theorem join_not_ready :
    let p : Params := { nbStages := 1, nbThreads := 2 }
    ∃ es s, (tree p).exec init es = some s ∧ s.main = .join 0 0 ∧ (s.stages 0).ready 0 = none ∧
      ¬JoinsReady s := by
  intro p
  let es : List Event :=
    .replicate 4 .main ++ .replicate 5 (.thread 0) ++ .replicate 7 (.thread 1) ++ .replicate 2 .main
  have he : ((tree p).exec init es).map (fun s => (s.main, (s.stages 0).ready 0)) =
      some (.join 0 0, none) := by
    decide +kernel
  have ⟨s, hs, hc⟩ := Option.map_eq_some_iff.mp he
  have ⟨hm, hr⟩ := Prod.mk.inj hc
  refine ⟨es, s, hs, hm, hr, fun h => ?_⟩
  have ⟨tid, ht, _⟩ := h 0 0 hm
  exact Option.some_ne_none tid <| ht.symm.trans hr

end WorkloadKit.ThreadTree
