import Mathlib.Data.Finset.Card
import WorkloadKit.ThreadTree.State

namespace WorkloadKit.ThreadTree

variable {p : Params} {s s' : State} {tid u : Tid} {t t' : Thread} {st st' : Stage} {k i j : ℕ}

namespace Thread.Pc

-- The statements of `thread_worker` in their order.
@[simp]
def rank : Pc → ℕ
  | doSomething => 0
  | lock        => 1
  | load        => 2
  | incr        => 3
  | unlock      => 4
  | store       => 5
  | post        => 6
  | test        => 7
  | spawn _     => 8
  | returned    => 9

-- The thread is between the two operations on `mutex`.
@[simp]
def Holds (pc : Pc) : Prop :=
  2 ≤ pc.rank ∧ pc.rank ≤ 4

-- The thread has incremented `exit_count`.
@[simp]
def Taken (pc : Pc) : Prop :=
  4 ≤ pc.rank

-- The thread has written itself to `ready`.
@[simp]
def Stored (pc : Pc) : Prop :=
  6 ≤ pc.rank

-- The thread has posted `sem_ready`.
@[simp]
def Posted (pc : Pc) : Prop :=
  7 ≤ pc.rank

end Thread.Pc

namespace Thread

structure Inv (st : Stage) (tid : Tid) (t : Thread) : Prop where
  holds  : t.pc.Holds → st.mutex = 0
  loaded : t.pc = .incr → t.index = st.exitCount
  taken  : t.pc.Taken → t.index < st.exitCount
  stored : t.pc.Stored → st.ready t.index = some tid

-- Two threads of one stage neither hold its `mutex` nor have the same index.
structure Apart (t₁ t₂ : Thread) : Prop where
  holds : ¬(t₁.pc.Holds ∧ t₂.pc.Holds)
  index : t₁.pc.Taken → t₂.pc.Taken → t₁.index ≠ t₂.index

theorem Apart.advance {u : Thread} (h : t.Apart u) (hh : t'.pc.Holds → t.pc.Holds)
    (hx : t'.pc.Taken → t.pc.Taken ∧ t'.index = t.index) : t'.Apart u where
  holds h' := h.holds ⟨hh h'.left, h'.right⟩
  index h₁ h₂ := (hx h₁).right ▸ h.index (hx h₁).left h₂

theorem Apart.symm (h : t.Apart t') : t'.Apart t where
  holds hh := h.holds hh.symm
  index h₁ h₂ := (h.index h₂ h₁).symm

theorem Apart.fresh : Apart { stage := k, pc := .doSomething, index := j } t where
  holds h := nomatch h.left.left
  index   := nofun

end Thread

namespace Main

-- How often `main` has waited for `sem_ready` of the stage `k`, unless it is done with that stage.
def waited (k : ℕ) : Main → Option ℕ
  | spawn _                                 => some 0
  | stage j                                 => if j ≤ k then some 0 else none
  | wait j i                                => if j = k then some i else if j < k then some 0 else none
  | print j i | join j i | joining j i _ =>
    if j = k then some (i + 1) else if j < k then some 0 else none
  | undefined | done                        => none

-- Whether the slot `i` of the stage `k` has been used for a join.
def Past (k i : ℕ) : Main → Prop
  | spawn _                      => False
  | stage j                      => k < j
  | wait j l | print j l | join j l => k < j ∨ k = j ∧ i < l
  | joining j l _                => k < j ∨ k = j ∧ i ≤ l
  | undefined | done             => True

end Main

-- The thread `tid` of the stage `k` has taken the index `j` and got as far as the given rank.
structure State.Reached (s : State) (rank : ℕ) (tid : Tid) (k j : ℕ) : Prop where
  created : tid < s.created
  stage   : (s.threads tid).stage = k
  index   : (s.threads tid).index = j
  rank    : rank ≤ (s.threads tid).pc.rank

-- A thread keeps its index once it has been stored.
theorem State.Reached.setThread_setStage (h : s.Reached n u k j) (hn : 6 ≤ n)
    (hk : t.stage = (s.threads tid).stage) (hr : (s.threads tid).pc.rank ≤ t.pc.rank)
    (hx : (s.threads tid).pc.Stored → t.index = (s.threads tid).index) (st : Stage) :
    ((s.setThread tid t).setStage t.stage st).Reached n u k j := by
  have ⟨hl, hs, hj, hn'⟩ := h
  by_cases hc : u = tid
  case pos =>
    subst hc
    refine ⟨hl, ?_, ?_, ?_⟩ <;> simp only [State.setStage_threads, State.setThread_self]
    exacts [hk.trans hs, (hx <| hn.trans hn').trans hj, hn'.trans hr]
  case neg =>
    refine ⟨hl, ?_, ?_, ?_⟩ <;> simp only [State.setStage_threads, State.setThread_of_ne _ _ hc]
    exacts [hs, hj, hn']

structure Inv (s : State) : Prop where
  mutex   : ∀ k, (s.stages k).mutex ≤ 1
  threads : ∀ tid < s.created, (s.threads tid).Inv (s.stages (s.threads tid).stage) tid
  apart   : ∀ tid₁ < s.created, ∀ tid₂ < s.created, tid₁ ≠ tid₂ →
    (s.threads tid₁).stage = (s.threads tid₂).stage → (s.threads tid₁).Apart (s.threads tid₂)
  ready   : ∀ k j tid, (s.stages k).ready j = some tid → s.Reached 6 tid k j
  posted  : ∀ k, ∀ j ∈ (s.stages k).posted, ∃ tid, s.Reached 7 tid k j
  waited  : ∀ k, ∀ w ∈ s.main.waited k, (s.stages k).semReady + w = (s.stages k).posted.card
  joined  : ∀ tid ∈ s.joined, ∃ k j, s.Reached 6 tid k j ∧ s.main.Past k j

namespace Inv

theorem init : Inv init where
  mutex _ := le_rfl
  threads := nofun
  apart   := nofun
  ready   := nofun
  posted  := nofun
  waited _ := by simp [ThreadTree.init, Main.waited]
  joined  := nofun

theorem setThread_setStage (hi : Inv s) (ht : tid < s.created) (hk : t.stage = (s.threads tid).stage)
    (hr : (s.threads tid).pc.rank ≤ t.pc.rank)
    (hx : (s.threads tid).pc.Stored → t.index = (s.threads tid).index)
    (mutex : st.mutex ≤ 1)
    (self : t.Inv st tid)
    (others : ∀ u < s.created, u ≠ tid → (s.threads u).stage = t.stage →
      (s.threads u).Inv st u ∧ t.Apart (s.threads u))
    (ready : ∀ j u, st.ready j = some u → (s.stages t.stage).ready j = some u ∨
      u = tid ∧ t.index = j ∧ t.pc.Stored)
    (posted : ∀ j ∈ st.posted, j ∈ (s.stages t.stage).posted ∨ j = t.index ∧ t.pc.Posted)
    (waited : st.semReady + (s.stages t.stage).posted.card =
      (s.stages t.stage).semReady + st.posted.card) :
    Inv ((s.setThread tid t).setStage t.stage st) := by
  have hkeep {n u k j} (hn : 6 ≤ n) (h : s.Reached n u k j) := h.setThread_setStage hn hk hr hx st
  constructor
  case mutex =>
    intro k
    by_cases hc : k = t.stage
    case pos => simpa [hc]
    case neg => simpa [hc] using hi.mutex k
  case threads =>
    intro u hu
    by_cases hc : u = tid
    case pos => simpa [hc]
    case neg =>
      by_cases hc' : (s.threads u).stage = t.stage
      case pos => simpa [hc, hc'] using (others u hu hc hc').left
      case neg => simpa [hc, hc'] using hi.threads u hu
  case apart =>
    intro u₁ h₁ u₂ h₂ hn he
    by_cases hc₁ : u₁ = tid
    case pos =>
      subst hc₁
      simp only [State.setStage_threads, State.setThread_self, State.setThread_of_ne _ _ hn.symm] at *
      exact (others u₂ h₂ hn.symm he.symm).right
    case neg =>
      by_cases hc₂ : u₂ = tid
      case pos =>
        subst hc₂
        simp only [State.setStage_threads, State.setThread_self, State.setThread_of_ne _ _ hn] at *
        exact (others u₁ h₁ hn he).right.symm
      case neg =>
        simp only [State.setStage_threads, State.setThread_of_ne _ _ hc₁,
          State.setThread_of_ne _ _ hc₂] at *
        exact hi.apart u₁ h₁ u₂ h₂ hn he
  case ready =>
    intro k j u hu
    by_cases hc : k = t.stage
    case pos =>
      subst hc
      rw [State.setStage_self] at hu
      obtain h | ⟨rfl, hj, hp⟩ := ready j u hu
      case inl => exact hkeep le_rfl <| hi.ready _ _ _ h
      case inr => exact ⟨by simpa, by simp, by simpa, by simpa⟩
    case neg => exact hkeep le_rfl <| hi.ready _ _ _ <| by simpa [hc] using hu
  case posted =>
    intro k j hj
    have hold (h : j ∈ (s.stages k).posted) :=
      (hi.posted k j h).imp fun _ => hkeep <| Nat.le_succ 6
    by_cases hc : k = t.stage
    case pos =>
      subst hc
      rw [State.setStage_self] at hj
      obtain h | ⟨rfl, hp⟩ := posted j hj
      case inl => exact hold h
      case inr => exact ⟨tid, by simpa, by simp, by simp, by simpa⟩
    case neg => exact hold <| by simpa [hc] using hj
  case waited =>
    intro k w hw
    have := hi.waited k w hw
    by_cases hc : k = t.stage
    case pos => subst hc; rw [State.setStage_self]; omega
    case neg => simpa [hc]
  case joined =>
    intro u hu
    have ⟨k, j, h, hm⟩ := hi.joined u hu
    exact ⟨k, j, hkeep le_rfl h, hm⟩

theorem setThread (hi : Inv s) (ht : tid < s.created) (hk : t.stage = (s.threads tid).stage)
    (hr : (s.threads tid).pc.rank ≤ t.pc.rank)
    (hx : (s.threads tid).pc.Stored → t.index = (s.threads tid).index)
    (self : t.Inv (s.stages t.stage) tid)
    (others : ∀ u < s.created, u ≠ tid → (s.threads u).stage = t.stage → t.Apart (s.threads u)) :
    Inv (s.setThread tid t) := by
  have he : (s.setThread tid t).setStage t.stage (s.stages t.stage) = s.setThread tid t := by
    simp [State.setStage, State.setThread]
  exact he ▸ hi.setThread_setStage ht hk hr hx (hi.mutex t.stage) self
    (fun u hu hn hs => ⟨hs ▸ hi.threads u hu, others u hu hn hs⟩) (fun _ _ => .inl) (fun _ => .inl) rfl

-- The statements of `main` and the calls of `spawn_stage` do not change what the threads share.
theorem setStage (hi : Inv s) (st : Stage) (hm : st.mutex = (s.stages k).mutex)
    (hc : st.exitCount = (s.stages k).exitCount) (hr : st.ready = (s.stages k).ready)
    (hp : st.posted = (s.stages k).posted) (m : Main)
    (hw : ∀ j, ∀ w ∈ m.waited j, j ≠ k ∧ w ∈ s.main.waited j ∨
      j = k ∧ ∃ v ∈ s.main.waited k, st.semReady + w = (s.stages k).semReady + v)
    (hj : ∀ j l, s.main.Past j l → m.Past j l) :
    Inv { s.setStage k st with main := m } := by
  have hmut j : ((s.setStage k st).stages j).mutex = (s.stages j).mutex := by
    by_cases h : j = k <;> simp [h, hm]
  have hcount j : ((s.setStage k st).stages j).exitCount = (s.stages j).exitCount := by
    by_cases h : j = k <;> simp [h, hc]
  have hready j : ((s.setStage k st).stages j).ready = (s.stages j).ready := by
    by_cases h : j = k <;> simp [h, hr]
  have hposted j : ((s.setStage k st).stages j).posted = (s.stages j).posted := by
    by_cases h : j = k <;> simp [h, hp]
  constructor
  case mutex   => intro j; simpa only [hmut] using hi.mutex j
  case threads =>
    intro u hu
    have ⟨hh, hl, ht, hs⟩ := hi.threads u hu
    constructor <;> simpa only [State.setStage_threads, hmut, hcount, hready]
  case apart   => exact hi.apart
  case ready   =>
    intro j l u h
    have ⟨hl, hs, hx, hn⟩ := hi.ready j l u (by simpa only [hready] using h)
    exact ⟨hl, hs, hx, hn⟩
  case posted  =>
    intro j l h
    have ⟨u, hl, hs, hx, hn⟩ := hi.posted j l (by simpa only [hposted] using h)
    exact ⟨u, hl, hs, hx, hn⟩
  case waited =>
    intro j w h
    obtain ⟨hn, hv⟩ | ⟨rfl, v, hv, he⟩ := hw j w h
    case inl => simpa [hn] using hi.waited j w hv
    case inr => simpa [he, hp] using hi.waited j v hv
  case joined =>
    intro u hu
    have ⟨j, l, ⟨hl, hs, hx, hn⟩, hm⟩ := hi.joined u hu
    exact ⟨j, l, ⟨hl, hs, hx, hn⟩, hj j l hm⟩

theorem setSpawns (hi : Inv s) (n : ℕ) : Inv (s.setStage k { s.stages k with spawns := n }) := by
  refine hi.setStage { s.stages k with spawns := n } rfl rfl rfl rfl s.main ?_ fun _ _ => id
  intro j w h
  by_cases hc : j = k
  case pos => subst hc; exact .inr ⟨rfl, w, h, rfl⟩
  case neg => exact .inl ⟨hc, h⟩

theorem pthreadCreate (hi : Inv s) (k : ℕ) : Inv (s.pthreadCreate k) := by
  have hself : (s.pthreadCreate k).threads s.created = { stage := k, pc := .doSomething, index := 0 } :=
    State.setThread_self ..
  have hne {u} (h : u < s.created) : (s.pthreadCreate k).threads u = s.threads u :=
    State.setThread_of_ne _ _ h.ne
  have hkeep {n u k' j} (h : s.Reached n u k' j) : (s.pthreadCreate k).Reached n u k' j := by
    have ⟨hl, hs, hj, hn⟩ := h
    refine ⟨Nat.lt_succ_of_lt hl, ?_, ?_, ?_⟩ <;> rw [hne hl]
    exacts [hs, hj, hn]
  constructor
  case mutex => exact hi.mutex
  case threads =>
    intro u hu
    obtain h | rfl := Nat.lt_succ_iff_lt_or_eq.mp hu
    case inl => rw [hne h]; exact hi.threads u h
    case inr => rw [hself]; exact ⟨nofun, nofun, nofun, nofun⟩
  case apart =>
    intro u₁ h₁ u₂ h₂ hn he
    obtain h₁ | rfl := Nat.lt_succ_iff_lt_or_eq.mp h₁
    case inr => rw [hself]; exact .fresh
    case inl =>
      obtain h₂ | rfl := Nat.lt_succ_iff_lt_or_eq.mp h₂
      case inr => rw [hself]; exact Thread.Apart.fresh.symm
      case inl =>
        rw [hne h₁, hne h₂] at *
        exact hi.apart u₁ h₁ u₂ h₂ hn he
  case ready  => exact fun j l u h => hkeep <| hi.ready j l u h
  case posted => exact fun j l h => (hi.posted j l h).imp fun _ => hkeep
  case waited => exact hi.waited
  case joined =>
    intro u hu
    have ⟨j, l, h, hm⟩ := hi.joined u hu
    exact ⟨j, l, hkeep h, hm⟩

theorem setPc (hi : Inv s) (ht : tid < s.created) {pc : Thread.Pc}
    (hr : (s.threads tid).pc.rank ≤ pc.rank) (hh : pc.Holds → (s.threads tid).pc.Holds)
    (hl : pc ≠ .incr) (htk : pc.Taken → (s.threads tid).pc.Taken)
    (hst : pc.Stored → (s.threads tid).pc.Stored) :
    Inv (s.setThread tid { s.threads tid with pc }) := by
  have hi' := hi.threads tid ht
  refine hi.setThread ht rfl hr (fun _ => rfl) ?_ fun u hu hn hs => ?_
  · exact ⟨hi'.holds ∘ hh, hl.elim, hi'.taken ∘ htk, hi'.stored ∘ hst⟩
  · exact (hi.apart tid ht u hu hn.symm hs.symm).advance hh fun h => ⟨htk h, rfl⟩

-- The other threads of a stage, as seen by a thread that makes a step.
theorem apart_tid (hi : Inv s) (ht : tid < s.created) (hu : u < s.created) (hn : u ≠ tid)
    (hs : (s.threads u).stage = (s.threads tid).stage) : (s.threads tid).Apart (s.threads u) :=
  hi.apart tid ht u hu hn.symm hs.symm

theorem threads_stage (hi : Inv s) (hu : u < s.created) (hs : (s.threads u).stage = (s.threads tid).stage) :
    (s.threads u).Inv (s.stages (s.threads tid).stage) u :=
  hs ▸ hi.threads u hu

-- As the mutex is free, nobody is in the critical section.
theorem lock (hi : Inv s) (ht : tid < s.created) (hp : (s.threads tid).pc = .lock)
    (he : threadWorker p s tid = some s') : Inv s' := by
  simp only [ThreadTree.threadWorker, hp] at he
  split at he <;> cases he
  case isTrue hm =>
    have := hi.mutex (s.threads tid).stage
    have hfree {u} (hu : u < s.created) (hs : (s.threads u).stage = (s.threads tid).stage) :
        ¬(s.threads u).pc.Holds := by
      intro h
      have := (hi.threads_stage hu hs).holds h
      omega
    refine hi.setThread_setStage ht rfl (by simp [hp]) (fun _ => rfl) (by simp only; omega) ?_ ?_
      (fun _ _ => .inl) (fun _ => .inl) rfl
    · exact ⟨fun _ => by simp only; omega, nofun, by simp, by simp⟩
    · intro u hu hn hs
      exact ⟨{ hi.threads_stage hu hs with holds := fun h => (hfree hu hs h).elim },
        fun h => hfree hu hs h.right, by simp⟩

theorem load (hi : Inv s) (ht : tid < s.created) (hp : (s.threads tid).pc = .load)
    (he : threadWorker p s tid = some s') : Inv s' := by
  have hh := (hi.threads tid ht).holds
  simp only [ThreadTree.threadWorker, hp, Option.some.injEq] at he
  subst he
  refine hi.setThread ht rfl (by simp [hp]) (by simp [hp]) ?_ ?_
  · exact ⟨fun _ => hh <| by simp [hp], fun _ => rfl, by simp, by simp⟩
  · intro u hu hn hs
    exact (hi.apart_tid ht hu hn hs).advance (by simp [hp]) (by simp)

-- The index that is taken is larger than all that have been taken before.
theorem incr (hi : Inv s) (ht : tid < s.created) (hp : (s.threads tid).pc = .incr)
    (he : threadWorker p s tid = some s') : Inv s' := by
  have ⟨hh, hl, _, _⟩ := hi.threads tid ht
  simp only [ThreadTree.threadWorker, hp, Option.some.injEq] at he
  subst he
  have hl := hl hp
  refine hi.setThread_setStage ht rfl (by simp [hp]) (fun _ => rfl) (hi.mutex _) ?_ ?_
    (fun _ _ => .inl) (fun _ => .inl) rfl
  · exact ⟨fun _ => hh <| by simp [hp], nofun, fun _ => Nat.lt_succ_self _, by simp⟩
  · intro u hu hn hs
    have ha := hi.apart_tid ht hu hn hs
    have ho := hi.threads_stage hu hs
    have hf : ¬(s.threads u).pc.Holds := fun h => ha.holds ⟨by simp [hp], h⟩
    have hlt : (s.threads u).pc.Taken → (s.threads u).index < (s.threads tid).index :=
      fun h => hl ▸ ho.taken h
    exact ⟨{ ho with
        loaded := fun h => (hf <| by simp [h]).elim
        taken  := fun h => Nat.lt_succ_of_lt <| hlt h },
      fun h => hf h.right, fun _ h => (hlt h).ne'⟩

theorem unlock (hi : Inv s) (ht : tid < s.created) (hp : (s.threads tid).pc = .unlock)
    (he : threadWorker p s tid = some s') : Inv s' := by
  have ⟨hh, _, htk, _⟩ := hi.threads tid ht
  simp only [ThreadTree.threadWorker, hp, Option.some.injEq] at he
  subst he
  have hh := hh <| by simp [hp]
  refine hi.setThread_setStage ht rfl (by simp [hp]) (fun _ => rfl) (by simp [hh]) ?_ ?_
    (fun _ _ => .inl) (fun _ => .inl) rfl
  · exact ⟨by simp, nofun, fun _ => htk <| by simp [hp], by simp⟩
  · intro u hu hn hs
    have ha := hi.apart_tid ht hu hn hs
    exact ⟨{ hi.threads_stage hu hs with holds := fun h => (ha.holds ⟨by simp [hp], h⟩).elim },
      ha.advance (by simp) (by simp [hp])⟩

-- Nobody else stores to the same element.
theorem store (hi : Inv s) (ht : tid < s.created) (hp : (s.threads tid).pc = .store)
    (he : threadWorker p s tid = some s') : Inv s' := by
  have htk := (hi.threads tid ht).taken
  simp only [ThreadTree.threadWorker, hp, Option.some.injEq] at he
  subst he
  refine hi.setThread_setStage ht rfl (by simp [hp]) (fun _ => rfl) (hi.mutex _) ?_ ?_ ?_
    (fun _ => .inl) rfl
  · exact ⟨by simp, nofun, fun _ => htk <| by simp [hp], by simp⟩
  · intro u hu hn hs
    have ha := hi.apart_tid ht hu hn hs
    have ho := hi.threads_stage hu hs
    refine ⟨{ ho with stored := fun h => ?_ }, ha.advance (by simp) (by simp [hp])⟩
    have hx := ha.index (by simp [hp]) <| (show 4 ≤ 6 by decide).trans h
    simpa [Function.update_of_ne hx.symm] using ho.stored h
  · intro j u hu
    by_cases hc : j = (s.threads tid).index
    case pos => subst hc; exact .inr ⟨by simpa [eq_comm] using hu, rfl, by simp⟩
    case neg => exact .inl <| by simpa [hc] using hu

theorem post (hi : Inv s) (ht : tid < s.created) (hp : (s.threads tid).pc = .post)
    (he : threadWorker p s tid = some s') : Inv s' := by
  have ⟨_, _, htk, hst⟩ := hi.threads tid ht
  simp only [ThreadTree.threadWorker, hp, Option.some.injEq] at he
  subst he
  have hx : (s.threads tid).index ∉ (s.stages (s.threads tid).stage).posted := by
    intro hc
    have ⟨u, hu, hs, hj, hr⟩ := hi.posted _ _ hc
    have hn : u ≠ tid := by
      rintro rfl
      simp [hp] at hr
    exact (hi.apart_tid ht hu hn hs).index (by simp [hp]) ((show 4 ≤ 7 by decide).trans hr) hj.symm
  refine hi.setThread_setStage ht rfl (by simp [hp]) (fun _ => rfl) (hi.mutex _) ?_ ?_
    (fun _ _ => .inl) ?_ ?_
  · exact ⟨by simp, nofun, fun _ => htk <| by simp [hp], fun _ => hst <| by simp [hp]⟩
  · intro u hu hn hs
    exact ⟨{ hi.threads_stage hu hs with }, (hi.apart_tid ht hu hn hs).advance (by simp) (by simp [hp])⟩
  · intro j hj
    exact (Finset.mem_insert.mp hj).symm.imp id fun h => ⟨h, by simp⟩
  · simp only [Finset.card_insert_of_notMem hx]
    omega

theorem threadWorker (hi : Inv s) (ht : tid < s.created) (he : threadWorker p s tid = some s') :
    Inv s' := by
  cases hp : (s.threads tid).pc
  case lock     => exact hi.lock ht hp he
  case load     => exact hi.load ht hp he
  case incr     => exact hi.incr ht hp he
  case unlock   => exact hi.unlock ht hp he
  case store    => exact hi.store ht hp he
  case post     => exact hi.post ht hp he
  case returned => simp [ThreadTree.threadWorker, hp] at he
  -- The other statements are not about what the threads of a stage share.
  case doSomething =>
    simp only [ThreadTree.threadWorker, hp, Option.some.injEq] at he
    subst he
    exact hi.setPc ht (by simp [hp]) (by simp) nofun (by simp) (by simp)
  case test =>
    simp only [ThreadTree.threadWorker, hp] at he
    split at he <;> cases he
    case isTrue =>
      refine setSpawns (k := (s.threads tid).stage + 1) ?_ _
      exact hi.setPc ht (by simp [hp]) (by simp) nofun (by simp [hp]) (by simp [hp])
    case isFalse => exact hi.setPc ht (by simp [hp]) (by simp) nofun (by simp [hp]) (by simp [hp])
  case spawn i =>
    simp only [ThreadTree.threadWorker, hp] at he
    split at he <;> cases he
    case isTrue =>
      refine pthreadCreate ?_ _
      exact hi.setPc ht (by simp [hp]) (by simp) nofun (by simp [hp]) (by simp [hp])
    case isFalse => exact hi.setPc ht (by simp [hp]) (by simp) nofun (by simp [hp]) (by simp [hp])

theorem setJoined (hi : Inv s) (m : Main) (tids : List Tid)
    (hw : ∀ j, ∀ w ∈ m.waited j, w ∈ s.main.waited j) (hj : ∀ j l, s.main.Past j l → m.Past j l)
    (ht : ∀ u ∈ tids, u ∈ s.joined ∨ ∃ j l, s.Reached 6 u j l ∧ m.Past j l) :
    Inv { s with main := m, joined := tids } where
  mutex   := hi.mutex
  threads := hi.threads
  apart   := hi.apart
  ready j l u h :=
    have ⟨hl, hs, hx, hn⟩ := hi.ready j l u h
    ⟨hl, hs, hx, hn⟩
  posted j l h :=
    have ⟨u, hl, hs, hx, hn⟩ := hi.posted j l h
    ⟨u, hl, hs, hx, hn⟩
  waited j w h := hi.waited j w <| hw j w h
  joined u h := by
    obtain h | ⟨j, l, ⟨hl, hs, hx, hn⟩, hp⟩ := ht u h
    case inl =>
      have ⟨j, l, ⟨hl, hs, hx, hn⟩, hp⟩ := hi.joined u h
      exact ⟨j, l, ⟨hl, hs, hx, hn⟩, hj j l hp⟩
    case inr => exact ⟨j, l, ⟨hl, hs, hx, hn⟩, hp⟩

theorem setMain (hi : Inv s) (m : Main) (hw : ∀ j, ∀ w ∈ m.waited j, w ∈ s.main.waited j)
    (hj : ∀ j l, s.main.Past j l → m.Past j l) : Inv { s with main := m } :=
  hi.setJoined m s.joined hw hj fun _ => .inl

theorem stepMain (hi : Inv s) (he : stepMain p s = some s') : Inv s' := by
  cases hm : s.main <;> simp only [ThreadTree.stepMain, hm, Option.some.injEq, reduceCtorEq] at he
  case spawn i =>
    split at he <;> cases he
    case isTrue  => exact (hi.pthreadCreate 0).setMain _ (by simp [hm, Main.waited]) (by simp [hm, Main.Past])
    case isFalse => exact hi.setMain _ (by simp [hm, Main.waited]) (by simp [hm, Main.Past])
  case stage k =>
    subst he
    split
    case isTrue =>
      refine hi.setMain _ (fun j w h => ?_) ?_
      · simp only [hm, Main.waited, Option.mem_def] at h ⊢
        grind
      · grind [Main.Past]
    case isFalse => exact hi.setMain _ nofun (fun _ _ _ => trivial)
  case wait k i =>
    split at he
    case isTrue =>
      split at he <;> cases he
      case isTrue hs =>
        refine hi.setStage { s.stages k with semReady := (s.stages k).semReady - 1 } rfl rfl rfl rfl
          _ (fun j w h => ?_) (by simp [hm, Main.Past])
        simp only [hm, Main.waited, Option.mem_def] at h ⊢
        grind
    case isFalse =>
      cases he
      refine hi.setMain _ (fun j w h => ?_) ?_
      · simp only [hm, Main.waited, Option.mem_def] at h ⊢
        grind
      · simp only [hm, Main.Past]
        grind
  case print k i =>
    subst he
    exact hi.setMain _ (by simp [hm, Main.waited]) (by simp [hm, Main.Past])
  case join k i =>
    split at he <;> cases he
    case h_1 tid hr =>
      refine hi.setJoined _ _ (by simp [hm, Main.waited]) (by simp only [hm, Main.Past]; grind) ?_
      intro u hu
      obtain h | h := List.mem_append.mp hu
      case inl => exact .inl h
      case inr =>
        obtain rfl := List.mem_singleton.mp h
        exact .inr ⟨k, i, hi.ready k i u hr, .inr ⟨rfl, le_rfl⟩⟩
    case h_2 => exact hi.setMain _ nofun (fun _ _ _ => trivial)
  case joining k i tid =>
    split at he <;> cases he
    refine hi.setMain _ (by simp [hm, Main.waited]) ?_
    simp only [hm, Main.Past]
    grind

theorem step (hi : Inv s) (he : step p s e = some s') : Inv s' := by
  cases e
  case main => exact hi.stepMain he
  case thread tid =>
    simp only [ThreadTree.step, Option.ite_none_right_eq_some] at he
    exact hi.threadWorker he.left he.right

theorem reachableUnder (h : (tree p).ReachableUnder C s) : Inv s :=
  h.invariant init fun hi _ he => hi.step he

end Inv
end WorkloadKit.ThreadTree
