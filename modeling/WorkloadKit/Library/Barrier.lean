import Mathlib.Data.Fintype.Card
import Mathlib.Data.Finset.Card
import Mathlib.Logic.Function.Basic

namespace WorkloadKit

-- A barrier that can be used again: how many participants have arrived since it was passed the last time,
-- and how many times it has been passed.
structure Barrier where
  arrived    : ℕ
  generation : ℕ

namespace Barrier

def init : Barrier where
  arrived    := 0
  generation := 0

-- The last one of the `n` participants that arrives lets all of them pass. The others wait until the
-- generation in which they have arrived is over.
def arrive (n : ℕ) (b : Barrier) : Barrier :=
  if b.arrived + 1 < n then { b with arrived := b.arrived + 1 } else ⟨0, b.generation + 1⟩

-- The number of times that each of the participants has arrived.
structure Rounds {ι : Type*} [Fintype ι] (b : Barrier) (arrivals : ι → ℕ) : Prop where
  between : ∀ i, arrivals i = b.generation ∨ arrivals i = b.generation + 1
  arrived : b.arrived = (Finset.univ.filter fun i => arrivals i = b.generation + 1).card
  lt_card : b.arrived < Fintype.card ι

namespace Rounds

variable {ι : Type*} [Fintype ι] {b : Barrier} {arrivals : ι → ℕ} {i j : ι}

theorem init [Nonempty ι] : Rounds init fun _ : ι => 0 where
  between _ := .inl rfl
  arrived   := by simp [Barrier.init]
  lt_card   := Fintype.card_pos

-- As the barrier is passed when the last participant arrives, at most the others have arrived.
theorem exists_eq_generation (h : Rounds b arrivals) : ∃ i, arrivals i = b.generation := by
  by_contra hn
  have hu : (Finset.univ.filter fun i => arrivals i = b.generation + 1) = Finset.univ := by
    refine Finset.filter_true_of_mem fun i _ => (h.between i).resolve_left fun hi => hn ⟨i, hi⟩
  have := h.lt_card
  rw [h.arrived, hu, Finset.card_univ] at this
  omega

theorem le (h : Rounds b arrivals) (i : ι) : b.generation ≤ arrivals i := by
  have := h.between i
  omega

theorem le_succ (h : Rounds b arrivals) (i : ι) : arrivals i ≤ b.generation + 1 := by
  have := h.between i
  omega

variable [DecidableEq ι]

theorem filter_update {n : ℕ} :
    (Finset.univ.filter fun j => Function.update arrivals i (n + 1) j = n + 1) =
      insert i (Finset.univ.filter fun j => arrivals j = n + 1) := by
  ext j
  by_cases hj : j = i <;> simp [hj]

theorem arrive (h : Rounds b arrivals) (hi : arrivals i = b.generation) :
    Rounds (b.arrive (Fintype.card ι)) (Function.update arrivals i (b.generation + 1)) := by
  have hc : (insert i <| Finset.univ.filter fun j => arrivals j = b.generation + 1).card =
      b.arrived + 1 := by
    rw [Finset.card_insert_of_notMem (by simp [hi]), h.arrived]
  rw [←filter_update] at hc
  have hb (j : ι) : Function.update arrivals i (b.generation + 1) j = b.generation ∨
      Function.update arrivals i (b.generation + 1) j = b.generation + 1 := by
    by_cases hj : j = i
    case pos => simp [hj]
    case neg => simpa [Function.update_of_ne hj] using h.between j
  rw [Barrier.arrive]
  split
  case isTrue hl  => exact ⟨hb, hc.symm, hl⟩
  case isFalse hl =>
    have hu : (Finset.univ.filter fun j =>
        Function.update arrivals i (b.generation + 1) j = b.generation + 1) = Finset.univ :=
      Finset.eq_univ_of_card _ <| by
        have := h.lt_card
        omega
    have hn (j : ι) : Function.update arrivals i (b.generation + 1) j = b.generation + 1 := by
      have hj := Finset.mem_univ j
      rw [←hu, Finset.mem_filter] at hj
      exact hj.right
    refine ⟨fun j => .inl <| hn j, ?_, Fintype.card_pos_iff.mpr ⟨i⟩⟩
    simp [hn]

-- While somebody has not arrived, the others do not pass.
theorem arrive_generation (h : Rounds b arrivals) (hi : arrivals i = b.generation)
    (hj : arrivals j = b.generation) (hij : j ≠ i) : (b.arrive (Fintype.card ι)).generation = b.generation := by
  have := (h.arrive hi).le j
  rw [Function.update_of_ne hij, hj] at this
  rw [Barrier.arrive] at this ⊢
  split at this
  case isTrue hl  => rw [if_pos hl]
  case isFalse    => exact absurd this <| Nat.not_succ_le_self _

end Rounds

-- The tickets of the participants which wait are the generations in which they have arrived. All the others
-- have arrived in each generation before the current one.
structure Synced {ι : Type*} [Fintype ι] (b : Barrier) (arrivals : ι → ℕ) (ticket : ι → Option ℕ) : Prop
    extends Rounds b arrivals where
  waiting : ∀ i t, ticket i = some t → arrivals i = t + 1
  ready   : ∀ i, ticket i = none → arrivals i = b.generation

namespace Synced

variable {ι : Type*} [Fintype ι] {b : Barrier} {arrivals : ι → ℕ} {ticket : ι → Option ℕ} {i : ι} {t : ℕ}

theorem init [Nonempty ι] : Synced init (fun _ : ι => 0) fun _ => none where
  toRounds      := .init
  waiting _ _ h := nomatch h
  ready _ _     := rfl

variable [DecidableEq ι]

theorem arrive (h : Synced b arrivals ticket) (hi : ticket i = none) :
    Synced (b.arrive (Fintype.card ι)) (Function.update arrivals i (arrivals i + 1))
      (Function.update ticket i (some b.generation)) where
  toRounds := h.ready i hi ▸ h.toRounds.arrive (h.ready i hi)
  waiting  := by
    refine (Function.forall_update_iff ticket fun j ticket =>
      ∀ t, ticket = some t → Function.update arrivals i (arrivals i + 1) j = t + 1).mpr ⟨?_, ?_⟩
    · rintro _ ⟨⟩
      rw [Function.update_self, h.ready i hi]
    · intro j hj t ht
      rw [Function.update_of_ne hj, h.waiting j t ht]
  ready j hj := by
    by_cases hji : j = i
    case pos => simp [hji] at hj
    case neg =>
      rw [Function.update_of_ne hji] at hj ⊢
      rw [h.arrive_generation (h.ready i hi) (h.ready j hj) hji, h.ready j hj]

theorem pass (h : Synced b arrivals ticket) (hi : ticket i = some t) (hg : b.generation ≠ t) :
    Synced b arrivals (Function.update ticket i none) where
  toRounds := h.toRounds
  waiting  := by
    refine (Function.forall_update_iff ticket fun j ticket =>
      ∀ t, ticket = some t → arrivals j = t + 1).mpr ⟨nofun, fun j _ => h.waiting j⟩
  ready    := by
    refine (Function.forall_update_iff ticket fun j ticket =>
      ticket = none → arrivals j = b.generation).mpr ⟨fun _ => ?_, fun j _ => h.ready j⟩
    have := h.waiting i t hi
    have := h.between i
    omega

end Synced

-- How a participant gets on, in terms of its arrivals and its ticket before and after: it does not touch the
-- barrier, it arrives there, or it goes on once the generation in which it has arrived is over.
inductive Move (n : ℕ) (b : Barrier) (p p' : ℕ × Option ℕ) : Barrier → Prop
  | stay     : p' = p → Move n b p p' b
  | arrive   : p.snd = none → p' = (p.fst + 1, some b.generation) → Move n b p p' (b.arrive n)
  | pass (t) : p.snd = some t → p' = (p.fst, none) → b.generation ≠ t → Move n b p p' b

variable {ι α : Type*} [Fintype ι] [DecidableEq ι] {b b' : Barrier} {part : α → ℕ × Option ℕ} {state : ι → α}
  {i : ι} {a : α}

theorem Synced.move (h : b.Synced (fun j => (part (state j)).fst) fun j => (part (state j)).snd)
    (hm : Move (Fintype.card ι) b (part (state i)) (part a) b') :
    b'.Synced (fun j => (part (Function.update state i a j)).fst)
      fun j => (part (Function.update state i a j)).snd := by
  have hf : (fun j => (part (Function.update state i a j)).fst) =
      Function.update (fun j => (part (state j)).fst) i (part a).fst :=
    Function.comp_update (fun a => (part a).fst) state i a
  have hs : (fun j => (part (Function.update state i a j)).snd) =
      Function.update (fun j => (part (state j)).snd) i (part a).snd :=
    Function.comp_update (fun a => (part a).snd) state i a
  rw [hf, hs]
  cases hm with
  | stay hp => rwa [hp, Function.update_eq_self i fun j => (part (state j)).fst,
      Function.update_eq_self i fun j => (part (state j)).snd]
  | arrive ht hp =>
    rw [hp]
    exact h.arrive ht
  | pass t ht hp hg =>
    rw [hp, Function.update_eq_self i fun j => (part (state j)).fst]
    exact h.pass ht hg

end Barrier
end WorkloadKit
