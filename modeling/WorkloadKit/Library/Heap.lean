import Mathlib.Logic.Function.Basic
import Mathlib.Tactic.Common

namespace WorkloadKit

-- What a program does with the blocks of a heap.
inductive Access (α : Type*)
  | alloc (a : α)
  | use (a : α)
  | free (a : α)
  deriving DecidableEq

-- The accesses of a run, the last one of which comes first.
abbrev Log (α : Type*) :=
  List (Access α)

namespace Log

variable {α β : Type*} {log log₁ log₂ : Log α} {a b : α}

def Live (log : Log α) (a : α) : Prop :=
  .alloc a ∈ log ∧ .free a ∉ log

-- Only new blocks are allocated, and only live blocks are used or freed.
inductive Safe : Log α → Prop
  | nil : Safe []
  | alloc {log : Log α} {a : α} : Safe log → .alloc a ∉ log → Safe (.alloc a :: log)
  | use {log : Log α} {a : α} : Safe log → Live log a → Safe (.use a :: log)
  | free {log : Log α} {a : α} : Safe log → Live log a → Safe (.free a :: log)

theorem not_live_nil : ¬Live [] a :=
  fun h => by cases h.left

@[simp]
theorem live_use : Live (.use b :: log) a ↔ Live log a := by
  simp [Live]

@[simp]
theorem live_free : Live (.free b :: log) a ↔ a ≠ b ∧ Live log a := by
  simp only [Live, List.mem_cons, reduceCtorEq, false_or, Access.free.injEq, not_or]
  exact and_left_comm

namespace Safe

theorem tail (h : Safe (log₁ ++ log₂)) : Safe log₂ := by
  induction log₁
  case nil => exact h
  case cons hi => cases h <;> exact hi ‹_›

-- Only what has been allocated is freed.
theorem alloc_of_free (h : Safe log) (hf : .free a ∈ log) : .alloc a ∈ log := by
  induction h
  case nil => cases hf
  case alloc hi => exact List.mem_cons_of_mem _ <| hi <| by simpa using hf
  case use hi => exact List.mem_cons_of_mem _ <| hi <| by simpa using hf
  case free hl hi =>
    refine List.mem_cons_of_mem _ ?_
    rcases List.mem_cons.mp hf with hf | hf
    · exact Access.free.inj hf ▸ hl.left
    · exact hi hf

theorem live_alloc (h : Safe log) (hb : .alloc b ∉ log) :
    Live (.alloc b :: log) a ↔ a = b ∨ Live log a := by
  have hf : .free b ∉ log := mt h.alloc_of_free hb
  simp only [Live, List.mem_cons, Access.alloc.injEq, reduceCtorEq, false_or]
  constructor
  case mp => exact fun ⟨ha, hn⟩ => ha.imp_right (⟨·, hn⟩)
  case mpr =>
    rintro (rfl | ha)
    · exact ⟨.inl rfl, hf⟩
    · exact ⟨.inr ha.left, ha.right⟩

-- A block is freed at most once.
theorem count_free_le [DecidableEq α] (h : Safe log) (a : α) : log.count (.free a) ≤ 1 := by
  induction h
  case nil => simp
  case alloc hi => simpa using hi
  case use hi => simpa using hi
  case free b _ hl hi =>
    by_cases hb : b = a
    case pos => simp [← hb, List.count_eq_zero_of_not_mem hl.right]
    case neg => simpa [hb] using hi

-- A block is not used after it has been freed.
theorem not_use_of_free (h : Safe (log₁ ++ .free a :: log₂)) : .use a ∉ log₁ := by
  induction log₁
  case nil => simp
  case cons e log₁ hi =>
    have hf : .free a ∈ log₁ ++ .free a :: log₂ := by simp
    have hi := hi <| by cases h <;> assumption
    refine List.not_mem_cons_of_ne_of_not_mem ?_ hi
    rintro rfl
    cases h
    case use hl => exact hl.right hf

-- A run of uses.
theorem uses {as : List α} (h : Safe log) (hl : ∀ a ∈ as, Live log a) :
    Safe (as.map .use ++ log) ∧ ∀ a, Live (as.map .use ++ log) a ↔ Live log a := by
  induction as
  case nil => exact ⟨h, fun _ => .rfl⟩
  case cons b as hi =>
    have ⟨hb, hl⟩ := List.forall_mem_cons.mp hl
    have ⟨hs, hi⟩ := hi hl
    exact ⟨hs.use <| (hi b).mpr hb, fun a => live_use.trans <| hi a⟩

end Safe

-- The live blocks are those that some of the pointers hold, and no two of these hold the same block. Null is
-- not a block.
structure Owned (log : Log (Option α)) (held : β → Prop) (ptr : β → Option α) : Prop where
  live  : ∀ p, held p → ptr p ≠ none → Live log (ptr p)
  owner : ∀ a, Live log a → ∃ p, held p ∧ ptr p = a
  inj   : ∀ p q, held p → held q → ptr p ≠ none → ptr p = ptr q → p = q
  null  : ¬Live log none

namespace Owned

variable {log log' : Log (Option α)} {held held' : β → Prop} {ptr : β → Option α} {p : β} {a : α}

theorem congr (h : Owned log held ptr) (hl : ∀ a, Live log' a ↔ Live log a) (hh : ∀ p, held' p ↔ held p) :
    Owned log' held' ptr where
  live p hp hn   := (hl _).mpr <| h.live p ((hh p).mp hp) hn
  owner a ha     := have ⟨p, hp, he⟩ := h.owner a <| (hl a).mp ha; ⟨p, (hh p).mpr hp, he⟩
  inj p q hp hq  := h.inj p q ((hh p).mp hp) ((hh q).mp hq)
  null           := mt (hl _).mp h.null

-- A pointer gives up its block, which is freed.
theorem free (h : Owned log held ptr) (hp : held p) (hn : ptr p ≠ none) (hh : ∀ q, held' q ↔ q ≠ p ∧ held q) :
    Owned (.free (ptr p) :: log) held' ptr where
  live q hq hq'  := by
    have ⟨hne, hq⟩ := (hh q).mp hq
    exact live_free.mpr ⟨fun he => hne <| h.inj q p hq hp hq' he, h.live q hq hq'⟩
  owner b hb     := by
    have ⟨hne, hb⟩ := live_free.mp hb
    have ⟨q, hq, he⟩ := h.owner b hb
    refine ⟨q, (hh q).mpr ⟨?_, hq⟩, he⟩
    rintro rfl
    exact hne he.symm
  inj q r hq hr  := h.inj q r ((hh q).mp hq).right ((hh r).mp hr).right
  null           := fun hb => h.null (live_free.mp hb).right

-- A null pointer does not need to be kept.
theorem drop (h : Owned log held ptr) (hn : ptr p = none) (hh : ∀ q, held' q ↔ q ≠ p ∧ held q) :
    Owned log held' ptr where
  live q hq      := h.live q ((hh q).mp hq).right
  owner b hb     := by
    have ⟨q, hq, he⟩ := h.owner b hb
    refine ⟨q, (hh q).mpr ⟨?_, hq⟩, he⟩
    rintro rfl
    exact h.null <| hn ▸ he ▸ hb
  inj q r hq hr  := h.inj q r ((hh q).mp hq).right ((hh r).mp hr).right
  null           := h.null

variable [DecidableEq β]

-- A pointer that does not hold a block is set to a new one.
theorem alloc (h : Owned log held ptr) (hs : Safe log) (ha : .alloc (some a) ∉ log) (hp : ¬held p)
    (hh : ∀ q, held' q ↔ q = p ∨ held q) :
    Owned (.alloc (some a) :: log) held' (Function.update ptr p <| some a) := by
  have hl {b} : Live (.alloc (some a) :: log) b ↔ b = some a ∨ Live log b := hs.live_alloc ha
  have hne {q} (hq : held q) : q ≠ p := fun he => hp <| he ▸ hq
  have hnl {q} (hq : held q) (hn : ptr q ≠ none) : ptr q ≠ some a := fun he =>
    ha (he ▸ h.live q hq hn).left
  constructor
  case live =>
    intro q hq hn
    rcases (hh q).mp hq with rfl | hq
    · exact hl.mpr <| .inl <| Function.update_self ..
    · rw [Function.update_of_ne <| hne hq] at hn ⊢
      exact hl.mpr <| .inr <| h.live q hq hn
  case owner =>
    intro b hb
    rcases hl.mp hb with rfl | hb
    · exact ⟨p, (hh p).mpr <| .inl rfl, Function.update_self ..⟩
    · have ⟨q, hq, he⟩ := h.owner b hb
      exact ⟨q, (hh q).mpr <| .inr hq, (Function.update_of_ne (hne hq) ..).trans he⟩
  case inj =>
    intro q r hq hr hn he
    rcases (hh q).mp hq with rfl | hq <;> rcases (hh r).mp hr with rfl | hr
    · rfl
    · rw [Function.update_self, Function.update_of_ne <| hne hr] at he
      exact absurd he.symm <| hnl hr <| he ▸ Option.some_ne_none a
    · rw [Function.update_self, Function.update_of_ne <| hne hq] at he
      exact absurd he <| hnl hq <| he ▸ Option.some_ne_none a
    · rw [Function.update_of_ne <| hne hq] at hn he
      rw [Function.update_of_ne <| hne hr] at he
      exact h.inj q r hq hr hn he
  case null => exact fun hb => h.null <| (hl.mp hb).resolve_left nofun

-- A pointer that does not hold a block is set to null, as there is no new one.
theorem fail (h : Owned log held ptr) (hp : ¬held p) (hh : ∀ q, held' q ↔ q = p ∨ held q) :
    Owned log held' (Function.update ptr p none) := by
  have hne {q} (hq : held q) : q ≠ p := fun he => hp <| he ▸ hq
  have hold {q} (hq : held' q) (hn : Function.update ptr p none q ≠ none) : held q := by
    refine ((hh q).mp hq).resolve_left fun he => hn ?_
    rw [he, Function.update_self]
  constructor
  case live =>
    intro q hq hn
    have hq := hold hq hn
    rw [Function.update_of_ne <| hne hq] at hn ⊢
    exact h.live q hq hn
  case owner =>
    intro b hb
    have ⟨q, hq, he⟩ := h.owner b hb
    exact ⟨q, (hh q).mpr <| .inr hq, (Function.update_of_ne (hne hq) ..).trans he⟩
  case inj =>
    intro q r hq hr hn he
    have hq := hold hq hn
    have hr := hold hr <| he ▸ hn
    rw [Function.update_of_ne <| hne hq] at hn he
    rw [Function.update_of_ne <| hne hr] at he
    exact h.inj q r hq hr hn he
  case null => exact h.null

end Owned
end Log
end WorkloadKit
