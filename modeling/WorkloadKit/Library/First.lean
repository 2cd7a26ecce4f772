import Mathlib.Order.Monotone.Basic
import Mathlib.Tactic.Common

namespace WorkloadKit

-- Which element of a list is the first one that meets a condition.
def markFirst (p : α → Bool) (l : List α) : List Bool :=
  l.mapIdx fun i _ => i == l.findIdx p

variable {p q : α → Bool} {l : List α} {a : α}

theorem markFirst_cons_of_pos (h : p a = true) :
    markFirst p (a :: l) = true :: l.map fun _ => false := by
  rw [markFirst, List.mapIdx_eq_iff]
  intro i
  cases i
  case zero => simp [List.findIdx_cons, h]
  case succ =>
    rw [List.getElem?_cons_succ, List.getElem?_map]
    simp [List.findIdx_cons, h]

theorem markFirst_cons_of_neg (h : p a = false) :
    markFirst p (a :: l) = false :: markFirst p l := by
  simp [markFirst, List.findIdx_cons, h]

theorem findIdx_le_of_markFirst_eq (h : markFirst p l = markFirst q l) :
    l.findIdx p ≤ l.findIdx q := by
  by_cases hq : l.findIdx q < l.length
  case pos =>
    have h := congrArg (·[l.findIdx q]?) h
    simp [markFirst, hq] at h
    exact h.ge
  case neg => exact List.findIdx_le_length.trans <| Nat.le_of_not_lt hq

theorem markFirst_eq_iff : markFirst p l = markFirst q l ↔ l.findIdx p = l.findIdx q where
  mp h  := (findIdx_le_of_markFirst_eq h).antisymm <| findIdx_le_of_markFirst_eq h.symm
  mpr h := by simp only [markFirst, h]

-- The first and the last element of a list that meet a condition.
def IsFirst (p : α → Prop) (l : List α) (a : α) : Prop :=
  ∃ l₁ l₂, l = l₁ ++ a :: l₂ ∧ p a ∧ ∀ b ∈ l₁, ¬p b

def IsLast (p : α → Prop) (l : List α) (a : α) : Prop :=
  ∃ l₁ l₂, l = l₁ ++ a :: l₂ ∧ p a ∧ ∀ b ∈ l₂, ¬p b

section

variable {p : α → Prop} [DecidablePred p]

theorem find?_eq_some_iff_isFirst : l.find? (p ·) = some a ↔ IsFirst p l a := by
  rw [List.find?_eq_some_iff_append]
  constructor
  case mp =>
    intro ⟨ha, l₁, l₂, hl, hn⟩
    exact ⟨l₁, l₂, hl, of_decide_eq_true ha, fun b hb => by simpa using hn b hb⟩
  case mpr =>
    intro ⟨l₁, l₂, hl, ha, hn⟩
    exact ⟨decide_eq_true ha, l₁, l₂, hl, fun b hb => by simpa using hn b hb⟩

theorem reverse_find?_eq_some_iff_isLast : l.reverse.find? (p ·) = some a ↔ IsLast p l a := by
  rw [find?_eq_some_iff_isFirst]
  constructor
  case mp =>
    intro ⟨l₁, l₂, hl, ha, hn⟩
    refine ⟨l₂.reverse, l₁.reverse, ?_, ha, fun b hb => hn b <| List.mem_reverse.mp hb⟩
    rw [← l.reverse_reverse, hl]
    simp
  case mpr =>
    intro ⟨l₁, l₂, hl, ha, hn⟩
    refine ⟨l₂.reverse, l₁.reverse, ?_, ha, fun b hb => hn b <| List.mem_reverse.mp hb⟩
    rw [hl]
    simp

theorem find?_eq_none_iff_forall : l.find? (p ·) = none ↔ ∀ a ∈ l, ¬p a := by
  simp

end

-- A dictionary that has been filled from a list has the last of the values that have been stored for a key.
theorem foldl_update_apply {κ : Type*} [DecidableEq κ] (key : α → κ) (l : List α) (dict : κ → Option α)
    (k : κ) :
    l.foldl (fun dict a => Function.update dict (key a) (some a)) dict k =
      (l.reverse.find? (key · = k)).or (dict k) := by
  induction l generalizing dict
  case nil            => rfl
  case cons a l hi =>
    rw [List.foldl_cons, hi, List.reverse_cons, List.find?_append, Option.or_assoc, List.find?_singleton,
      Function.update_apply]
    congr 1
    by_cases h : key a = k
    case pos => simp [h]
    case neg => simp [h, Ne.symm h]

end WorkloadKit
