import Mathlib.Order.Defs.Unbundled
import Mathlib.Tactic.Common

namespace WorkloadKit

-- A program that works on a state and that may raise an exception, which is given by its message. What
-- has been done to the state before an exception is raised is kept.
abbrev Script (σ α : Type) :=
  EStateM String σ α

namespace Script

-- The state in which a script has ended, normally or by an exception.
def final : EStateM.Result ε σ α → σ
  | .ok _ s | .error _ s => s

-- A script only changes the state in a way that the relation `r` allows, also if it raises.
def Keeps (r : σ → σ → Prop) (m : Script σ α) : Prop :=
  ∀ s, r s (final <| m s)

-- A script that starts in the given state meets one postcondition if it returns, and another one if it
-- raises.
def Ends (m : Script σ α) (s : σ) (ok : α → σ → Prop) (err : σ → Prop) : Prop :=
  match m s with
  | .ok a s    => ok a s
  | .error _ s => err s

variable {σ α β : Type} {r : σ → σ → Prop} {m : Script σ α} {f : α → Script σ β} {s s' : σ}

@[simp]
theorem bind_apply :
    (m >>= f) s = match m s with | .ok a s => f a s | .error e s => .error e s := by
  show EStateM.bind m f s = _
  simp only [EStateM.bind]
  cases m s <;> rfl

@[simp]
theorem pure_apply {a : α} : (pure a : Script σ α) s = .ok a s :=
  rfl

@[simp]
theorem map_apply {g : α → β} :
    (g <$> m) s = match m s with | .ok a s => .ok (g a) s | .error e s => .error e s := by
  rw [map_eq_pure_bind, bind_apply]
  rfl

@[simp]
theorem throw_apply {e : String} : (throw e : Script σ α) s = .error e s :=
  rfl

@[simp]
theorem tryCatch_apply {h : String → Script σ α} :
    (tryCatch m h) s = match m s with | .ok a s => .ok a s | .error e s => h e s := by
  show EStateM.tryCatch m h s = _
  simp only [EStateM.tryCatch, EStateM.Backtrackable.restore]
  cases m s <;> rfl

@[simp]
theorem modify_apply {g : σ → σ} : (modify g : Script σ Unit) s = .ok () (g s) :=
  rfl

@[simp]
theorem get_apply : (get : Script σ σ) s = .ok s s :=
  rfl

namespace Keeps

theorem pure [Std.Refl r] (a : α) : Keeps r (pure a : Script σ α) :=
  fun s => Std.Refl.refl s

theorem throw [Std.Refl r] (e : String) : Keeps r (throw e : Script σ α) :=
  fun s => Std.Refl.refl s

theorem modify {g : σ → σ} (h : ∀ s, r s (g s)) : Keeps r (modify g : Script σ Unit) :=
  h

theorem bind [IsTrans σ r] (hm : Keeps r m) (hf : ∀ a, Keeps r (f a)) : Keeps r (m >>= f) := by
  intro s
  have h := hm s
  rw [bind_apply]
  cases hr : m s
  case ok a s₁ =>
    rw [hr] at h
    exact Trans.trans h (hf a s₁)
  case error =>
    rw [hr] at h
    exact h

-- What a script has done by the time that its result is passed on is not undone.
theorem final_bind [Std.Refl r] (hf : ∀ a, Keeps r (f a)) : r (final <| m s) (final <| (m >>= f) s) := by
  rw [bind_apply]
  cases m s
  case ok a s₁ => exact hf a s₁
  case error   => exact Std.Refl.refl _

theorem tryCatch [IsTrans σ r] {h : String → Script σ α} (hm : Keeps r m) (hh : ∀ e, Keeps r (h e)) :
    Keeps r (tryCatch m h) := by
  intro s
  have h := hm s
  rw [tryCatch_apply]
  cases hr : m s
  case ok =>
    rw [hr] at h
    exact h
  case error e s₁ =>
    rw [hr] at h
    exact Trans.trans h (hh e s₁)

theorem forM [Std.Refl r] [IsTrans σ r] {l : List β} {f : β → Script σ PUnit}
    (h : ∀ b, Keeps r (f b)) : Keeps r (l.forM f) := by
  induction l
  case nil     => exact .pure _
  case cons hi => exact (h _).bind fun _ => hi

theorem ite [Decidable p] {m₁ m₂ : Script σ α} (h₁ : Keeps r m₁) (h₂ : Keeps r m₂) :
    Keeps r (if p then m₁ else m₂) := by
  split
  · exact h₁
  · exact h₂

end Keeps

namespace Ends

variable {ok ok' : α → σ → Prop} {ok₂ : β → σ → Prop} {err err' : σ → Prop}

theorem pure {a : α} (h : ok a s) : Ends (pure a) s ok err :=
  h

theorem modify {ok : Unit → σ → Prop} {g : σ → σ} (h : ok () (g s)) : Ends (modify g) s ok err :=
  h

theorem mono (h : Ends m s ok err) (ho : ∀ a s, ok a s → ok' a s) (he : ∀ s, err s → err' s) :
    Ends m s ok' err' := by
  rw [Ends] at h ⊢
  cases hr : m s <;> rw [hr] at h
  case ok    => exact ho _ _ h
  case error => exact he _ h

-- What raises in the first script is not handled by the second one.
theorem bind (h : Ends m s ok err) (hf : ∀ a s, ok a s → Ends (f a) s ok₂ err') (he : ∀ s, err s → err' s) :
    Ends (m >>= f) s ok₂ err' := by
  rw [Ends] at h ⊢
  rw [bind_apply]
  cases hr : m s <;> rw [hr] at h
  case ok    => exact hf _ _ h
  case error => exact he _ h

theorem tryCatch {h : String → Script σ α} (hm : Ends m s ok err) (ho : ∀ a s, ok a s → ok' a s)
    (hh : ∀ e s, err s → Ends (h e) s ok' err') : Ends (tryCatch m h) s ok' err' := by
  rw [Ends] at hm ⊢
  rw [tryCatch_apply]
  cases hr : m s <;> rw [hr] at hm
  case ok    => exact ho _ _ hm
  case error => exact hh _ _ hm

theorem of_ok {a : α} (h : Ends m s ok err) (hm : m s = .ok a s') : ok a s' := by
  rwa [Ends, hm] at h

theorem of_error {e : String} (h : Ends m s ok err) (hm : m s = .error e s') : err s' := by
  rwa [Ends, hm] at h

end Ends
end Script
end WorkloadKit
