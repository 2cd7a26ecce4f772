import Mathlib.Order.Defs.Unbundled
import Mathlib.Tactic.Common

namespace WorkloadKit

-- A loop is given by what an iteration does in a state: it goes on with another one, it leaves the loop with a
-- result, or its behaviour is undefined.
abbrev Loop (σ ρ : Type*) :=
  σ → Option (σ ⊕ ρ)

namespace Loop

variable {σ ρ : Type*}

-- Executes a number of iterations, if the loop is not left before.
def run (body : Loop σ ρ) : ℕ → σ → Option ρ
  | 0,        _ => none
  | fuel + 1, s =>
    match body s with
    | some (.inl s) => run body fuel s
    | some (.inr r) => some r
    | none          => none

-- The loop terminates with a result.
def Returns (body : Loop σ ρ) (s : σ) (r : ρ) : Prop :=
  ∃ fuel, body.run fuel s = some r

variable {body : Loop σ ρ} {s s' : σ} {r r' : ρ}

theorem returns_of_next (h : body s = some (.inl s')) : body.Returns s r ↔ body.Returns s' r := by
  constructor
  case mp =>
    intro ⟨fuel, hr⟩
    cases fuel
    case zero      => cases hr
    case succ fuel => exact ⟨fuel, by rwa [run, h] at hr⟩
  case mpr => exact fun ⟨fuel, hr⟩ => ⟨fuel + 1, by rwa [run, h]⟩

theorem returns_of_exit (h : body s = some (.inr r)) : body.Returns s r' ↔ r = r' := by
  constructor
  case mp =>
    intro ⟨fuel, hr⟩
    cases fuel
    case zero      => cases hr
    case succ fuel =>
      rw [run, h] at hr
      exact Option.some.inj hr
  case mpr => exact fun hr => ⟨1, by rw [run, h, hr]⟩

variable {I : σ → Prop} {Q : ρ → Prop}

-- What each iteration keeps holds when the loop is left.
theorem Returns.invariant (h : body.Returns s r) (hi : I s)
    (next : ∀ s s', I s → body s = some (.inl s') → I s') (exit : ∀ s r, I s → body s = some (.inr r) → Q r) :
    Q r := by
  have ⟨fuel, hr⟩ := h
  clear h
  induction fuel generalizing s
  case zero          => cases hr
  case succ fuel ih =>
    rw [run] at hr
    split at hr
    case h_1 s' hb => exact ih (next s s' hi hb) hr
    case h_2 r' hb => exact Option.some.inj hr ▸ exit s r' hi hb
    case h_3       => cases hr

-- A loop that is not left in any other way terminates if each iteration makes something smaller.
theorem exists_returns (rank : σ → ℕ)
    (step : ∀ s, I s →
      (∃ s', body s = some (.inl s') ∧ I s' ∧ rank s' < rank s) ∨ ∃ r, body s = some (.inr r) ∧ Q r)
    (hi : I s) : ∃ r, body.Returns s r ∧ Q r := by
  induction hk : rank s using Nat.strongRecOn generalizing s
  case ind k ih =>
    obtain ⟨s', hb, hi, hr⟩ | ⟨r, hb, hq⟩ := step s hi
    case inr => exact ⟨r, (returns_of_exit hb).mpr rfl, hq⟩
    case inl =>
      have ⟨r, hr, hq⟩ := ih _ (hk ▸ hr) hi rfl
      exact ⟨r, (returns_of_next hb).mpr hr, hq⟩

-- A loop that can only be left by an undefined iteration does not terminate with a result.
theorem not_returns (step : ∀ s, I s → (∃ s', body s = some (.inl s') ∧ I s') ∨ body s = none) (hi : I s) :
    ¬body.Returns s r := by
  refine fun h => h.invariant (Q := fun _ => False) hi (fun s s' hi hb => ?_) fun s r hi hb => ?_
  all_goals obtain ⟨s₁, h₁, hi⟩ | hn := step s hi
  case refine_1.inl => exact Sum.inl.inj (Option.some.inj <| h₁.symm.trans hb) ▸ hi
  case refine_1.inr => cases hn.symm.trans hb
  case refine_2.inl => cases h₁.symm.trans hb
  case refine_2.inr => cases hn.symm.trans hb

end Loop
end WorkloadKit
