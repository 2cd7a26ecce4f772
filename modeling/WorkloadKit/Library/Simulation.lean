import WorkloadKit.Library.System

namespace WorkloadKit

variable {σ α β ε δ ζ ℓ : Type*}

namespace System

-- What can be seen of an execution, where a label says what can be seen of a step.
def trace (sys : System σ ε) (label : σ → ε → Option ℓ) (s : σ) : List ε → List ℓ
  | []      => []
  | e :: es => (label s e).toList ++ ((sys.step s e).elim [] (sys.trace label · es))

variable {sys : System σ ε} {label : σ → ε → Option ℓ} {s s' : σ} {es es' : List ε}

theorem trace_append (he : sys.exec s es = some s') :
    sys.trace label s (es ++ es') = sys.trace label s es ++ sys.trace label s' es' := by
  induction es generalizing s
  case nil        => exact Option.some.inj he ▸ rfl
  case cons hi    =>
    have ⟨_, hs, he⟩ := exec_cons_eq_some.mp he
    simp [trace, hs, hi he]

theorem trace_singleton {e : ε} : sys.trace label s [e] = (label s e).toList := by
  cases h : sys.step s e <;> simp [trace, h]

end System

-- Each step of the concrete system is matched by some steps of the abstract one, of which the same can be
-- seen.
structure Simulation (con : System σ ε) (abs : System α δ) (label : σ → ε → Option ℓ)
    (label' : α → δ → Option ℓ) (R : σ → α → Prop) : Prop where
  init : R con.init abs.init
  step : ∀ {s a e s'}, R s a → con.step s e = some s' →
    ∃ ds a', abs.exec a ds = some a' ∧ abs.trace label' a ds = (label s e).toList ∧ R s' a'

namespace Simulation

variable {con : System σ ε} {mid : System β ζ} {abs : System α δ} {label : σ → ε → Option ℓ}
  {label₁ : β → ζ → Option ℓ} {label' : α → δ → Option ℓ} {R : σ → α → Prop} {R₁ : σ → β → Prop}
  {R₂ : β → α → Prop} {s s' : σ} {a : α} {es : List ε}

theorem exec (h : Simulation con abs label label' R) (hr : R s a) (he : con.exec s es = some s') :
    ∃ ds a', abs.exec a ds = some a' ∧ abs.trace label' a ds = con.trace label s es ∧ R s' a' := by
  induction es generalizing s a
  case nil => exact ⟨[], a, rfl, rfl, Option.some.inj he ▸ hr⟩
  case cons hi =>
    have ⟨_, hs, he⟩ := System.exec_cons_eq_some.mp he
    have ⟨ds₁, a₁, h₁, ht₁, hr₁⟩ := h.step hr hs
    have ⟨ds₂, a₂, h₂, ht₂, hr₂⟩ := hi hr₁ he
    refine ⟨ds₁ ++ ds₂, a₂, System.exec_append_eq_some.mpr ⟨a₁, h₁, h₂⟩, ?_, hr₂⟩
    rw [System.trace_append h₁, ht₁, ht₂, System.trace, hs]
    rfl

-- Everything that can be seen of a run of the concrete system can be seen of a run of the abstract one.
theorem trace_eq (h : Simulation con abs label label' R) (he : con.exec con.init es = some s) :
    ∃ ds a, abs.exec abs.init ds = some a ∧ abs.trace label' abs.init ds = con.trace label con.init es ∧
      R s a :=
  h.exec h.init he

theorem trans (h₁ : Simulation con mid label label₁ R₁) (h₂ : Simulation mid abs label₁ label' R₂) :
    Simulation con abs label label' fun s a => ∃ b, R₁ s b ∧ R₂ b a where
  init := ⟨_, h₁.init, h₂.init⟩
  step := by
    rintro s a e s' ⟨b, hr₁, hr₂⟩ hs
    have ⟨_, b', he₁, ht₁, hr₁⟩ := h₁.step hr₁ hs
    have ⟨ds, a', he₂, ht₂, hr₂⟩ := h₂.exec hr₂ he₁
    exact ⟨ds, a', he₂, ht₂.trans ht₁, b', hr₁, hr₂⟩

-- A step is matched by no step if nothing can be seen of it.
theorem stutter {e : ε} (hl : label s e = none) (hr : R s' a) :
    ∃ ds a', abs.exec a ds = some a' ∧ abs.trace label' a ds = (label s e).toList ∧ R s' a' :=
  ⟨[], a, rfl, by rw [hl]; rfl, hr⟩

-- A step is matched by a single step.
theorem single {e : ε} {d : δ} {a' : α} (hs : abs.step a d = some a') (hl : label' a d = label s e)
    (hr : R s' a') : ∃ ds a', abs.exec a ds = some a' ∧ abs.trace label' a ds = (label s e).toList ∧ R s' a' :=
  ⟨[d], a', System.exec_cons_eq_some.mpr ⟨a', hs, rfl⟩, System.trace_singleton.trans <| by rw [hl], hr⟩

end Simulation
end WorkloadKit
