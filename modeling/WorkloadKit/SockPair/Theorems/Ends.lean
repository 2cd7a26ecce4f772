import Mathlib.Tactic.Common
import WorkloadKit.SockPair.State

namespace WorkloadKit.SockPair

variable {s s' : State} {e : Event} {arrivals : List Client} {k : ℕ} {x : End}

-- The descriptors are the two ends of one connection.
def State.Paired (s : State) : Prop :=
  ∃ k, s.fd = some (⟨k, .client⟩, ⟨k, .server⟩)

-- No other client connects before the connector.
def Undisturbed (s : State) (e : Event) : Prop :=
  e = .client → s.connector.isSome

-- The statements up to `connect`, and those up to `accept`.
def Pc.unconnected : Pc → Bool
  | .accept               => false
  | .checkSize            => false
  | .closeListener        => false
  | .getsocknameConnector => false
  | .store                => false
  | .returned _           => false
  | _                     => true

def Pc.unaccepted (pc : Pc) : Bool :=
  pc = .accept || pc.unconnected

-- The connector has connected as one of the clients, and the first connection is the one that is accepted.
structure Invariant (s : State) : Prop where
  connector   : ∀ x, s.connector = some x ↔ x.side = .client ∧ s.arrivals[x.connection]? = some .connector
  acceptor    : ∀ x, s.acceptor = some x → x = ⟨0, .server⟩
  pending     : s.pc.unaccepted = true → s.pending = List.range s.arrivals.length
  unconnected : s.pc.unconnected = true → s.connector = none
  stored      : s.pc = .returned 0 → ∃ x y, s.connector = some x ∧ s.acceptor = some y ∧ s.fd = some (x, y)

theorem getElem?_append_other :
    (arrivals ++ [.other])[k]? = some .connector ↔ arrivals[k]? = some .connector := by
  rw [List.getElem?_append]
  split
  case isTrue => rfl
  case isFalse hk =>
    rw [List.getElem?_eq_none (not_lt.mp hk)]
    refine iff_of_false (fun h => ?_) nofun
    simp [List.getElem?_singleton] at h

theorem getElem?_append_connector (h : ∀ k : ℕ, arrivals[k]? ≠ some Client.connector) :
    (arrivals ++ [.connector])[k]? = some .connector ↔ k = arrivals.length := by
  rw [List.getElem?_append]
  split
  case isTrue hk  => exact iff_of_false (h k) hk.ne
  case isFalse hk =>
    rw [List.getElem?_singleton]
    split
    case isTrue h₀  => exact iff_of_true rfl <| by omega
    case isFalse h₀ => exact iff_of_false nofun <| by omega

theorem arrive_pending {c : Client} (h : s.pending = List.range s.arrivals.length) :
    (s.arrive c).pending = List.range (s.arrive c).arrivals.length := by
  simp only [State.arrive, List.length_append, List.length_singleton, List.range_succ, h]

-- What a step does to the connections that have been made.
theorem arrivals_step (hs : step s e = some s') :
    s'.arrivals = s.arrivals ∧ e ≠ .client ∨ s'.arrivals = s.arrivals ++ [.connector] ∧ e ≠ .client ∨
    s'.arrivals = s.arrivals ++ [.other] ∧ e = .client := by
  cases e
  case client =>
    simp only [step] at hs
    split at hs
    case isTrue =>
      obtain rfl := Option.some.inj hs
      exact .inr <| .inr ⟨rfl, rfl⟩
    case isFalse => cases hs
  case fail =>
    simp only [step, stepFail] at hs
    split at hs
    case h_4 =>
      obtain rfl := Option.some.inj hs
      exact .inl ⟨rfl, nofun⟩
    all_goals cases hs
  case ok =>
    cases hpc : s.pc
    all_goals simp only [step, stepOk, hpc] at hs
    case connect =>
      obtain rfl := Option.some.inj hs
      exact .inr <| .inl ⟨rfl, nofun⟩
    case accept =>
      split at hs
      case h_1 => cases hs
      case h_2 =>
        obtain rfl := Option.some.inj hs
        exact .inl ⟨rfl, nofun⟩
    case store =>
      split at hs
      case h_1 =>
        obtain rfl := Option.some.inj hs
        exact .inl ⟨rfl, nofun⟩
      case h_2 => cases hs
    case returned => cases hs
    all_goals
      obtain rfl := Option.some.inj hs
      exact .inl ⟨rfl, nofun⟩

theorem first_step {c : Client} (hs : step s e = some s') (h : s.arrivals[0]? = some c) :
    s'.arrivals[0]? = some c := by
  have hl := (List.getElem?_eq_some_iff.mp h).fst
  obtain ⟨ha, _⟩ | ⟨ha, _⟩ | ⟨ha, _⟩ := arrivals_step hs
  all_goals rw [ha]
  case inl => exact h
  all_goals exact (List.getElem?_append_left hl).trans h

namespace Invariant

theorem init : Invariant init where
  connector x := iff_of_false nofun fun h => by simp [SockPair.init] at h
  acceptor    := nofun
  pending _   := rfl
  unconnected := fun _ => rfl
  stored      := nofun

-- Before the connector has connected, all connections are by others.
theorem ne_connector (h : Invariant s) (hc : s.connector = none) (k : ℕ) :
    s.arrivals[k]? ≠ some .connector := by
  intro hk
  have := (h.connector ⟨k, .client⟩).mpr ⟨rfl, hk⟩
  rw [hc] at this
  cases this

-- A step that is not about the connections.
theorem move (h : Invariant s) (hc : s'.connector = s.connector) (ha : s'.acceptor = s.acceptor)
    (hs : s'.arrivals = s.arrivals)
    (hp : s'.pc.unaccepted = true → s.pc.unaccepted = true ∧ s'.pending = s.pending)
    (hu : s'.pc.unconnected = true → s.pc.unconnected = true) (hr : s'.pc ≠ .returned 0) : Invariant s' where
  connector   := hc ▸ hs ▸ h.connector
  acceptor    := ha ▸ h.acceptor
  pending h₀  := (hp h₀).right.trans <| hs ▸ h.pending (hp h₀).left
  unconnected := fun h₀ => hc ▸ h.unconnected (hu h₀)
  stored      := fun h₀ => absurd h₀ hr

theorem step_client (h : Invariant s) : Invariant (s.arrive .other) where
  connector x := (h.connector x).trans <| and_congr_right fun _ => getElem?_append_other.symm
  acceptor    := h.acceptor
  pending h₀  := arrive_pending <| h.pending h₀
  unconnected := h.unconnected
  stored      := h.stored

theorem step_connect (h : Invariant s) (hpc : s.pc = .connect) :
    Invariant { s.arrive .connector with pc := .accept, connector := some ⟨s.arrivals.length, .client⟩ } where
  connector x := by
    have hc := h.unconnected <| by rw [hpc]; rfl
    have hk := getElem?_append_connector (k := x.connection) <| h.ne_connector hc
    simp only [State.arrive, hk, Option.some.injEq]
    cases x
    simp only [End.mk.injEq, eq_comm, and_comm]
  acceptor    := h.acceptor
  pending _   := arrive_pending <| h.pending <| by rw [hpc]; rfl
  unconnected := nofun
  stored      := nofun

-- The queue begins with the first connection that has been made.
theorem step_accept {conn : ℕ} {pending : List ℕ} (h : Invariant s) (hpc : s.pc = .accept)
    (hp : s.pending = conn :: pending) :
    Invariant { s with pc := .checkSize, pending, acceptor := some ⟨conn, .server⟩ } where
  connector   := h.connector
  acceptor x hx := by
    have hr := h.pending <| by rw [hpc]; rfl
    have h₀ : conn = 0 := by
      cases hl : s.arrivals.length
      case zero => simp [hl, hp] at hr
      case succ =>
        rw [hl, hp, List.range_succ_eq_map] at hr
        exact (List.cons.inj hr).left
    exact h₀ ▸ (Option.some.inj hx).symm
  pending     := nofun
  unconnected := nofun
  stored      := nofun

theorem step_ok (h : Invariant s) (hs : stepOk s = some s') : Invariant s' := by
  cases hpc : s.pc
  all_goals simp only [stepOk, hpc] at hs
  case connect =>
    obtain rfl := Option.some.inj hs
    exact h.step_connect hpc
  case accept =>
    split at hs
    case h_1 => cases hs
    case h_2 conn pending hp =>
      obtain rfl := Option.some.inj hs
      exact h.step_accept hpc hp
  case store =>
    split at hs
    case h_1 x y hx hy =>
      obtain rfl := Option.some.inj hs
      exact { h with pending := nofun, unconnected := nofun, stored := fun _ => ⟨x, y, hx, hy, rfl⟩ }
    case h_2 => cases hs
  case returned => cases hs
  case checkSize | closeListener | getsocknameConnector =>
    obtain rfl := Option.some.inj hs
    exact h.move rfl rfl rfl nofun nofun nofun
  all_goals
    obtain rfl := Option.some.inj hs
    exact h.move rfl rfl rfl (fun _ => ⟨by rw [hpc]; rfl, rfl⟩) (fun _ => by rw [hpc]; rfl) nofun

theorem step_fail (h : Invariant s) (hs : stepFail s = some s') : Invariant s' := by
  rw [stepFail] at hs
  split at hs
  case h_4 =>
    obtain rfl := Option.some.inj hs
    exact h.move rfl rfl rfl nofun nofun fun h₀ => absurd (Pc.returned.inj h₀) (by decide)
  all_goals cases hs

theorem step (h : Invariant s) (hs : step s e = some s') : Invariant s' := by
  cases e
  case ok     => exact h.step_ok hs
  case fail   => exact h.step_fail hs
  case client =>
    rw [SockPair.step] at hs
    split at hs
    case isTrue  => exact Option.some.inj hs ▸ h.step_client
    case isFalse => cases hs

end Invariant

theorem invariant (h : sockpair.Reachable s) : Invariant s :=
  h.invariant .init fun hi _ hs => hi.step hs

-- The descriptors are paired if and only if the connector is the first one to connect.
theorem Invariant.paired_iff_first (h : Invariant s) (hr : s.pc = .returned 0) :
    s.Paired ↔ s.arrivals[0]? = some .connector := by
  have ⟨x, y, hx, hy, hf⟩ := h.stored hr
  obtain rfl := h.acceptor y hy
  have ⟨hs, hc⟩ := (h.connector x).mp hx
  constructor
  case mp =>
    intro ⟨k, hk⟩
    rw [hf] at hk
    have ⟨hk, h₀⟩ := Prod.mk.inj <| Option.some.inj hk
    obtain rfl : 0 = k := (End.mk.inj h₀).left
    rw [hk] at hc
    exact hc
  case mpr =>
    intro h₀
    have := (h.connector ⟨0, .client⟩).mpr ⟨rfl, h₀⟩
    exact ⟨0, hf.trans <| by rw [Option.some.inj <| hx.symm.trans this]⟩

-- As long as nobody else connects before the connector, nobody else is the first one.
theorem first_of_undisturbed (h : sockpair.ReachableUnder Undisturbed s) : s.arrivals[0]? ≠ some .other := by
  refine (h.invariant (I := fun s => Invariant s ∧ s.arrivals[0]? ≠ some .other) ⟨.init, by decide⟩ ?_).right
  intro s₁ e s₂ ⟨hi, ho⟩ hc hs
  refine ⟨hi.step hs, fun h₂ => ?_⟩
  obtain ⟨ha, _⟩ | ⟨ha, _⟩ | ⟨ha, he⟩ := arrivals_step hs
  case inl => exact ho <| ha ▸ h₂
  case inr.inl =>
    rw [ha] at h₂
    cases hl : s₁.arrivals
    case nil  => simp [hl] at h₂
    case cons => exact ho <| by simpa [hl] using h₂
  case inr.inr =>
    -- The list is not empty, as the connector is in it.
    have ⟨x, hx⟩ := Option.isSome_iff_exists.mp <| hc he
    have ⟨_, hx⟩ := (hi.connector x).mp hx
    cases hl : s₁.arrivals
    case nil      => simp [hl] at hx
    case cons c _ =>
      have h₁ : s₁.arrivals[0]? = some c := by rw [hl]; rfl
      exact ho <| h₁.trans <| (first_step hs h₁).symm.trans h₂

-- If another client connects before the connector, then one of them is the first one.
theorem first_of_client (h : Invariant s) (hc : s.connector = none) (hs : step s .client = some s') :
    s'.arrivals[0]? = some .other := by
  have ⟨ha, _⟩ := ((arrivals_step hs).resolve_left fun h => h.right rfl).resolve_left fun h => h.right rfl
  cases hl : s.arrivals
  case nil      => rw [ha, hl]; rfl
  case cons c _ =>
    have h₀ : s.arrivals[0]? = some c := by rw [hl]; rfl
    cases c
    case connector => exact absurd h₀ <| h.ne_connector hc 0
    case other     => exact first_step hs h₀

-- The first connection is by another client if and only if one has connected before the connector.
theorem undisturbed_iff (h : sockpair.Reachable s) :
    sockpair.ReachableUnder Undisturbed s ↔ s.arrivals[0]? ≠ some .other := by
  refine ⟨first_of_undisturbed, ?_⟩
  induction h
  case init => exact fun _ => .init
  case step s₁ e s₂ h₁ _ hs hi =>
    intro ho
    refine .step (hi fun h₀ => ho <| first_step hs h₀) (fun he => ?_) hs
    by_contra hc
    subst he
    exact ho <| first_of_client (invariant h₁) (Option.not_isSome_iff_eq_none.mp hc) hs

-- When 0 is returned, the descriptors are the two ends of one connection if and only if no other client has
-- connected before the connector.
theorem paired_iff (h : sockpair.Reachable s) (hr : s.pc = .returned 0) :
    s.Paired ↔ sockpair.ReachableUnder Undisturbed s := by
  have hi := invariant h
  have ⟨x, _, hx, _⟩ := hi.stored hr
  have ⟨_, hc⟩ := (hi.connector x).mp hx
  rw [hi.paired_iff_first hr, undisturbed_iff h]
  cases hl : s.arrivals
  case nil      => simp [hl] at hc
  case cons c _ => cases c <;> simp

-- Another client connects while the connection of the connector waits.
theorem paired_late :
    ∃ s, sockpair.Reachable s ∧ s.pc = .returned 0 ∧ (s.Paired ↔ sockpair.ReachableUnder Undisturbed s) := by
  let es : List Event := List.replicate 7 .ok ++ .client :: List.replicate 5 .ok
  have he : (sockpair.exec init es).map (·.pc) = some (.returned 0) := by decide
  have ⟨s, he, hpc⟩ := Option.map_eq_some_iff.mp he
  have h := System.ReachableUnder.of_exec he
  exact ⟨s, h, hpc, paired_iff h hpc⟩

-- Another client connects between `listen` and `connect`.
theorem not_paired : ¬∀ s, sockpair.Reachable s → s.pc = .returned 0 → s.Paired := by
  intro h
  let es : List Event := List.replicate 3 .ok ++ .client :: List.replicate 9 .ok
  have he : (sockpair.exec init es).map (fun s => (s.pc, s.fd)) =
      some (.returned 0, some (⟨1, .client⟩, ⟨0, .server⟩)) := by decide
  have ⟨s, he, hs⟩ := Option.map_eq_some_iff.mp he
  have ⟨hpc, hf⟩ := Prod.mk.inj hs
  have ⟨k, hk⟩ := h s (System.ReachableUnder.of_exec he) hpc
  rw [hf] at hk
  have ⟨h₁, h₀⟩ := Prod.mk.inj <| Option.some.inj hk
  exact absurd ((End.mk.inj h₁).left.trans (End.mk.inj h₀).left.symm) (by decide)

end WorkloadKit.SockPair
