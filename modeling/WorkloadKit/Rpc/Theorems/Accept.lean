import Mathlib.Algebra.BigOperators.Group.Finset.Basic
import Mathlib.Data.Fintype.Card
import WorkloadKit.Library.Rest
import WorkloadKit.Rpc.Accept
import WorkloadKit.Rpc.Theorems.Progress

namespace WorkloadKit.Rpc.Accept

open scoped BigOperators

variable {ι : Type*} {p : ι → Params} {s s' : State ι} {e : Event ι} {es : List (Event ι)} {i : ι}

-- Each call of `read` returns a whole message, or 0 at the end of the stream.
def Event.Whole : Event ι → Prop
  | connect _ | accept => True
  | conn _ e           => ∀ c, WholeReadsOrEnd c e

def Event.IsConnect : Event ι → Prop
  | connect _           => True
  | accept | conn _ _ => False

-- The server serves the connections one after the other, in the order in which they have been made. Each of
-- them takes its course as if there were no others.
structure Inv (p : ι → Params) (s : State ι) : Prop where
  conn    : ∀ i, (connection (p i)).ReachableUnder WholeReadsOrEnd (s.conns i)
  order   : s.arrivals = s.accepted ++ s.queue
  nodup   : s.arrivals.Nodup
  current : s.current = s.accepted.getLast?
  fresh   : ∀ i ∉ s.accepted, (s.conns i).server = (Rpc.init (p i)).server
  closed  : ∀ i ∈ s.accepted, s.current ≠ some i → (s.conns i).server.pc = .closed

-- The server is not changed by the events of the client.
theorem server_of_step {p : Params} {c c' : Rpc.State} {e : Rpc.Event}
    (hc : e = .client ∨ ∃ n, e = .readClient n) (he : Rpc.step p c e = some c') : c'.server = c.server := by
  obtain rfl | ⟨n, rfl⟩ := hc
  case inl =>
    rw [Rpc.step] at he
    cases hp : c.client.pc <;> simp only [stepClient, hp, reduceCtorEq] at he
    split at he <;> cases he <;> rfl
  case inr =>
    simp only [Rpc.step, readClient, Option.ite_none_right_eq_some, Option.some.injEq] at he
    obtain ⟨_, rfl⟩ := he
    rfl

theorem State.Takes.client_or {e : Rpc.Event} (h : s.Takes i e) :
    (e = .client ∨ ∃ n, e = .readClient n) ∨ s.current = some i := by
  cases e
  case client       => exact .inl <| .inl rfl
  case readClient n => exact .inl <| .inr ⟨n, rfl⟩
  case server       => exact .inr h
  case readServer   => exact .inr h

namespace Inv

theorem init : Inv p (init p) where
  conn _  := .init
  order   := rfl
  nodup   := .nil
  current := rfl
  fresh   := fun _ _ => rfl
  closed  := nofun

variable [DecidableEq ι]

theorem connect (h : Inv p s) (he : connect s i = some s') : Inv p s' := by
  simp only [Accept.connect, Option.ite_none_right_eq_some, Option.some.injEq] at he
  obtain ⟨⟨hi, _⟩, rfl⟩ := he
  exact { h with
    order := by simp [h.order]
    nodup := List.nodup_append.mpr ⟨h.nodup, List.nodup_singleton i, by
      rintro j hj _ hk rfl
      exact hi <| List.mem_singleton.mp hk ▸ hj⟩ }

theorem accept (h : Inv p s) (he : accept s = some s') : Inv p s' := by
  simp only [Accept.accept, Option.ite_none_right_eq_some] at he
  obtain ⟨ha, he⟩ := he
  split at he <;> cases he
  rename s.queue = _ => hq
  refine { h with order := ?_, current := ?_, fresh := fun j hj => ?_, closed := fun j hj hn => ?_ }
  · simp [h.order, hq]
  · simp
  · exact h.fresh j fun hm => hj <| List.mem_append_left _ hm
  · obtain hj | hj := List.mem_append.mp hj
    case inl =>
      by_cases hc : s.current = some j
      case pos => exact ha j hc
      case neg => exact h.closed j hj hc
    case inr => exact absurd (congrArg some (List.mem_singleton.mp hj).symm) hn

theorem conn_step (h : Inv p s) {e : Rpc.Event} {c : Rpc.State} (hw : WholeReadsOrEnd (s.conns i) e)
    (ht : s.Takes i e) (he : Rpc.step (p i) (s.conns i) e = some c) :
    Inv p { s with conns := Function.update s.conns i c } := by
  have hs (hn : s.current ≠ some i) : c.server = (s.conns i).server :=
    server_of_step (ht.client_or.resolve_right hn) he
  refine { h with conn := ?_, fresh := fun j hj => ?_, closed := fun j hj hn => ?_ }
  · exact (Function.forall_update_iff s.conns
      fun j c => (connection (p j)).ReachableUnder WholeReadsOrEnd c).mpr
        ⟨(h.conn i).step hw he, fun j _ => h.conn j⟩
  · by_cases hji : j = i
    case pos =>
      subst hji
      have hn : s.current ≠ some j := fun hc => hj <| List.mem_of_getLast? <| h.current ▸ hc
      simp only [Function.update_self, hs hn, h.fresh j hj]
    case neg => simp only [Function.update_of_ne hji, h.fresh j hj]
  · by_cases hji : j = i
    case pos =>
      subst hji
      simp only [Function.update_self, hs hn, h.closed j hj hn]
    case neg => simp only [Function.update_of_ne hji, h.closed j hj hn]

theorem step (h : Inv p s) (hw : e.Whole) (he : step p s e = some s') : Inv p s' := by
  cases e
  case connect => exact h.connect he
  case accept  => exact h.accept he
  case conn i e =>
    simp only [Accept.step, Option.ite_none_right_eq_some, Option.map_eq_some_iff] at he
    obtain ⟨ht, c, he, rfl⟩ := he
    exact h.conn_step (hw _) ht he

omit [DecidableEq ι] in
theorem session (h : Inv p s) (hn : ∀ i, Continued (p i)) (i : ι) :
    Lockstep (p i) (s.conns i) ∨ Ended (p i) (s.conns i) :=
  lockstep_or_ended (hn i) (h.conn i)

-- The server has not done anything for a connection before it has accepted it.
omit [DecidableEq ι] in
theorem unserved (h : Inv p s) (hn : ∀ i, Continued (p i)) (hi : i ∉ s.accepted) :
    (s.conns i).server.acted = [] ∧ (s.conns i).client.answers = [] := by
  have hf := h.fresh i hi
  refine ⟨by rw [hf]; rfl, ?_⟩
  obtain hl | hd := h.session hn i
  case inl =>
    have ha := hl.framed.answers
    rw [hf] at ha
    exact List.prefix_nil.mp ha
  case inr =>
    have hd := hd.server
    rw [hf] at hd
    cases hd

end Inv

variable [DecidableEq ι]

-- How many statements are left, where a client that has not connected has to do that, and its connection has
-- to be accepted.
def State.rest [Fintype ι] (p : ι → Params) (s : State ι) : ℕ :=
  ∑ i, (s.conns i).rest (p i) + 2 * (Fintype.card ι - s.arrivals.length) + s.queue.length

theorem step_rest_lt [Fintype ι] (h : Inv p s) (hn : ∀ i, Continued (p i)) (hw : e.Whole)
    (he : step p s e = some s') : s'.rest p < s.rest p := by
  cases e
  case connect i =>
    have h' := h.step hw he
    have := h'.nodup.length_le_card
    simp only [step, connect, Option.ite_none_right_eq_some, Option.some.injEq] at he
    obtain ⟨_, rfl⟩ := he
    simp only [State.rest, List.length_append, List.length_singleton] at this ⊢
    omega
  case accept =>
    simp only [step, accept, Option.ite_none_right_eq_some] at he
    obtain ⟨_, he⟩ := he
    split at he <;> cases he
    rename s.queue = _ => hq
    simp only [State.rest, hq, List.length_cons]
    omega
  case conn i e =>
    simp only [step, Option.ite_none_right_eq_some, Option.map_eq_some_iff] at he
    obtain ⟨_, c, he, rfl⟩ := he
    have := @sum_restOf_update_lt _ _ _ _ (fun i c => Rpc.State.rest (p i) c) s.conns i c <|
      Rpc.step_rest_lt (h.session hn i) he
    simp only [State.rest]
    omega

omit [DecidableEq ι] in
theorem rest_init [Fintype ι] (opts : ι → Opts) (count : BitVec 64) :
    (init <| clients opts count).rest (clients opts count) = ∑ i, (6 * (opts i).repeats + 8) := by
  have hr i : (Rpc.init (clients opts count i)).rest (clients opts count i) = 6 * (opts i).repeats + 6 := by
    simp only [Rpc.State.rest, Rpc.init, clients, Opts.messages, List.length_map, List.length_range,
      List.length_nil, Client.Pc.rest, Server.Pc.rest]
    omega
  have hc : ∑ i : ι, (6 * (opts i).repeats + 8) = ∑ i, (6 * (opts i).repeats + 6) + Fintype.card ι * 2 := by
    show ∑ i : ι, (6 * (opts i).repeats + 6 + 2) = _
    rw [Finset.sum_add_distrib, Finset.sum_const]
    rfl
  rw [hc]
  simp only [State.rest, init, hr, List.length_nil]
  omega

-- As long as a connection is in the queue or in service, something else than a new connection can happen.
theorem exists_enabled (h : Inv p s) (hn : ∀ i, Continued (p i)) (hs : s.queue ≠ [] ∨ ¬s.AtAccept) :
    ∃ e, e.Whole ∧ ¬e.IsConnect ∧ (step p s e).isSome := by
  by_cases ha : s.AtAccept
  case pos =>
    obtain ⟨i, queue, hq⟩ := List.exists_cons_of_ne_nil <| hs.resolve_right <| not_not.mpr ha
    exact ⟨.accept, trivial, id, by simp [step, accept, ha, hq]⟩
  case neg =>
    simp only [State.AtAccept, not_forall] at ha
    obtain ⟨i, hi, hc⟩ := ha
    obtain ⟨e, hw, he⟩ := Rpc.exists_enabled (h.session hn i) hc
    have hm : i ∈ s.arrivals := by
      rw [h.order]
      exact List.mem_append_left _ <| List.mem_of_getLast? <| h.current ▸ hi
    have ht : s.Takes i e := by
      cases e
      case client | readClient => exact hm
      case server | readServer => exact hi
    refine ⟨.conn i e, fun c => ?_, id, by simpa [step, ht] using he⟩
    cases e <;> exact hw

-- Any number of clients run `rpc_experiment` once each, while one server runs. Every run is finite. The
-- connections are accepted in the order in which they have been made. A client does not get any answer before
-- that, and it has been served when the next connection is accepted. If nothing but a new connection can happen,
-- then all clients that have connected have been served.
theorem served_of_run [Fintype ι] {opts : ι → Opts} {count : BitVec 64} (ho : ∀ i, (opts i).repeats < 2 ^ 31)
    (hw : ∀ e ∈ es, e.Whole)
    (he : (server <| clients opts count).exec (init <| clients opts count) es = some s) :
    es.length ≤ ∑ i, (6 * (opts i).repeats + 8) ∧
    s.arrivals = s.accepted ++ s.queue ∧ s.current = s.accepted.getLast? ∧
    (∀ i ∈ s.accepted, s.current ≠ some i → Served (clients opts count i) (s.conns i)) ∧
    (∀ i ∉ s.accepted, (s.conns i).server.acted = [] ∧ (s.conns i).client.answers = []) ∧
    ((∀ e : Event ι, e.Whole → (server <| clients opts count).Enabled s e → e.IsConnect) →
      s.queue = [] ∧ ∀ i ∈ s.arrivals, Served (clients opts count i) (s.conns i)) := by
  have hn i : Continued (clients opts count i) := Opts.continued (ho i) count
  obtain ⟨h, hl⟩ := System.rest_add_length_le_of_forall (State.rest <| clients opts count)
    (fun h hw he => ⟨h.step hw he, step_rest_lt h hn hw he⟩) .init hw he
  have served i (hi : i ∈ s.accepted) (hc : s.current ≠ some i) :=
    served_of_closed (hn i) (h.conn i) (h.closed i hi hc)
  refine ⟨?finite, h.order, h.current, served, fun i hi => ?fresh, fun hs => ?idle⟩
  case finite =>
    have hi := rest_init opts count
    omega
  case fresh => exact h.unserved hn hi
  case idle =>
    have hq : s.queue = [] ∧ s.AtAccept := by
      by_contra hn'
      obtain ⟨e, hw, hc, he⟩ := exists_enabled h hn <| not_and_or.mp hn'
      exact hc <| hs e hw he
    refine ⟨hq.left, fun i hi => ?_⟩
    have hi : i ∈ s.accepted := by simpa [h.order, hq.left] using hi
    by_cases hc : s.current = some i
    case pos => exact served_of_closed (hn i) (h.conn i) (hq.right i hc)
    case neg => exact served i hi hc

-- Two clients, the second one of which is accepted after the first one has been served.
theorem served_of_run_two :
    ∃ s : State Bool, s.accepted = [false, true] ∧
      Served ⟨[⟨2, 5, 1, 0⟩], 1⟩ (s.conns false) := by
  let opts (_ : Bool) : Opts := ⟨2, 5, 1⟩
  let es : List (Event Bool) := [.connect false, .connect true, .conn true .client, .accept] ++
    [.client, .readServer 16, .server, .server, .server, .readClient 16, .client, .readServer 0, .server,
      .server, .server].map (.conn false) ++ [.accept]
  have hs : ((server <| clients opts 1).exec (init <| clients opts 1) es).map (fun s =>
      (s.accepted, s.current)) = some ([false, true], some true) := by
    decide
  obtain ⟨s, he, hs⟩ := Option.map_eq_some_iff.mp hs
  obtain ⟨ha, hc⟩ := Prod.mk.inj hs
  have hw : ∀ e ∈ es, e.Whole := by
    simp [es, Event.Whole, WholeReadsOrEnd, Message.size]
  obtain ⟨_, _, _, h, _⟩ := served_of_run (fun _ => by decide) hw he
  exact ⟨s, ha, h false (by simp [ha]) (by simp [hc])⟩

end WorkloadKit.Rpc.Accept
