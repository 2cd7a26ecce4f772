import Mathlib.Data.List.Nodup
import WorkloadKit.PingPong.Servers

namespace WorkloadKit.PingPong.Servers

variable {α : Type*} {servers : List α} {ok : ℕ → Bool} {s s' : State α} {e : Event} {i j k w : ℕ}
  {t : Worker}

-- The worker that is looked up for an index.
def workerOf (servers : List α) (s : State α) (i : ℕ) : Option ℕ :=
  servers[i]?.bind s.workersDic

-- The workers for the indices below have been created, and are in the dictionary unless they have been replaced.
def Created : Pc → ℕ → Prop
  | .create i, j => j < i
  | _, _         => True

-- The number of servers that the second loop has dealt with.
def reached (servers : List α) : Pc → ℕ
  | .create _    => 0
  | .connect i   => i
  | .setSocket i => i
  | .start i _   => i
  | .join _      => servers.length
  | .returned    => servers.length
  | .raised      => 0

-- The server that is being dealt with has been connected to.
def Current (servers : List α) (ok : ℕ → Bool) (s : State α) : Pc → Prop
  | .connect i   => i ≤ servers.length
  | .setSocket i => i < servers.length ∧ ok i = true
  | .start i w   => i < servers.length ∧ ok i = true ∧ workerOf servers s i = some w
  | _            => True

-- The last loop has waited for the worker.
def Joined : Pc → ℕ → Prop
  | .join i, j   => j < i
  | .returned, _ => True
  | _, _         => False

structure Invariant (servers : List α) (ok : ℕ → Bool) (s : State α) : Prop where
  named   : ∀ server w, s.workersDic server = some w → servers[w]? = some server
  known   : ∀ j server, Created s.pc j → servers[j]? = some server → s.workersDic server ≠ none
  current : Current servers ok s s.pc
  starts  : s.pc ≠ .raised →
    s.starts.map some = ((List.range <| reached servers s.pc).filter ok).map (workerOf servers s)
  started : ∀ w, (s.workers w).run ≠ .new ↔ w ∈ s.starts
  nodup   : s.pc ≠ .raised → s.starts.Nodup
  joined  : ∀ j w, Joined s.pc j → workerOf servers s j = some w → ¬(s.workers w).isAlive

theorem filter_range_succ :
    (List.range (i + 1)).filter ok = (List.range i).filter ok ++ if ok i then [i] else [] := by
  rw [List.range_succ, List.filter_append]
  split <;> simp [*]

theorem nodup_append_singleton {l : List ℕ} (h : l.Nodup) (hi : i ∉ l) : (l ++ [i]).Nodup :=
  List.nodup_append.mpr
    ⟨h, List.nodup_singleton i, fun _ hv _ hu he => hi <| List.mem_singleton.mp hu ▸ he ▸ hv⟩

-- The workers to which nothing happens stay as they are.
theorem setWorker_ne {v : ℕ} (h : v ≠ w) : (s.setWorker w t).workers v = s.workers v :=
  Function.update_of_ne h ..

theorem setWorker_self : (s.setWorker w t).workers w = t :=
  Function.update_self ..

-- A property of a worker is not lost if its next state also has it.
theorem setWorker_iff {p : Worker → Prop} (h : p t ↔ p (s.workers w)) (v : ℕ) :
    p ((s.setWorker w t).workers v) ↔ p (s.workers v) := by
  by_cases hv : v = w
  case pos => rw [hv, setWorker_self, h]
  case neg => rw [setWorker_ne hv]

namespace Invariant

theorem init : Invariant servers ok (init : State α) where
  named   := nofun
  known   := fun j _ hj => absurd hj j.not_lt_zero
  current := trivial
  starts  := fun _ => rfl
  started := fun _ => iff_of_false (not_not.mpr rfl) List.not_mem_nil
  nodup   := fun _ => List.nodup_nil
  joined  := nofun

theorem current_at (h : Invariant servers ok s) {pc : Pc} (hpc : s.pc = pc) : Current servers ok s pc :=
  hpc ▸ h.current

-- Only one worker has been started for each of two different names.
theorem getElem?_eq (h : Invariant servers ok s) (hi : workerOf servers s i = some w)
    (hj : workerOf servers s j = some w) : servers[i]? = servers[j]? := by
  have ⟨_, hi, hw⟩ := Option.bind_eq_some_iff.mp hi
  have ⟨_, hj, hw'⟩ := Option.bind_eq_some_iff.mp hj
  rw [hi, hj, ←h.named _ _ hw, ←h.named _ _ hw']

theorem workerOf_ne_none (h : Invariant servers ok s) (hc : Created s.pc i) (hi : i < servers.length) :
    workerOf servers s i ≠ none := by
  rw [workerOf, List.getElem?_eq_getElem hi]
  exact h.known i _ hc <| List.getElem?_eq_getElem hi

theorem step_worker (h : Invariant servers ok s) (hs : stepWorker s w = some s') :
    Invariant servers ok s' := by
  have hw : (s.workers w).run ≠ .new ∧ (s.workers w).run ≠ .finished := by
    constructor
    all_goals
      intro hr
      simp [stepWorker, hr] at hs
  -- Only the statement of the worker, and the pings, have changed.
  have ⟨t, pings, ht, hs⟩ : ∃ t pings, t.run ≠ .new ∧ s' = { s.setWorker w t with pings } := by
    cases hr : (s.workers w).run
    all_goals simp only [stepWorker, hr] at hs
    case send =>
      split at hs
      all_goals exact ⟨_, _, by simp, (Option.some.inj hs).symm⟩
    case recv | close => exact ⟨_, s.pings, by simp, (Option.some.inj hs).symm⟩
    case new | finished => cases hs
  subst hs
  refine { h with started := fun v => ?_, joined := fun j v hj hv => ?_ }
  · exact (setWorker_iff (p := (·.run ≠ .new)) (iff_of_true ht hw.left) v).trans (h.started v)
  · have hn : ¬(s.workers v).isAlive := h.joined j v hj hv
    have hvw : v ≠ w := by
      rintro rfl
      exact hn hw
    show ¬((s.setWorker w t).workers v).isAlive
    rwa [setWorker_ne hvw]

-- A step to another place, at which the dictionary and the workers stay as they are.
theorem goto (h : Invariant servers ok s) {pc : Pc} (hr : s.pc ≠ .raised)
    (hk : ∀ j < servers.length, Created pc j → Created s.pc j) (hc : Current servers ok s pc)
    (hs : (List.range <| reached servers pc).filter ok = (List.range <| reached servers s.pc).filter ok)
    (hj : ∀ j < servers.length, ∀ w, Joined pc j → workerOf servers s j = some w →
      Joined s.pc j ∨ ¬(s.workers w).isAlive) : Invariant servers ok { s with pc } where
  named   := h.named
  known   := fun j server hc hs => h.known j server (hk j (List.getElem?_eq_some_iff.mp hs).fst hc) hs
  current := by cases pc <;> exact hc
  starts  := fun _ => (h.starts hr).trans <| congrArg (List.map _) hs.symm
  started := h.started
  nodup   := fun _ => h.nodup hr
  joined  := fun j w hp hw => by
    have ⟨_, hl, _⟩ := Option.bind_eq_some_iff.mp hw
    have hl : j < servers.length := (List.getElem?_eq_some_iff.mp hl).fst
    exact (hj j hl w hp hw).elim (h.joined j w · hw) id

variable [DecidableEq α]

theorem step_create (h : Invariant servers ok s) (hpc : s.pc = .create i)
    (hs : stepMain servers ok s = some s') : Invariant servers ok s' := by
  have hr : s.pc ≠ .raised := by rw [hpc]; nofun
  simp only [stepMain, hpc] at hs
  split at hs
  case h_1 server hi =>
    obtain rfl := Option.some.inj hs
    refine { h with
      named   := fun server' w hw => ?_
      known   := fun j server' hj hj' => ?_
      current := trivial
      starts  := fun _ => ?_
      nodup   := fun _ => h.nodup hr
      joined  := nofun }
    · replace hw : Function.update s.workersDic server (some i) server' = some w := hw
      by_cases hv : server' = server
      case pos =>
        rw [hv, Function.update_self] at hw
        exact hv ▸ Option.some.inj hw ▸ hi
      case neg =>
        rw [Function.update_of_ne hv] at hw
        exact h.named server' w hw
    · show Function.update s.workersDic server (some i) server' ≠ none
      by_cases hv : server' = server
      case pos =>
        rw [hv, Function.update_self]
        nofun
      case neg =>
        rw [Function.update_of_ne hv]
        refine h.known j server' ?_ hj'
        rw [hpc]
        refine Nat.lt_of_le_of_ne (Nat.le_of_lt_succ hj) ?_
        rintro rfl
        exact hv <| Option.some.inj <| hj'.symm.trans hi
    · have hst := h.starts hr
      rw [hpc] at hst
      exact hst
  case h_2 hi =>
    obtain rfl := Option.some.inj hs
    have hi := List.getElem?_eq_none_iff.mp hi
    refine h.goto hr (fun j hj _ => ?_) (Nat.zero_le _) (by rw [hpc]; rfl) nofun
    rw [hpc]
    exact hj.trans_le hi

theorem step_connect (h : Invariant servers ok s) (hpc : s.pc = .connect i)
    (hs : stepMain servers ok s = some s') : Invariant servers ok s' := by
  have hr : s.pc ≠ .raised := by rw [hpc]; nofun
  have hk j (_ : j < servers.length) : Created s.pc j := by rw [hpc]; trivial
  simp only [stepMain, hpc] at hs
  split at hs
  case isTrue hi =>
    obtain rfl := Option.some.inj hs
    by_cases ho : ok i = true
    case pos =>
      rw [if_pos ho]
      exact h.goto hr (fun j hj _ => hk j hj) ⟨hi, ho⟩ (by rw [hpc]; rfl) nofun
    case neg =>
      rw [if_neg ho]
      refine h.goto hr (fun j hj _ => hk j hj) hi ?_ nofun
      rw [hpc, reached, filter_range_succ, if_neg ho, List.append_nil]
      rfl
  case isFalse hi =>
    obtain rfl := Option.some.inj hs
    have hc : i ≤ servers.length := h.current_at hpc
    have hi : i = servers.length := Nat.le_antisymm hc <| Nat.le_of_not_lt hi
    refine h.goto hr (fun j hj _ => hk j hj) trivial ?_ fun j _ _ hj => absurd hj j.not_lt_zero
    rw [hpc, reached, reached, hi]

theorem step_setSocket (h : Invariant servers ok s) (hpc : s.pc = .setSocket i)
    (hs : stepMain servers ok s = some s') : Invariant servers ok s' := by
  have hr : s.pc ≠ .raised := by rw [hpc]; nofun
  have hc := h.current_at hpc
  simp only [stepMain, hpc] at hs
  split at hs
  case h_1 w hw =>
    obtain rfl := Option.some.inj hs
    refine { h with
      known   := fun j server _ => h.known j server <| by rw [hpc]; trivial
      current := ⟨hc.left, hc.right, hw⟩
      starts  := fun _ => ?_
      started := fun v => ?_
      nodup   := fun _ => h.nodup hr
      joined  := nofun }
    · have hst := h.starts hr
      rw [hpc] at hst
      exact hst
    · let t := { s.workers w with socket := some i }
      exact (setWorker_iff (t := t) (p := (·.run ≠ .new)) .rfl v).trans (h.started v)
  case h_2 hw => exact absurd hw <| h.workerOf_ne_none (by rw [hpc]; trivial) hc.left

theorem step_start (h : Invariant servers ok s) (hpc : s.pc = .start i w)
    (hs : stepMain servers ok s = some s') : Invariant servers ok s' := by
  have hr : s.pc ≠ .raised := by rw [hpc]; nofun
  have hk j server : servers[j]? = some server → s.workersDic server ≠ none :=
    h.known j server <| by rw [hpc]; trivial
  obtain ⟨hi, ho, hw⟩ := h.current_at hpc
  simp only [stepMain, hpc] at hs
  split at hs
  case isTrue hn =>
    obtain rfl := Option.some.inj hs
    have hw' : w ∉ s.starts := fun hm => (h.started w).mpr hm hn
    refine { h with
      known   := fun j server _ => hk j server
      current := hi
      starts  := fun _ => ?_
      started := fun v => ?_
      nodup   := fun _ => ?_
      joined  := nofun }
    · have hst := h.starts hr
      rw [hpc] at hst
      rw [reached, filter_range_succ, if_pos ho, List.map_append, List.map_append, hst]
      exact congrArg (_ ++ [·]) hw.symm
    · show ((s.setWorker w _).workers v).run ≠ .new ↔ v ∈ s.starts ++ [w]
      rw [List.mem_append, List.mem_singleton]
      by_cases hv : v = w
      case pos =>
        rw [hv, setWorker_self]
        exact iff_of_true nofun (.inr rfl)
      case neg =>
        rw [setWorker_ne hv, h.started v, or_iff_left hv]
    · exact nodup_append_singleton (h.nodup hr) hw'
  case isFalse hn =>
    obtain rfl := Option.some.inj hs
    have hw' : w ∈ s.starts := (h.started w).mp hn
    refine { h with
      known   := fun j server _ => hk j server
      current := trivial
      starts  := fun hn => absurd rfl hn
      started := fun v => ?_
      nodup   := fun hn => absurd rfl hn
      joined  := nofun }
    rw [List.mem_append, List.mem_singleton, or_iff_left_of_imp fun hv => hv ▸ hw']
    exact h.started v

theorem step_join (h : Invariant servers ok s) (hpc : s.pc = .join i) (hs : stepMain servers ok s = some s') :
    Invariant servers ok s' := by
  have hr : s.pc ≠ .raised := by rw [hpc]; nofun
  have hk j (_ : j < servers.length) : Created s.pc j := by rw [hpc]; trivial
  simp only [stepMain, hpc] at hs
  split at hs
  case isTrue hi =>
    split at hs
    case h_1 w hw =>
      obtain ⟨ha, hs⟩ := Option.ite_none_left_eq_some.mp hs
      obtain rfl := Option.some.inj hs
      refine h.goto hr (fun j hj _ => hk j hj) trivial (by rw [hpc]; rfl) fun j _ v hj hv => ?_
      rcases Nat.lt_succ_iff_lt_or_eq.mp hj with hj | rfl
      · rw [hpc]
        exact .inl hj
      · exact .inr <| Option.some.inj (hv.symm.trans hw) ▸ ha
    case h_2 hw => exact absurd hw <| h.workerOf_ne_none (hk i hi) hi
  case isFalse hi =>
    obtain rfl := Option.some.inj hs
    refine h.goto hr (fun j hj _ => hk j hj) trivial (by rw [hpc]; rfl) fun j hj _ _ _ => .inl ?_
    rw [hpc]
    exact Nat.lt_of_lt_of_le hj <| Nat.le_of_not_lt hi

theorem step_main (h : Invariant servers ok s) (hs : stepMain servers ok s = some s') :
    Invariant servers ok s' := by
  cases hpc : s.pc
  case create             => exact h.step_create hpc hs
  case connect            => exact h.step_connect hpc hs
  case setSocket          => exact h.step_setSocket hpc hs
  case start              => exact h.step_start hpc hs
  case join               => exact h.step_join hpc hs
  case returned | raised  => simp [stepMain, hpc] at hs

theorem step (h : Invariant servers ok s) (hs : (pingServers servers ok).step s e = some s') :
    Invariant servers ok s' := by
  cases e
  case main     => exact h.step_main hs
  case worker w => exact h.step_worker hs

end Invariant

theorem invariant [DecidableEq α] (h : (pingServers servers ok).Reachable s) : Invariant servers ok s :=
  h.invariant .init fun h _ hs => h.step hs

end WorkloadKit.PingPong.Servers
