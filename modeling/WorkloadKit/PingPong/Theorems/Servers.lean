import Mathlib.Algebra.Order.BigOperators.Group.Finset
import WorkloadKit.PingPong.Theorems.Workers

namespace WorkloadKit.PingPong.Servers

variable {α : Type*} {servers : List α} {ok : ℕ → Bool} {s s' : State α} {e : Event} {i j k w : ℕ}
  {t : Worker}

-- The indices of the servers that can be connected to.
def connected (servers : List α) (ok : ℕ → Bool) : List ℕ :=
  (List.range servers.length).filter ok

-- The socket that a worker has sent a ping to.
def Worker.sent (t : Worker) : Option ℕ :=
  match t.run with
  | .new  => none
  | .send => none
  | _     => t.socket

-- The number of servers for which a worker has been given a socket.
def given (servers : List α) : Pc → ℕ
  | .start i _ => i + 1
  | pc         => reached servers pc

-- What holds in addition if no two servers of one name can be connected to.
structure Undisturbed (servers : List α) (ok : ℕ → Bool) (s : State α) : Prop where
  raised  : s.pc ≠ .raised
  swapped : s.swapped = false
  socket  : ∀ w i, (s.workers w).socket = some i ↔
    i < given servers s.pc ∧ ok i = true ∧ workerOf servers s i = some w
  nodup   : s.pings.Nodup
  pings   : ∀ i, i ∈ s.pings ↔ ∃ w, (s.workers w).sent = some i

theorem reached_le_given : reached servers s.pc ≤ given servers s.pc := by
  cases s.pc
  case start i w => exact i.le_succ
  all_goals exact le_rfl

-- The servers of one name are not connected to more than once.
def Distinct (servers : List α) (ok : ℕ → Bool) : Prop :=
  ((connected servers ok).map (servers[·]?)).Nodup

theorem mem_connected : i ∈ connected servers ok ↔ i < servers.length ∧ ok i = true := by
  simp [connected]

-- Then, a worker is not used for two of the connections.
theorem Distinct.eq (hd : Distinct servers ok) (h : Invariant servers ok s) (hi : i < servers.length)
    (hj : j < servers.length) (hoi : ok i = true) (hoj : ok j = true) (hwi : workerOf servers s i = some w)
    (hwj : workerOf servers s j = some w) : i = j :=
  List.inj_on_of_nodup_map hd (mem_connected.mpr ⟨hi, hoi⟩) (mem_connected.mpr ⟨hj, hoj⟩) <|
    h.getElem?_eq hwi hwj

theorem exists_of_started (h : Invariant servers ok s) (hr : s.pc ≠ .raised) (hw : (s.workers w).run ≠ .new) :
    ∃ i < reached servers s.pc, ok i = true ∧ workerOf servers s i = some w := by
  have hm := List.mem_map_of_mem (f := some) <| (h.started w).mp hw
  rw [h.starts hr, List.mem_map] at hm
  have ⟨i, hi, hw⟩ := hm
  have ⟨hi, ho⟩ := List.mem_filter.mp hi
  exact ⟨i, List.mem_range.mp hi, ho, hw⟩

-- Then, the worker for the current connection has not been started yet.
theorem Distinct.new (hd : Distinct servers ok) (h : Invariant servers ok s) (hr : s.pc ≠ .raised)
    (hi : reached servers s.pc = i) (hl : i < servers.length) (ho : ok i = true)
    (hw : workerOf servers s i = some w) : (s.workers w).run = .new := by
  by_contra hn
  have ⟨j, hj, hoj, hwj⟩ := exists_of_started h hr hn
  rw [hi] at hj
  exact hj.ne <| hd.eq h (hj.trans hl) hl hoj ho hwj hw

theorem lt_succ_and_iff {p : Prop} (h : p → j ≠ i) : j < i + 1 ∧ p ↔ j < i ∧ p :=
  and_congr_left fun hp => Nat.lt_succ_iff_lt_or_eq.trans <| or_iff_left <| h hp

theorem Worker.socket_of_sent (h : t.sent = some i) : t.socket = some i := by
  rw [sent] at h
  split at h
  case h_1 | h_2 => cases h
  case h_3       => exact h

namespace Undisturbed

theorem init : Undisturbed servers ok (init : State α) where
  raised  := nofun
  swapped := rfl
  socket  := fun _ i => iff_of_false nofun fun h => i.not_lt_zero h.left
  nodup   := List.nodup_nil
  pings   := fun _ => iff_of_false List.not_mem_nil nofun

-- A step of the main thread that does not change any worker.
theorem move (h : Undisturbed servers ok s) (hr : s'.pc ≠ .raised) (hw : s'.workers = s.workers)
    (hs : s'.swapped = s.swapped) (hp : s'.pings = s.pings)
    (hg : ∀ w i, (i < given servers s'.pc ∧ ok i = true ∧ workerOf servers s' i = some w) ↔
      i < given servers s.pc ∧ ok i = true ∧ workerOf servers s i = some w) : Undisturbed servers ok s' where
  raised  := hr
  swapped := hs ▸ h.swapped
  socket  := fun w i => hw ▸ (h.socket w i).trans (hg w i).symm
  nodup   := hp ▸ h.nodup
  pings   := hp ▸ hw ▸ h.pings

-- A change of a worker that is not about its socket, nor about what it has sent.
theorem keep (h : Undisturbed servers ok s) (hk : t.socket = (s.workers w).socket)
    (hs : t.sent = (s.workers w).sent) : Undisturbed servers ok (s.setWorker w t) where
  raised     := h.raised
  swapped    := h.swapped
  socket v i := (setWorker_iff (p := (·.socket = some i)) (by rw [hk]) v).trans (h.socket v i)
  nodup      := h.nodup
  pings i    := (h.pings i).trans <|
    exists_congr fun v => (setWorker_iff (p := (·.sent = some i)) (by rw [hs]) v).symm

theorem step_worker (hu : Undisturbed servers ok s) (h : Invariant servers ok s)
    (hs : stepWorker s w = some s') : Undisturbed servers ok s' := by
  cases hr : (s.workers w).run
  all_goals simp only [stepWorker, hr] at hs
  case new | finished => cases hs
  case recv | close =>
    obtain rfl := Option.some.inj hs
    have hw : (s.workers w).sent = (s.workers w).socket := by simp only [Worker.sent, hr]
    exact hu.keep rfl hw.symm
  case send =>
    have hne : (s.workers w).run ≠ .new := by rw [hr]; rintro ⟨⟩
    obtain ⟨i, hi, hoi, hwi⟩ := exists_of_started h hu.raised hne
    have hk : (s.workers w).socket = some i := (hu.socket w i).mpr ⟨hi.trans_le reached_le_given, hoi, hwi⟩
    have hn : (s.workers w).sent = none := by simp only [Worker.sent, hr]
    rw [hk] at hs
    obtain rfl := Option.some.inj hs
    have hni : i ∉ s.pings := by
      intro hi
      obtain ⟨v, hv⟩ := (hu.pings i).mp hi
      have hvw : workerOf servers s i = some v := ((hu.socket v i).mp <| Worker.socket_of_sent hv).right.right
      obtain rfl := Option.some.inj <| hvw.symm.trans hwi
      exact absurd (hn.symm.trans hv) (by rintro ⟨⟩)
    refine { hu with socket := fun v j => ?_, nodup := ?_, pings := fun j => ?_ }
    · exact (setWorker_iff (p := (·.socket = some j)) (by rw [hk]) v).trans (hu.socket v j)
    · exact nodup_append_singleton hu.nodup hni
    · rw [List.mem_append, List.mem_singleton, hu.pings j]
      constructor
      case mp =>
        rintro (⟨v, hv⟩ | rfl)
        · refine ⟨v, ?_⟩
          have hvw : v ≠ w := by
            rintro rfl
            exact absurd (hn.symm.trans hv) (by rintro ⟨⟩)
          exact (congrArg Worker.sent <| setWorker_ne hvw).trans hv
        · exact ⟨w, congrArg Worker.sent setWorker_self⟩
      case mpr =>
        rintro ⟨v, hv⟩
        by_cases hvw : v = w
        case pos =>
          have hs : ((s.setWorker w { run := .recv, socket := some i }).workers v).sent = some i :=
            hvw ▸ congrArg Worker.sent setWorker_self
          exact .inr <| Option.some.inj <| hv.symm.trans hs
        case neg => exact .inl ⟨v, (congrArg Worker.sent <| setWorker_ne hvw).symm.trans hv⟩

variable [DecidableEq α]

theorem step_create (hu : Undisturbed servers ok s) (hpc : s.pc = .create i)
    (hs : stepMain servers ok s = some s') : Undisturbed servers ok s' := by
  simp only [stepMain, hpc] at hs
  split at hs
  all_goals
    obtain rfl := Option.some.inj hs
    refine hu.move (by rintro ⟨⟩) rfl rfl rfl fun v j => ?_
    rw [hpc]
    exact iff_of_false (fun h => j.not_lt_zero h.left) fun h => j.not_lt_zero h.left

theorem step_connect (hu : Undisturbed servers ok s) (h : Invariant servers ok s) (hpc : s.pc = .connect i)
    (hs : stepMain servers ok s = some s') : Undisturbed servers ok s' := by
  simp only [stepMain, hpc] at hs
  split at hs
  case isTrue hi =>
    obtain rfl := Option.some.inj hs
    by_cases ho : ok i = true
    case pos =>
      rw [if_pos ho]
      refine hu.move (by rintro ⟨⟩) rfl rfl rfl fun v j => ?_
      rw [hpc]
      rfl
    case neg =>
      rw [if_neg ho]
      refine hu.move (by rintro ⟨⟩) rfl rfl rfl fun v j => ?_
      rw [hpc]
      exact lt_succ_and_iff fun hk he => ho <| he ▸ hk.left
  case isFalse hi =>
    obtain rfl := Option.some.inj hs
    have hc : i ≤ servers.length := h.current_at hpc
    have hi : i = servers.length := Nat.le_antisymm hc <| Nat.le_of_not_lt hi
    refine hu.move (by rintro ⟨⟩) rfl rfl rfl fun v j => ?_
    rw [hpc, hi]
    rfl

-- The worker gets its only socket before it is started.
theorem step_setSocket (hu : Undisturbed servers ok s) (hd : Distinct servers ok) (h : Invariant servers ok s)
    (hpc : s.pc = .setSocket i) (hs : stepMain servers ok s = some s') : Undisturbed servers ok s' := by
  obtain ⟨hi, ho⟩ := h.current_at hpc
  simp only [stepMain, hpc] at hs
  split at hs
  case h_1 w hw =>
    obtain rfl := Option.some.inj hs
    have hnew : (s.workers w).run = .new := hd.new h hu.raised (by rw [hpc]; rfl) hi ho hw
    have hdead : ¬(s.workers w).isAlive := fun ha => ha.left hnew
    refine ⟨by rintro ⟨⟩, ?_, fun v j => ?_, hu.nodup, fun j => ?_⟩
    · show (s.swapped || decide (s.workers w).isAlive) = false
      rw [hu.swapped, decide_eq_false hdead]
      rfl
    · show ((s.setWorker w _).workers v).socket = some j ↔
        j < i + 1 ∧ ok j = true ∧ workerOf servers s j = some v
      have hk := hu.socket v j
      rw [hpc] at hk
      by_cases hv : v = w
      case pos =>
        rw [hv, setWorker_self, Option.some.injEq]
        constructor
        case mp =>
          rintro rfl
          exact ⟨i.lt_succ_self, ho, hw⟩
        case mpr =>
          rintro ⟨hj, hoj, hwj⟩
          exact hd.eq h hi (Nat.lt_of_le_of_lt (Nat.le_of_lt_succ hj) hi) ho hoj hw hwj
      case neg =>
        rw [setWorker_ne hv, hk]
        refine (lt_succ_and_iff fun hk he => hv ?_).symm
        exact Option.some.inj <| hk.right.symm.trans <| he ▸ hw
    · have hsent : ({ s.workers w with socket := some i } : Worker).sent = (s.workers w).sent := by
        simp only [Worker.sent, hnew]
      refine (hu.pings j).trans <| exists_congr fun v => ?_
      exact (setWorker_iff (p := (·.sent = some j)) (by rw [hsent]) v).symm
  case h_2 hw => exact absurd hw <| h.workerOf_ne_none (by rw [hpc]; trivial) hi

theorem step_start (hu : Undisturbed servers ok s) (hd : Distinct servers ok) (h : Invariant servers ok s)
    (hpc : s.pc = .start i w) (hs : stepMain servers ok s = some s') : Undisturbed servers ok s' := by
  obtain ⟨hi, ho, hw⟩ := h.current_at hpc
  have hnew : (s.workers w).run = .new := hd.new h hu.raised (by rw [hpc]; rfl) hi ho hw
  simp only [stepMain, hpc] at hs
  split at hs
  case isTrue hr =>
    obtain rfl := Option.some.inj hs
    have hsent : ({ s.workers w with run := .send } : Worker).sent = (s.workers w).sent := by
      simp only [Worker.sent, hnew]
    have hk := hu.keep (t := { s.workers w with run := .send }) rfl hsent
    refine hk.move (by rintro ⟨⟩) rfl rfl rfl fun v j => ?_
    show _ ↔ j < given servers s.pc ∧ _
    rw [hpc]
    rfl
  case isFalse hr => exact absurd hnew hr

theorem step_join (hu : Undisturbed servers ok s) (h : Invariant servers ok s) (hpc : s.pc = .join i)
    (hs : stepMain servers ok s = some s') : Undisturbed servers ok s' := by
  simp only [stepMain, hpc] at hs
  split at hs
  case isTrue hi =>
    split at hs
    case h_1 w hw =>
      obtain ⟨_, hs⟩ := Option.ite_none_left_eq_some.mp hs
      obtain rfl := Option.some.inj hs
      refine hu.move (by rintro ⟨⟩) rfl rfl rfl fun v j => ?_
      rw [hpc]
      rfl
    case h_2 hw => exact absurd hw <| h.workerOf_ne_none (by rw [hpc]; trivial) hi
  case isFalse =>
    obtain rfl := Option.some.inj hs
    refine hu.move (by rintro ⟨⟩) rfl rfl rfl fun v j => ?_
    rw [hpc]
    rfl

theorem step_main (hu : Undisturbed servers ok s) (hd : Distinct servers ok) (h : Invariant servers ok s)
    (hs : stepMain servers ok s = some s') : Undisturbed servers ok s' := by
  cases hpc : s.pc
  case create            => exact hu.step_create hpc hs
  case connect           => exact hu.step_connect h hpc hs
  case setSocket         => exact hu.step_setSocket hd h hpc hs
  case start             => exact hu.step_start hd h hpc hs
  case join              => exact hu.step_join h hpc hs
  case returned | raised => simp [stepMain, hpc] at hs

end Undisturbed

theorem nodup_connected : (connected servers ok).Nodup :=
  List.nodup_range.filter _

-- All workers that have been started have finished when `ping_servers` returns.
theorem finished (h : Invariant servers ok s) (hpc : s.pc = .returned) (hw : w ∈ s.starts) :
    (s.workers w).run = .finished := by
  have hn := (h.started w).mpr hw
  have ⟨i, _, _, hi⟩ := exists_of_started h (by rw [hpc]; nofun) hn
  have hj := h.joined i w (by rw [hpc]; trivial) hi
  by_contra hf
  exact hj ⟨hn, hf⟩

variable [DecidableEq α]

-- A ping is sent on each connection, and no thread is started twice, given another socket, or left behind. As
-- long as `ping_servers` has not returned, it or one of the workers can go on.
structure Pinged (servers : List α) (ok : ℕ → Bool) (s : State α) : Prop where
  raised  : s.pc ≠ .raised
  starts  : s.starts.Nodup
  swapped : s.swapped = false
  goesOn  : s.pc = .returned ∨ ∃ e, (pingServers servers ok).Enabled s e
  pings   : s.pc = .returned → s.pings.Perm (connected servers ok)
  joined  : s.pc = .returned → ∀ w ∈ s.starts, (s.workers w).run = .finished

theorem undisturbed (hd : Distinct servers ok) (h : (pingServers servers ok).Reachable s) :
    Undisturbed servers ok s := by
  suffices hi : Invariant servers ok s ∧ Undisturbed servers ok s from hi.right
  refine h.invariant (I := fun s => Invariant servers ok s ∧ Undisturbed servers ok s) ⟨.init, .init⟩
    fun {s₁ e s₂} hi _ hs => ⟨hi.left.step hs, ?_⟩
  cases e
  case main     => exact hi.right.step_main hd hi.left hs
  case worker w => exact hi.right.step_worker hi.left hs

-- The first two loops have ended, or an exception has been raised.
def Ended : Pc → Prop
  | .join _   => True
  | .returned => True
  | .raised   => True
  | _         => False

-- The main thread does not wait for anything in the first two loops.
theorem exists_step (he : ¬Ended s.pc) : ∃ s', stepMain servers ok s = some s' := by
  cases hpc : s.pc
  all_goals
    rw [hpc] at he
    simp only [stepMain, hpc]
  case join | returned | raised => exact absurd trivial he
  all_goals
    split
    all_goals exact ⟨_, rfl⟩

omit [DecidableEq α] in
theorem exists_step_worker (h : (s.workers w).isAlive) : ∃ s', stepWorker s w = some s' := by
  cases hr : (s.workers w).run
  all_goals simp only [stepWorker, hr]
  case new      => exact absurd hr h.left
  case finished => exact absurd hr h.right
  case send =>
    split
    all_goals exact ⟨_, rfl⟩
  case recv | close => exact ⟨_, rfl⟩

-- In the last loop, it is only waited for workers that can go on.
theorem goes_on (h : Invariant servers ok s) (hr : s.pc ≠ .raised) :
    s.pc = .returned ∨ ∃ e, (pingServers servers ok).Enabled s e := by
  by_cases he : Ended s.pc
  case neg => exact .inr ⟨.main, Option.isSome_iff_exists.mpr <| exists_step he⟩
  case pos =>
    cases hpc : s.pc
    all_goals rw [hpc] at he
    case returned => exact .inl rfl
    case raised   => exact absurd hpc hr
    case join i   =>
      by_cases hi : i < servers.length
      case neg => exact .inr ⟨.main, by simp [System.Enabled, pingServers, stepMain, hpc, hi]⟩
      case pos =>
        obtain ⟨w, hw⟩ := Option.ne_none_iff_exists'.mp <| h.workerOf_ne_none (by rw [hpc]; trivial) hi
        by_cases ha : (s.workers w).isAlive
        case pos => exact .inr ⟨.worker w, Option.isSome_iff_exists.mpr <| exists_step_worker ha⟩
        case neg =>
          rw [workerOf] at hw
          refine .inr ⟨.main, ?_⟩
          simp only [System.Enabled, pingServers, stepMain, hpc, if_pos hi, hw, if_neg ha, Option.isSome_some]
    all_goals cases he

theorem pinged (hd : Distinct servers ok) (h : (pingServers servers ok).Reachable s) :
    Pinged servers ok s := by
  have hi := invariant h
  have hu := undisturbed hd h
  refine ⟨hu.raised, hi.nodup hu.raised, hu.swapped, goes_on hi hu.raised, fun hpc => ?_,
    fun hpc w => finished hi hpc⟩
  refine (List.perm_ext_iff_of_nodup hu.nodup nodup_connected).mpr fun i => ?_
  have hk w := hu.socket w i
  rw [hpc] at hk
  rw [hu.pings, mem_connected]
  constructor
  case mp =>
    intro ⟨w, hw⟩
    have ⟨hl, ho, _⟩ := (hk w).mp <| Worker.socket_of_sent hw
    exact ⟨hl, ho⟩
  case mpr =>
    intro ⟨hl, ho⟩
    have ⟨w, hw⟩ := Option.ne_none_iff_exists'.mp <| hi.workerOf_ne_none (by rw [hpc]; trivial) hl
    have hs := (hk w).mpr ⟨hl, ho, hw⟩
    have hst : some w ∈ s.starts.map some := by
      rw [hi.starts hu.raised, hpc, ←hw]
      exact List.mem_map_of_mem <| mem_connected.mpr ⟨hl, ho⟩
    have hf := finished hi hpc <| by simpa using hst
    exact ⟨w, by simp only [Worker.sent, hf, hs]⟩

-- The statements of `ping_servers` that have been executed.
def Pc.work (n : ℕ) : Pc → ℕ
  | .create i    => min i n
  | .connect i   => n + 1 + 3 * i
  | .setSocket i => n + 2 + 3 * i
  | .start i _   => n + 3 + 3 * i
  | .join i      => 4 * n + 2 + min i n
  | .returned    => 5 * n + 3
  | .raised      => 5 * n + 3

-- The same for a worker.
def Run.work : Run → ℕ
  | .new      => 0
  | .send     => 0
  | .recv     => 1
  | .close    => 2
  | .finished => 3

def State.work (n : ℕ) (s : State α) : ℕ :=
  s.pc.work n + ∑ w ∈ Finset.range n, (s.workers w).run.work

omit [DecidableEq α] in
theorem work_le (h : Invariant servers ok s) : s.pc.work servers.length ≤ 5 * servers.length + 3 := by
  have hc := h.current
  cases hpc : s.pc
  all_goals
    rw [hpc] at hc
    simp only [Pc.work]
  case create i    => omega
  case connect i   =>
    have : i ≤ servers.length := hc
    omega
  case setSocket i =>
    have := hc.left
    omega
  case start i w   =>
    have := hc.left
    omega
  case join i      => omega
  all_goals exact le_rfl

theorem work_lt (h : Invariant servers ok s) (hs : stepMain servers ok s = some s') :
    s.pc.work servers.length < s'.pc.work servers.length := by
  have hc := h.current
  cases hpc : s.pc
  all_goals
    simp only [stepMain, hpc] at hs
    rw [hpc] at hc
  case create i =>
    split at hs
    case h_1 server hi =>
      obtain rfl := Option.some.inj hs
      have hl : i < servers.length := (List.getElem?_eq_some_iff.mp hi).fst
      simp only [Pc.work]
      omega
    case h_2 =>
      obtain rfl := Option.some.inj hs
      simp only [Pc.work]
      omega
  case connect i =>
    have hc : i ≤ servers.length := hc
    split at hs
    case isTrue =>
      obtain rfl := Option.some.inj hs
      dsimp only
      split <;> simp only [Pc.work] <;> omega
    case isFalse =>
      obtain rfl := Option.some.inj hs
      simp only [Pc.work]
      omega
  case setSocket i =>
    have := hc.left
    split at hs
    all_goals
      obtain rfl := Option.some.inj hs
      simp only [Pc.work]
      omega
  case start i w =>
    have := hc.left
    split at hs
    all_goals
      obtain rfl := Option.some.inj hs
      simp only [Pc.work]
      omega
  case join i =>
    split at hs
    case isTrue hi =>
      split at hs
      case h_1 =>
        obtain ⟨_, hs⟩ := Option.ite_none_left_eq_some.mp hs
        obtain rfl := Option.some.inj hs
        simp only [Pc.work]
        omega
      case h_2 =>
        obtain rfl := Option.some.inj hs
        simp only [Pc.work]
        omega
    case isFalse hi =>
      obtain rfl := Option.some.inj hs
      simp only [Pc.work]
      omega
  case returned | raised => cases hs

-- The main thread does not take anything back that a worker has done.
theorem run_work_le (hs : stepMain servers ok s = some s') (w : ℕ) :
    (s.workers w).run.work ≤ (s'.workers w).run.work := by
  have update {t : Worker} {v : ℕ} (ht : (s.workers v).run.work ≤ t.run.work) :
      (s.workers w).run.work ≤ ((s.setWorker v t).workers w).run.work := by
    by_cases hw : w = v
    case pos => rwa [hw, setWorker_self]
    case neg => rw [setWorker_ne hw]
  cases hpc : s.pc
  all_goals simp only [stepMain, hpc] at hs
  case setSocket i =>
    split at hs
    case h_1 => exact Option.some.inj hs ▸ update le_rfl
    case h_2 => exact Option.some.inj hs ▸ le_rfl
  case start i v =>
    split at hs
    case isTrue hn => exact Option.some.inj hs ▸ update (by rw [hn]; exact le_rfl)
    case isFalse   => exact Option.some.inj hs ▸ le_rfl
  case join i =>
    split at hs
    case isTrue =>
      split at hs
      case h_1 =>
        obtain ⟨_, hs⟩ := Option.ite_none_left_eq_some.mp hs
        exact Option.some.inj hs ▸ le_rfl
      case h_2 => exact Option.some.inj hs ▸ le_rfl
    case isFalse => exact Option.some.inj hs ▸ le_rfl
  case create | connect =>
    split at hs
    all_goals exact Option.some.inj hs ▸ le_rfl
  case returned | raised => cases hs

omit [DecidableEq α] in
theorem stepWorker_work (hs : stepWorker s w = some s') :
    s'.pc = s.pc ∧ (∀ v ≠ w, s'.workers v = s.workers v) ∧
      (s.workers w).run.work < (s'.workers w).run.work := by
  cases hr : (s.workers w).run
  all_goals simp only [stepWorker, hr] at hs
  case new | finished => cases hs
  case send =>
    split at hs
    all_goals
      obtain rfl := Option.some.inj hs
      refine ⟨rfl, fun v hv => setWorker_ne hv, ?_⟩
      simp [State.setWorker, Run.work]
  case recv | close =>
    obtain rfl := Option.some.inj hs
    refine ⟨rfl, fun v hv => setWorker_ne hv, ?_⟩
    simp [State.setWorker, Run.work]

-- Each step of a worker that has been created is one of the at most three that it makes.
theorem State.work_lt (h : Invariant servers ok s) (hu : Undisturbed servers ok s)
    (hs : (pingServers servers ok).step s e = some s') : s.work servers.length < s'.work servers.length := by
  cases e
  case main =>
    have hm := Servers.work_lt h hs
    have hw := Finset.sum_le_sum fun w (_ : w ∈ Finset.range servers.length) => run_work_le hs w
    exact Nat.add_lt_add_of_lt_of_le hm hw
  case worker w =>
    have ⟨hpc, hne, hlt⟩ := stepWorker_work hs
    have hn : (s.workers w).run ≠ .new := by
      intro hn
      simp [pingServers, stepWorker, hn] at hs
    obtain ⟨i, _, _, hi⟩ := exists_of_started h hu.raised hn
    obtain ⟨_, _, hw⟩ := Option.bind_eq_some_iff.mp hi
    have hw : w < servers.length := (List.getElem?_eq_some_iff.mp <| h.named _ _ hw).fst
    rw [State.work, State.work, hpc]
    apply Nat.add_lt_add_left
    apply Finset.sum_lt_sum
    case hle =>
      intro v _
      by_cases hv : v = w
      case pos => exact hv ▸ hlt.le
      case neg => rw [hne v hv]
    case hlt => exact ⟨w, Finset.mem_range.mpr hw, hlt⟩

omit [DecidableEq α] in
theorem State.work_le (h : Invariant servers ok s) : s.work servers.length ≤ 8 * servers.length + 3 := by
  have hm := Servers.work_le h
  have hr (r : Run) : r.work ≤ 3 := by cases r <;> decide
  have hw := Finset.sum_le_sum fun w (_ : w ∈ Finset.range servers.length) => hr (s.workers w).run
  rw [Finset.sum_const_nat fun _ _ => rfl, Finset.card_range] at hw
  rw [State.work]
  omega

-- A run in which no worker is used twice has an end.
theorem length_le (hd : Distinct servers ok) {es : List Event}
    (h : (pingServers servers ok).exec init es = some s) : es.length ≤ 8 * servers.length + 3 := by
  have step {s₁ e s₂} (h : (pingServers servers ok).Reachable s₁)
      (hs : (pingServers servers ok).step s₁ e = some s₂) :
      (pingServers servers ok).Reachable s₂ ∧ s₁.work servers.length < s₂.work servers.length :=
    ⟨h.next hs, State.work_lt (invariant h) (undisturbed hd h) hs⟩
  have hl := System.work_add_length_le (State.work servers.length) step .init h
  have := State.work_le <| invariant <| System.ReachableUnder.of_exec h
  omega

-- If nothing goes wrong, then a different worker is started for each of the connections.
theorem distinct (h : ∀ es s, (pingServers servers ok).exec init es = some s → Pinged servers ok s) :
    Distinct servers ok := by
  have progress {s : State α} (hi : Invariant servers ok s) (he : ¬Ended s.pc) :
      ∃ e s', (pingServers servers ok).step s e = some s' ∧
        s.pc.work servers.length < s'.pc.work servers.length :=
    have ⟨s', hs⟩ := exists_step he
    ⟨.main, s', hs, work_lt hi hs⟩
  have ⟨es, s, hs, he⟩ := System.exists_exec_of_progress (·.pc.work servers.length) _
    (fun hi hs => hi.step hs) work_le progress (.init : Invariant servers ok init)
  have hi := invariant <| System.ReachableUnder.of_exec hs
  have hp := h es s hs
  have hl : reached servers s.pc = servers.length := by
    cases hpc : s.pc
    all_goals rw [hpc] at he
    case join | returned => rfl
    case raised => exact absurd hpc hp.raised
    all_goals cases he
  have hn := hp.starts.map fun _ _ => Option.some.inj
  rw [hi.starts hp.raised, hl] at hn
  refine nodup_connected.map_on fun i hmi j hmj he => ?_
  refine List.inj_on_of_nodup_map hn hmi hmj ?_
  rw [workerOf, he, workerOf]

-- Each run has an end, and nothing goes wrong until `ping_servers` returns, if and only if the names of the
-- servers that can be connected to are distinct.
theorem ping_servers_iff (servers : List α) (ok : ℕ → Bool) :
    (∀ es s, (pingServers servers ok).exec init es = some s →
        es.length ≤ 8 * servers.length + 3 ∧ Pinged servers ok s) ↔
      (((List.range servers.length).filter ok).map (servers[·]?)).Nodup where
  mp  h         := distinct fun es s he => (h es s he).right
  mpr hd _ _ he := ⟨length_le hd he, pinged hd <| System.ReachableUnder.of_exec he⟩

-- Both entries of one name lead to the same worker, which is started twice.
theorem not_ping_servers :
    ¬∀ (servers : List (List Char)) ok es s, (pingServers servers ok).exec init es = some s →
        es.length ≤ 8 * servers.length + 3 ∧ Pinged servers ok s := by
  intro h
  let sys := pingServers [['a'], ['a']] fun _ => true
  have he : (sys.exec init <| List.replicate 9 .main).map (·.pc) = some .raised := by decide
  have ⟨s, he, hpc⟩ := Option.map_eq_some_iff.mp he
  exact (h _ _ _ s he).right.raised hpc

end WorkloadKit.PingPong.Servers
