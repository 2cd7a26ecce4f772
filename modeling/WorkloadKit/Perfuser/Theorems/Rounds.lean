import Mathlib.Algebra.BigOperators.Fin
import Mathlib.Algebra.Order.BigOperators.Group.Finset
import WorkloadKit.Perfuser.Theorems.Thread

namespace WorkloadKit.Perfuser

variable {n : ℕ} {s s' : State n} {self v : Fin n} {cnt : Counter n} {w : Worker n}
  {counters : Fin n → Counter n} {b : Barrier} {args : Args} {calls : List Args} {e : Event n} {i : ℕ}

variable [NeZero n]

-- During a call of `do_one`, `g_counters` is there, and each thread and its element are as they should be.
def Live (s : State n) : Prop :=
  ∃ counters, s.gCounters = some counters ∧ ∀ v, ThreadInv s.args v (counters v) (s.workers v)

-- What is there, depending on what `main` does next.
def Shape (s : State n) : Prop :=
  match s.main with
  | .call | .returned => s.gCounters = none ∧ s.workers = fun _ => unborn
  | .create i         => Live s ∧ ∀ v : Fin n, (s.workers v).pc = .unborn ↔ i ≤ v
  | .join i           =>
    Live s ∧ ∀ v : Fin n, (s.workers v).pc ≠ .unborn ∧ (v < i → (s.workers v).pc = .returned)
  | .after | .free    => Live s ∧ ∀ v, (s.workers v).pc = .returned
  | .crashed          => False

-- The arguments of the call of `do_one` for which there is no line in the file yet.
def State.current (s : State n) : List Args :=
  match s.main with
  | .create _ | .join _ | .after => [s.args]
  | _                            => []

-- The hits of a line are counted and added up as an `int`, which has room for the overflows.
def Row.Counts (row : Row) : Prop :=
  ((row.overflows : ℤ) ≤ CInt.INT_MAX → 0 ≤ row.hits ∧ row.hits ≤ row.overflows ∧
    (row.args.disable = DISABLE_EARLY → row.hits = row.overflows)) ∧
  (row.args.dryrun = true → row.hits = 0)

-- Each thread arrives at the barrier once in a call of `do_one`.
structure Inv (calls : List Args) (s : State n) : Prop where
  shape  : Shape s
  synced : s.barrier.Synced (fun v => ((s.workers v).pc.part s.round).fst) fun v =>
    ((s.workers v).pc.part s.round).snd
  rows   : ∀ row ∈ s.rows, row.Counts
  order  : s.rows.map Row.args ++ s.current ++ s.calls = calls
  done   : s.main = .returned → s.calls = []

namespace Inv

theorem init : Inv calls (perfuser n args calls).init where
  shape  := ⟨rfl, rfl⟩
  synced := .init
  rows   := by simp [perfuser]
  order  := rfl
  done   := nofun

theorem synced_update (h : Inv calls s)
    (hm : Barrier.Move n s.barrier ((s.workers self).pc.part s.round) (w.pc.part s.round) b) :
    b.Synced (fun v => ((Function.update s.workers self w v).pc.part s.round).fst) fun v =>
      ((Function.update s.workers self w v).pc.part s.round).snd := by
  refine @Barrier.Synced.move _ _ _ _ _ _ (fun w : Worker n => w.pc.part s.round) s.workers self w h.synced ?_
  rwa [Fintype.card_fin]

-- A step of a thread, or an overflow of its counter.
theorem change (h : Inv calls s) (hi : ∀ v, ThreadInv s.args v (counters v) (s.workers v))
    (hn : Next s self cnt w b) :
    Inv calls (s.change self counters cnt w b) where
  shape := by
    have hl : Live (s.change self counters cnt w b) := by
      refine ⟨_, rfl, fun v => ?_⟩
      by_cases hv : v = self
      case pos => simpa [State.change, hv] using hn.inv
      case neg => simpa [State.change, hv] using hi v
    have hs := h.shape
    rw [Shape] at hs ⊢
    cases hm : s.main with simp only [hm, State.change] at hs ⊢
    | create i =>
      refine ⟨hl, fun v => ?_⟩
      by_cases hv : v = self
      case pos =>
        subst hv
        simpa [hn.born] using mt (hs.right v).mpr hn.runs.left
      case neg => simpa [hv] using hs.right v
    | join i =>
      refine ⟨hl, fun v => ?_⟩
      by_cases hv : v = self
      case pos =>
        subst hv
        exact ⟨by simpa using hn.born, fun hv => absurd ((hs.right v).right hv) hn.runs.right⟩
      case neg => simpa [hv] using hs.right v
    | after | free     => exact absurd (hs.right self) hn.runs.right
    | call | returned  => exact absurd (by rw [hs.right]; rfl) hn.runs.left
  synced := h.synced_update hn.barrier
  rows   := h.rows
  order  := h.order
  done   := h.done

theorem thread (h : Inv calls s) (hl : Live s) (he : thread s self = some s') : Inv calls s' := by
  obtain ⟨_, hc, hi⟩ := hl
  obtain ⟨_, _, _, rfl, hn, _⟩ := advances_of_thread hc (hi self) he
  exact h.change hi hn

theorem overflow (h : Inv calls s) (hl : Live s) (he : overflow s self = some s') : Inv calls s' := by
  obtain ⟨_, hc, hi⟩ := hl
  obtain ⟨_, _, _, rfl, hn, _⟩ := next_of_overflow hc (hi self) he
  exact h.change hi hn

-- A call of `do_one` allocates the counters.
theorem call (h : Inv calls s) {calls' : List Args} (hm : s.main = .call) (hs : s.calls = args :: calls') :
    Inv calls { s with
      main := .create 0, calls := calls', args, gCounters := some fun _ => ⟨0, none, none, 0⟩ } where
  shape := by
    have hw := h.shape
    simp only [Shape, hm] at hw
    refine ⟨⟨_, rfl, fun v => ?_⟩, fun v => ?_⟩ <;> simp only [hw.right]
    · exact .unborn rfl
    · simp [unborn]
  synced := h.synced
  rows   := h.rows
  order  := by simpa [State.current, hm, hs] using h.order
  done   := nofun

theorem create (h : Inv calls s) (hm : s.main = .create i) (hi : i < n) (hc : s.gCounters = some counters) :
    Inv calls { s.change ⟨i, hi⟩ counters { counters ⟨i, hi⟩ with args := some s.args, rank := ⟨i, hi⟩ }
      { s.workers ⟨i, hi⟩ with pc := .setRank } s.barrier with main := .create (i + 1) } := by
  have hs := h.shape
  simp only [Shape, hm] at hs
  obtain ⟨⟨_, hc', ht⟩, hu⟩ := hs
  obtain rfl := Option.some.inj <| hc.symm.trans hc'
  have hp := (hu ⟨i, hi⟩).mpr le_rfl
  refine ⟨⟨⟨_, rfl, fun v => ?live⟩, fun v => ?unborn⟩, ?synced, h.rows, ?order, nofun⟩
  case live =>
    by_cases hv : v = ⟨i, hi⟩
    case pos => simpa [State.change, hv] using (ht ⟨i, hi⟩).create hp
    case neg => simpa [State.change, hv] using ht v
  case unborn =>
    by_cases hv : v = ⟨i, hi⟩
    case pos => simp [State.change, hv]
    case neg =>
      have hne : (v : ℕ) ≠ i := fun he => hv <| Fin.ext he
      simp only [State.change, Function.update_of_ne hv, hu v]
      omega
  case synced => exact h.synced_update <| .stay <| by rw [hp]; rfl
  case order => simpa [State.current, State.change, hm] using h.order

-- The threads have been joined, and nothing is left of them.
theorem free (h : Inv calls s) (hm : s.main = .free) :
    Inv calls { s with
      main := .call, gCounters := none, workers := fun _ => (unborn : Worker n), round := s.round + 1 } where
  shape  := ⟨rfl, rfl⟩
  synced := by
    have hs := h.synced
    have hw := h.shape
    simp only [Shape, hm] at hw
    simpa [hw.right, unborn, Pc.part, Pc.passed, Pc.ticket] using hs
  rows   := h.rows
  order  := by simpa [State.current, hm] using h.order
  done   := nofun

omit [NeZero n] in
-- What the loop of `after_run` adds up.
theorem sum_hits (h : ∀ v, ThreadInv args v (counters v) (s.workers v)) :
    (List.finRange n).foldl (fun hits i => CInt.wrap (hits + (counters i).hits)) 0 =
      CInt.wrap (∑ v, (s.workers v).handled : ℕ) := by
  have hw := CInt.foldl_wrap (fun v => ((s.workers v).handled : ℤ)) (List.finRange n) 0
  simp only [CInt.wrap_zero, Int.zero_add, ← (h _).counted] at hw
  rw [hw, ← Fin.sum_univ_def, Nat.cast_sum]

theorem after (h : Inv calls s) (hm : s.main = .after) (hc : s.gCounters = some counters) :
    Inv calls { s with
      main := .free
      rows := s.rows ++ [⟨s.args,
        (List.finRange n).foldl (fun hits i => CInt.wrap (hits + (counters i).hits)) 0,
        ∑ i, (s.workers i).overflows⟩] } where
  shape  := by
    have hs := h.shape
    simp only [Shape, hm] at hs
    exact hs
  synced := h.synced
  rows   := by
    have hs := h.shape
    simp only [Shape, hm] at hs
    obtain ⟨⟨_, hc', ht⟩, hr⟩ := hs
    obtain rfl := Option.some.inj <| hc.symm.trans hc'
    have hl : ∑ v, (s.workers v).handled ≤ ∑ v, (s.workers v).overflows :=
      Finset.sum_le_sum fun v _ => (Nat.le_add_right ..).trans (ht v).hits
    rw [sum_hits ht]
    refine List.forall_mem_append.mpr ⟨h.rows, List.forall_mem_singleton.mpr ⟨fun hm => ?_, fun hd => ?_⟩⟩
    · have hw : CInt.wrap (∑ v, (s.workers v).handled : ℕ) = (∑ v, (s.workers v).handled : ℕ) :=
        CInt.wrap_of_isInt ⟨(show CInt.INT_MIN ≤ 0 by decide).trans <| Int.natCast_nonneg _,
          (Int.ofNat_le.mpr hl).trans hm⟩
      rw [hw]
      refine ⟨Int.natCast_nonneg _, Int.ofNat_le.mpr hl, fun ha => congrArg Nat.cast ?_⟩
      refine Finset.sum_congr rfl fun v _ => ?_
      rw [← ((ht v).early ha).hits, (ht v).inFlight_of_returned (hr v), Nat.add_zero]
    · have hz : ∑ v, (s.workers v).handled = 0 := by
        refine Finset.sum_eq_zero fun v _ => ?_
        have := (ht v).hits
        have := (ht v).overflows (.inl hd)
        omega
      rw [hz]
      exact CInt.wrap_zero
  order  := by simpa [State.current, hm] using h.order
  done   := nofun

-- `main` goes on without another effect.
theorem setMain (h : Inv calls s) (m : Main) (hs : Shape { s with main := m })
    (hm : State.current { s with main := m } = s.current) (hd : m = .returned → s.calls = []) :
    Inv calls { s with main := m } where
  shape  := hs
  synced := h.synced
  rows   := h.rows
  order  := hm ▸ h.order
  done   := hd

theorem main (h : Inv calls s) (he : main s = some s') : Inv calls s' := by
  have hs := h.shape
  cases hm : s.main with simp only [Shape, hm] at hs
  | call =>
    simp only [Perfuser.main, hm] at he
    split at he <;> cases he
    case h_1 hc => exact h.setMain .returned hs (by simp [State.current, hm]) fun _ => hc
    case h_2 hc => exact h.call hm hc
  | create i =>
    obtain ⟨_, hc, _⟩ := hs.left
    simp only [Perfuser.main, hm] at he
    split at he
    case isTrue hi  =>
      split at he
      case h_1 hn => cases hn.symm.trans hc
      case h_2 hc => exact Option.some.inj he ▸ h.create hm hi hc
    case isFalse hi =>
      cases he
      refine h.setMain (.join 0) ⟨hs.left, fun v => ⟨mt (hs.right v).mp ?_, nofun⟩⟩
        (by simp [State.current, hm]) nofun
      omega
  | join i =>
    simp only [Perfuser.main, hm] at he
    split at he
    case isTrue hi =>
      obtain ⟨hr, he⟩ := Option.ite_none_right_eq_some.mp he
      cases he
      refine h.setMain (.join (i + 1)) ⟨hs.left, fun v => ⟨(hs.right v).left, fun hv => ?_⟩⟩
        (by simp [State.current, hm]) nofun
      by_cases hvi : (v : ℕ) < i
      case pos => exact (hs.right v).right hvi
      case neg =>
        have hv : v = ⟨i, hi⟩ := Fin.ext <| by simp only; omega
        exact hv ▸ hr
    case isFalse hi =>
      cases he
      refine h.setMain .after ⟨hs.left, fun v => (hs.right v).right ?_⟩ (by simp [State.current, hm]) nofun
      omega
  | after =>
    obtain ⟨_, hc, _⟩ := hs.left
    simp only [Perfuser.main, hm] at he
    split at he
    case h_1 hn => cases hn.symm.trans hc
    case h_2 hc => exact Option.some.inj he ▸ h.after hm hc
  | free =>
    simp only [Perfuser.main, hm] at he
    cases he
    exact h.free hm
  | returned => simp [Perfuser.main, hm] at he

-- Between the calls of `do_one` there are no threads.
theorem live_or (h : Inv calls s) : Live s ∨ s.workers = fun _ => unborn := by
  have hs := h.shape
  cases hm : s.main with simp only [Shape, hm] at hs
  | create | join | after | free => exact .inl hs.left
  | call | returned              => exact .inr hs.right

theorem step (h : Inv calls s) (he : step s e = some s') : Inv calls s' := by
  replace he := (Option.ite_none_left_eq_some.mp he).right
  cases e
  case main       => exact h.main he
  case thread v   =>
    obtain hl | hw := h.live_or
    case inl => exact h.thread hl he
    case inr => simp [Perfuser.thread, hw, unborn, doWork] at he
  case overflow v =>
    obtain hl | hw := h.live_or
    case inl => exact h.overflow hl he
    case inr => simp [Perfuser.overflow, hw, unborn] at he

theorem reachable (h : (perfuser n args calls).Reachable s) : Inv calls s :=
  h.invariant init fun h _ he => h.step he

end Inv

end WorkloadKit.Perfuser
