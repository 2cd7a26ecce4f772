import WorkloadKit.Pulse.Theorems.Main

namespace WorkloadKit.Pulse

open CString Utils

variable {exp : Experiment} {now w : ℤ} {i k : ℤ} {l : List ℤ} {n : ℕ}

-- The bursts that a user asks for, where the time is given in nanoseconds.
structure Regular (exp : Experiment) (now : ℤ) : Prop where
  count : (bursts exp now (nrIter exp).toNat).length = exp.duration * exp.freq / 1000000
  phase : ∀ t ∈ bursts exp now (nrIter exp).toNat, period exp ∣ tvUsec t
  gap   : (bursts exp now (nrIter exp).toNat).IsChain fun t₁ t₂ => t₂ = t₁ + period exp * 1000

-- The options for which the bursts are meant to fit into their periods.
structure Fits (exp : Experiment) : Prop where
  duration : 0 ≤ exp.duration
  freq     : 1 ≤ exp.freq ∧ exp.freq ≤ 1000000
  spin     : 1 ≤ exp.spin
  load     : exp.spin * exp.freq < 1000000

theorem length_bursts : (bursts exp now n).length = n := by
  induction n generalizing now
  case zero    => rfl
  case succ hi => rw [bursts, List.length_cons, hi]

theorem tvUsec_bounds (now : ℤ) : 0 ≤ tvUsec now ∧ tvUsec now < 1000000 := by
  rw [tvUsec, USEC_PER_SEC]
  omega

theorem tvUsec_add : tvUsec (now + k * 1000) = (tvUsec now + k) % 1000000 := by
  simp only [tvUsec, USEC_PER_SEC]
  omega

theorem period_eq : period exp = 1000000 / exp.freq :=
  Int.tdiv_eq_ediv_of_nonneg (by decide)

theorem period_le (exp : Experiment) : period exp ≤ 1000000 :=
  period_eq ▸ Int.ediv_le_self _ (by decide)

-- What is left of a second after as many periods as fit into it.
theorem second_eq (exp : Experiment) : 1000000 / period exp * period exp + 1000000 % period exp = 1000000 :=
  Int.mul_comm _ _ ▸ Int.mul_ediv_add_emod 1000000 (period exp)

namespace Fits

theorem period_pos (h : Fits exp) : 0 < period exp :=
  (period_pos_iff h.freq.left).mpr h.freq.right

-- The number of iterations is the one that has been asked for if nothing of the duration is lost.
theorem count_iff (h : Fits exp) : ((nrIter exp).toNat : ℤ) = exp.duration * exp.freq / 1000000 ↔
    exp.duration / 1000000 * exp.freq < 2 ^ 31 ∧ exp.duration % 1000000 * exp.freq < 1000000 := by
  have hq : 0 ≤ exp.duration / 1000000 * exp.freq :=
    Int.mul_nonneg (Int.ediv_nonneg h.duration <| by decide) (by have := h.freq.left; omega)
  have hr : 0 ≤ exp.duration % 1000000 * exp.freq :=
    Int.mul_nonneg (Int.emod_nonneg _ <| by decide) (by have := h.freq.left; omega)
  have hn : exp.duration * exp.freq / 1000000 =
      exp.duration / 1000000 * exp.freq + exp.duration % 1000000 * exp.freq / 1000000 := by
    have hd : exp.duration * exp.freq =
        exp.duration % 1000000 * exp.freq + exp.duration / 1000000 * exp.freq * 1000000 := by
      conv_lhs => rw [←Int.mul_ediv_add_emod exp.duration 1000000]
      ring
    rw [hd, Int.add_mul_ediv_right _ _ (by decide), Int.add_comm]
  rw [hn, nrIter, USEC_PER_SEC, Int.tdiv_eq_ediv_of_nonneg h.duration, toInt]
  generalize exp.duration / 1000000 * exp.freq = q at hq ⊢
  generalize exp.duration % 1000000 * exp.freq = r at hr ⊢
  by_cases hu : q < 2 ^ 31
  case pos =>
    rw [Int.bmod_eq_of_le (by omega) (by omega)]
    omega
  case neg =>
    have := Int.bmod_lt (x := q) (m := 2 ^ 32) (by decide)
    omega

theorem sync_bounds (h : Fits exp) (now : ℤ) :
    1 ≤ sync exp (tvUsec now) ∧ sync exp (tvUsec now) ≤ period exp :=
  Pulse.sync_bounds h.period_pos (tvUsec_bounds now).left

end Fits

theorem sync_eq (exp : Experiment) (now : ℤ) :
    sync exp (tvUsec now) = period exp - tvUsec now % period exp := by
  rw [sync, Int.tmod_eq_emod_of_nonneg (tvUsec_bounds now).left]

-- The next multiple of the period.
theorem tvUsec_add_sync : tvUsec now + sync exp (tvUsec now) = (tvUsec now / period exp + 1) * period exp := by
  have := Int.mul_ediv_add_emod (tvUsec now) (period exp)
  rw [sync_eq, Int.add_mul, Int.one_mul, Int.mul_comm _ (period exp)]
  omega

-- The start of the first burst of a run from the given time.
def start (exp : Experiment) (now : ℤ) : ℤ :=
  nanosleep now <| sleepTime exp <| tvUsec now

-- The time at which an iteration from the given time ends.
def finish (exp : Experiment) (now : ℤ) : ℤ :=
  start exp now + exp.spin * 1000

-- What `gettimeofday` returns in the iterations.
def gettimeofday (exp : Experiment) (now : ℤ) (i : ℕ) : ℤ :=
  tvUsec <| (finish exp)^[i] now

-- The times at which the timer is set by the given operations.
def timers (now : ℤ) : List Op → List ℤ
  | []                     => []
  | .divide _ :: ops       => timers now ops
  | .nanosleep ts :: ops   => timers (nanosleep now ts) ops
  | .setitimer usec :: ops => now :: timers (now + usec * 1000) ops

theorem timers_replicate_divide (d : ℤ) (ops : List Op) :
    timers now (List.replicate n (.divide d) ++ ops) = timers now ops := by
  induction n
  case zero    => rfl
  case succ hi => exact hi

theorem timers_iteration (hf : exp.freq ≠ 0) (hp : period exp ≠ 0) (ops : List Op) :
    timers now ((iteration true exp <| tvUsec now).fst ++ ops) =
      start exp now :: timers (finish exp now) ops := by
  rw [iteration, if_neg hf, if_neg hp]
  rfl

theorem timers_loop (hf : exp.freq ≠ 0) (hp : period exp ≠ 0) (hr : spinRunReturns exp) (i : ℕ) :
    timers ((finish exp)^[i] now) (loop true exp (gettimeofday exp now) i n) =
      bursts exp ((finish exp)^[i] now) n := by
  induction n generalizing i
  case zero => rfl
  case succ n hi =>
    have hn (usec : ℤ) : (iteration true exp usec).snd = true := by
      rw [iteration, if_neg hf, if_neg hp]
      exact hr
    have hi := hi (i + 1)
    rw [Function.iterate_succ_apply'] at hi
    rw [loop]
    dsimp only
    rw [if_pos (hn _), gettimeofday, timers_iteration hf hp, hi]
    rfl

-- The bursts are those of `main`, if all allocations succeed and the clock goes on while it sleeps and spins.
theorem timers_mainOps (h : Fits exp) (hn : 0 ≤ exp.nrThread) :
    timers now (mainOps true exp <| gettimeofday exp now) = bursts exp now (nrIter exp).toNat := by
  have hf := h.freq.left
  have hs := h.spin
  have hl : exp.spin < 1000000 := by
    have hm := Int.mul_le_mul_of_nonneg_left hf <| show 0 ≤ exp.spin by omega
    rw [Int.mul_one] at hm
    exact hm.trans_lt h.load
  have hr : spinRunReturns exp := by
    have ht : Spin.setitimer exp.spin = some true := by
      rw [Spin.setitimer, if_pos ⟨by omega, hl⟩, decide_eq_true (by omega)]
    rw [spinRunReturns, ht]
    rfl
  have hc : spinInit true exp = true := by simp [spinInit, hn]
  rw [mainOps, hc, if_pos rfl, List.cons_append, timers, timers_replicate_divide]
  exact timers_loop (by omega) h.period_pos.ne' hr 0

theorem start_eq (h : Fits exp) (hs : sync exp (tvUsec now) < 1000000) :
    start exp now = now + sync exp (tvUsec now) * 1000 := by
  have ⟨hl, _⟩ := h.sync_bounds now
  rw [start, nanosleep, sleepTime, if_pos (by dsimp only; omega)]
  dsimp only
  omega

-- With one burst per second, the program does not sleep at a full second.
theorem start_eq_self (hs : 1000000 ≤ sync exp (tvUsec now)) : start exp now = now := by
  rw [start, nanosleep, sleepTime, if_neg (by dsimp only; omega)]

-- If the last period of a second is cut off, then only the multiples up to its start are in the same second.
theorem le_of_dvd (h : Fits exp) (hr : 1000000 % period exp ≠ 0) (hi : i ≤ 1000000 / period exp)
    (hd : period exp ∣ ((i + 1) * period exp) % 1000000) : i + 1 ≤ 1000000 / period exp := by
  by_contra hn
  obtain rfl : i = 1000000 / period exp := by omega
  have hp := h.period_pos
  have := period_le exp
  have := second_eq exp
  have hl := Int.emod_nonneg 1000000 hp.ne'
  have hu := Int.emod_lt_of_pos 1000000 hp
  have hm : ((1000000 / period exp + 1) * period exp) % 1000000 = period exp - 1000000 % period exp := by
    rw [Int.add_mul, Int.one_mul]
    omega
  rw [hm] at hd
  have := Int.le_of_dvd (by omega) hd
  omega

-- The time of a multiple of the period that is in the same second.
theorem mul_period_lt (h : Fits exp) (hr : 1000000 % period exp ≠ 0) (hi : i ≤ 1000000 / period exp) :
    i * period exp < 1000000 := by
  have := Int.mul_le_mul_of_nonneg_right hi h.period_pos.le
  have := second_eq exp
  have := Int.emod_nonneg 1000000 h.period_pos.ne'
  omega

theorem dvd_emod_iff (hr : 1000000 % period exp = 0) : period exp ∣ k % 1000000 ↔ period exp ∣ k := by
  rw [Int.dvd_iff_emod_eq_zero, Int.emod_emod_of_dvd k <| Int.dvd_of_emod_eq_zero hr, Int.dvd_iff_emod_eq_zero]

-- If the periods fill up a second, then all bursts start at a multiple of the period.
theorem dvd_tvUsec_start (h : Fits exp) (hr : 1000000 % period exp = 0) :
    period exp ∣ tvUsec (start exp now) := by
  by_cases hs : sync exp (tvUsec now) < 1000000
  case pos =>
    rw [start_eq h hs, tvUsec_add, tvUsec_add_sync, dvd_emod_iff hr]
    exact Int.dvd_mul_left _ _
  case neg =>
    have ⟨_, hu⟩ := h.sync_bounds now
    have := period_le exp
    have := sync_eq exp now
    rw [start_eq_self (by omega)]
    exact Int.dvd_of_emod_eq_zero (by omega)

-- Otherwise, the first burst starts at the next multiple, which can be in the next second.
theorem tvUsec_start (h : Fits exp) (hr : 1000000 % period exp ≠ 0) :
    tvUsec (start exp now) = (tvUsec now / period exp + 1) * period exp % 1000000 := by
  have ⟨_, hu⟩ := h.sync_bounds now
  have hp : period exp ≠ 1000000 := fun hp => hr <| hp ▸ Int.emod_self
  have := period_le exp
  rw [start_eq h (by omega), tvUsec_add, tvUsec_add_sync]

-- If a burst starts at a multiple of the period and ends before the next one, then the next burst starts there.
theorem start_after (h : Fits exp) (hs : exp.spin < period exp) (hw : period exp ∣ tvUsec w)
    (hn : 1000000 % period exp = 0 ∨ tvUsec w + period exp ≤ 1000000) :
    start exp (w + exp.spin * 1000) = w + period exp * 1000 := by
  have hm : tvUsec (w + exp.spin * 1000) % period exp = exp.spin := by
    have hm : (tvUsec w + exp.spin) % period exp = exp.spin := by
      obtain ⟨k, hk⟩ := hw
      rw [hk, Int.mul_add_emod_self_left, Int.emod_eq_of_lt (by have := h.spin; omega) hs]
    rw [tvUsec_add]
    by_cases hr : 1000000 % period exp = 0
    case pos => rw [Int.emod_emod_of_dvd _ <| Int.dvd_of_emod_eq_zero hr, hm]
    case neg =>
      have := hn.resolve_left hr
      have := tvUsec_bounds w
      have := h.spin
      rw [Int.emod_eq_of_lt (a := tvUsec w + exp.spin) (by omega) (by omega), hm]
  have := h.spin
  have := period_le exp
  have hy := sync_eq exp <| w + exp.spin * 1000
  rw [hm] at hy
  rw [start_eq h (by omega), hy]
  omega

-- The next multiple of the period is in the same second, or the periods fill up a second.
theorem tvUsec_add_period (h : Fits exp) (hr : 1000000 % period exp ≠ 0) (hw : period exp ∣ tvUsec w)
    (hn : tvUsec w + period exp ≤ 1000000) : tvUsec (w + period exp * 1000) = tvUsec w + period exp := by
  have hne : tvUsec w + period exp ≠ 1000000 := fun he =>
    hr <| Int.emod_eq_zero_of_dvd <| he ▸ Int.dvd_add hw (Int.dvd_refl _)
  have := (tvUsec_bounds w).left
  have := h.period_pos
  rw [tvUsec_add, Int.emod_eq_of_lt (by omega) (by omega)]

-- After a burst at a multiple of the period, the bursts follow each other regularly as long as the periods fill
-- up a second or the second does not end.
theorem regular_after (h : Fits exp) (hs : exp.spin < period exp) (hw : period exp ∣ tvUsec w)
    (hn : 1000000 % period exp = 0 ∨ tvUsec w + n * period exp ≤ 1000000) :
    (∀ t ∈ bursts exp (w + exp.spin * 1000) n, period exp ∣ tvUsec t) ∧
    (w :: bursts exp (w + exp.spin * 1000) n).IsChain fun t₁ t₂ => t₂ = t₁ + period exp * 1000 := by
  induction n generalizing w
  case zero => exact ⟨List.forall_mem_nil _, List.isChain_singleton _⟩
  case succ n hi =>
    have hn : 1000000 % period exp = 0 ∨ tvUsec w + period exp + n * period exp ≤ 1000000 := by
      rwa [Nat.cast_succ, Int.add_mul, Int.one_mul, Int.add_comm (_ * _), ←Int.add_assoc] at hn
    have hp : 0 ≤ n * period exp := Int.mul_nonneg (Int.natCast_nonneg n) h.period_pos.le
    have hb : start exp (w + exp.spin * 1000) = w + period exp * 1000 :=
      start_after h hs hw <| hn.imp_right fun hn => by omega
    have hc : bursts exp (w + exp.spin * 1000) (n + 1) =
        (w + period exp * 1000) :: bursts exp (w + period exp * 1000 + exp.spin * 1000) n := hb ▸ rfl
    have hw' : period exp ∣ tvUsec (w + period exp * 1000) ∧ (1000000 % period exp = 0 ∨
        tvUsec (w + period exp * 1000) + n * period exp ≤ 1000000) := by
      by_cases hr : 1000000 % period exp = 0
      case pos =>
        rw [tvUsec_add, dvd_emod_iff hr]
        exact ⟨Int.dvd_add hw (Int.dvd_refl _), .inl hr⟩
      case neg =>
        have hn := hn.resolve_left hr
        rw [tvUsec_add_period h hr hw (by omega)]
        exact ⟨Int.dvd_add hw (Int.dvd_refl _), .inr hn⟩
    have ⟨hp, hch⟩ := hi hw'.left hw'.right
    rw [hc]
    exact ⟨List.forall_mem_cons.mpr ⟨hw'.left, hp⟩, .cons_cons rfl hch⟩

-- If the last period of a second is cut off, then regular bursts do not go on after it.
theorem le_of_isChain (h : Fits exp) (hr : 1000000 % period exp ≠ 0) (hi : i ≤ 1000000 / period exp)
    (hw : tvUsec w = i * period exp) (hp : ∀ t ∈ l, period exp ∣ tvUsec t)
    (hc : (w :: l).IsChain fun t₁ t₂ => t₂ = t₁ + period exp * 1000) :
    i + l.length ≤ 1000000 / period exp := by
  induction l generalizing w i
  case nil => simpa using hi
  case cons w' l hl =>
    obtain _ | _ | ⟨rfl, hc⟩ := hc
    have ⟨hd, hp⟩ := List.forall_mem_cons.mp hp
    have hm : tvUsec (w + period exp * 1000) = (i + 1) * period exp % 1000000 := by
      rw [tvUsec_add, hw, Int.add_mul, Int.one_mul]
    have hi' := le_of_dvd h hr hi <| hm ▸ hd
    have hnn : 0 ≤ (i + 1) * period exp := by
      have := (tvUsec_bounds w).left
      have := h.period_pos
      rw [Int.add_mul, Int.one_mul]
      omega
    have := hl hi' (hm.trans <| Int.emod_eq_of_lt hnn <| mul_period_lt h hr hi') hp hc
    rw [List.length_cons]
    omega

-- The second burst is one period after the first one only if the first one ends before.
theorem spin_lt_of_start (h : Fits exp) (hs : start exp (w + exp.spin * 1000) = w + period exp * 1000) :
    exp.spin < period exp := by
  have := h.spin
  by_cases hv : sync exp (tvUsec <| w + exp.spin * 1000) < 1000000
  case pos =>
    have := h.sync_bounds <| w + exp.spin * 1000
    rw [start_eq h hv] at hs
    omega
  case neg =>
    have := h.sync_bounds <| w + exp.spin * 1000
    have := Int.mul_le_mul_of_nonneg_left h.freq.left (show 0 ≤ exp.spin by omega)
    have := h.load
    omega

theorem bursts_succ :
    bursts exp now (n + 1) = start exp now :: bursts exp (start exp now + exp.spin * 1000) n :=
  rfl

theorem tvUsec_start_of_le (h : Fits exp) (hr : 1000000 % period exp ≠ 0)
    (hi : tvUsec now / period exp + 1 ≤ 1000000 / period exp) :
    tvUsec (start exp now) = (tvUsec now / period exp + 1) * period exp := by
  have hp := h.period_pos
  have := Int.ediv_nonneg (tvUsec_bounds now).left hp.le
  rw [tvUsec_start h hr, Int.emod_eq_of_lt (Int.mul_nonneg (by omega) hp.le) <| mul_period_lt h hr hi]

-- A number of bursts is regular if the second does not end before the last one, and each one ends in time.
theorem bursts_regular_iff (h : Fits exp) (now : ℤ) (n : ℕ) :
    ((∀ t ∈ bursts exp now n, period exp ∣ tvUsec t) ∧
      (bursts exp now n).IsChain fun t₁ t₂ => t₂ = t₁ + period exp * 1000) ↔
    (n = 0 ∨ 1000000 % period exp = 0 ∨ tvUsec now / period exp + n ≤ 1000000 / period exp) ∧
    (n ≤ 1 ∨ exp.spin < period exp) := by
  cases n
  case zero => simp [bursts]
  case succ n =>
    rw [bursts_succ]
    constructor
    case mp =>
      intro ⟨hp, hc⟩
      have ⟨hd, hp⟩ := List.forall_mem_cons.mp hp
      constructor
      · by_cases hr : 1000000 % period exp = 0
        case pos => exact .inr <| .inl hr
        case neg =>
          have hi := Int.ediv_le_ediv h.period_pos (tvUsec_bounds now).right.le
          have hi := le_of_dvd h hr hi <| tvUsec_start h hr ▸ hd
          have hl := le_of_isChain h hr hi (tvUsec_start_of_le h hr hi) hp hc
          rw [length_bursts] at hl
          exact .inr <| .inr <| by omega
      · cases n
        case zero   => exact .inl le_rfl
        case succ n => exact .inr <| spin_lt_of_start h <| List.isChain_cons_cons.mp hc |>.left
    case mpr =>
      intro ⟨hn, hs⟩
      have hn := hn.resolve_left n.succ_ne_zero
      have hd : period exp ∣ tvUsec (start exp now) ∧
          (1000000 % period exp = 0 ∨ tvUsec (start exp now) + n * period exp ≤ 1000000) := by
        by_cases hr : 1000000 % period exp = 0
        case pos => exact ⟨dvd_tvUsec_start h hr, .inl hr⟩
        case neg =>
          have hn := hn.resolve_left hr
          have hm := Int.mul_le_mul_of_nonneg_right hn h.period_pos.le
          have := second_eq exp
          have := Int.emod_nonneg 1000000 h.period_pos.ne'
          rw [tvUsec_start_of_le h hr (by omega), ←Int.add_mul]
          rw [Nat.cast_succ, Int.add_comm n, ←Int.add_assoc] at hm
          exact ⟨Int.dvd_mul_left _ _, .inr <| by omega⟩
      cases n
      case zero   => exact ⟨List.forall_mem_singleton.mpr hd.left, List.isChain_singleton _⟩
      case succ n =>
        have ⟨hp, hc⟩ := regular_after h (hs.resolve_left <| by omega) hd.left hd.right
        exact ⟨List.forall_mem_cons.mpr ⟨hd.left, hp⟩, hc⟩

-- The bursts are regular if and only if nothing of the duration is lost when it is divided, the periods fill up
-- a second or no second ends before the last burst, and each burst ends before the next period.
theorem regular_iff (h : Fits exp) : Regular exp now ↔
    (exp.duration / 1000000 * exp.freq < 2 ^ 31 ∧ exp.duration % 1000000 * exp.freq < 1000000) ∧
    (exp.duration * exp.freq / 1000000 = 0 ∨ 1000000 % (1000000 / exp.freq) = 0 ∨
      tvUsec now / (1000000 / exp.freq) + exp.duration * exp.freq / 1000000 ≤ 1000000 / (1000000 / exp.freq)) ∧
    (exp.duration * exp.freq / 1000000 ≤ 1 ∨ exp.spin < 1000000 / exp.freq) := by
  rw [←h.count_iff, ←period_eq]
  have hb := bursts_regular_iff h now (nrIter exp).toNat
  constructor
  case mp =>
    intro hr
    have hn := length_bursts ▸ hr.count
    have ⟨hm, hs⟩ := hb.mp ⟨hr.phase, hr.gap⟩
    rw [←hn]
    exact ⟨rfl, hm.imp_left Int.natCast_eq_zero.mpr, hs.imp_left Nat.cast_le_one.mpr⟩
  case mpr =>
    intro ⟨hn, hm, hs⟩
    rw [←hn] at hm hs
    have ⟨hp, hc⟩ := hb.mpr ⟨hm.imp_left Int.natCast_eq_zero.mp, hs.imp_left Nat.cast_le_one.mp⟩
    exact ⟨length_bursts.symm ▸ hn, hp, hc⟩

-- Four bursts of 100 ms, one each quarter of a second.
theorem regular_default : Regular .default 0 :=
  (regular_iff ⟨by decide, by decide, by decide, by decide⟩).mpr
    ⟨by decide, .inr <| .inl <| by decide, .inr <| by decide⟩

-- A duration of 1.5 seconds is cut off to one second, so that there are 4 bursts instead of 6.
theorem not_regular : ¬∀ exp now, Fits exp → Regular exp now := by
  intro h
  let exp := { Experiment.default with duration := 1500000 }
  have hc := (h exp 0 ⟨by decide, by decide, by decide, by decide⟩).count
  rw [length_bursts] at hc
  exact absurd hc (by decide)

end WorkloadKit.Pulse
