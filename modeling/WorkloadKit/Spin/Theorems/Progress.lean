import Mathlib.Algebra.Order.BigOperators.Group.Finset
import Mathlib.Algebra.Order.Ring.Nat
import Mathlib.Algebra.Module.NatInt
import Mathlib.Tactic.Ring
import WorkloadKit.Spin.Theorems.Invariant

namespace WorkloadKit.Spin

variable {p : Params} {s s' : State} {i j k : ℕ} {t t' : Slot}

def Worker.work : Worker → ℕ
  | .unborn | .start  => 0
  | .wait             => 1
  | .test             => 2
  | .spin | .left     => 3
  | .post | .returned => 4

-- The number of statements that a worker has executed, apart from those that it has repeated.
def Slot.work (t : Slot) : ℕ :=
  4 * t.rounds + t.worker.work

-- The same for a main thread with `n` workers for which `k` calls of `spin_run` have returned.
def Main.work (n k : ℕ) : Main → ℕ
  | initTest     => 0
  | initCont     => 1
  | initSem i    => 2 + min i n
  | initCreate i => 3 + n + min i n
  | next         => 4 + 2 * n + k * (2 * n + 7)
  | runTest _    => 5 + 2 * n + k * (2 * n + 7)
  | runSet _     => 6 + 2 * n + k * (2 * n + 7)
  | runTimer _   => 7 + 2 * n + k * (2 * n + 7)
  | runPost i    => 9 + 2 * n + min i n + k * (2 * n + 7)
  | runWait i    => 10 + 3 * n + min i n + k * (2 * n + 7)
  | exitTest     => 5 + 2 * n + k * (2 * n + 7)
  | exitCont     => 6 + 2 * n + k * (2 * n + 7)
  | exitPost i   => 7 + 2 * n + min i n + k * (2 * n + 7)
  | exitJoin i   => 8 + 3 * n + min i n + k * (2 * n + 7)
  | exitFree     => 9 + 4 * n + k * (2 * n + 7)
  | done         => 10 + 4 * n + k * (2 * n + 7)
  | failed       => 0

def State.work (p : Params) (s : State) : ℕ :=
  s.main.work p.n s.returned + (!s.alarm).toNat + ∑ i ∈ Finset.range p.n, (s.slots i).work

theorem State.sum_setSlot_lt (hj : j < p.n) (h : (s.slots j).work < t.work) :
    ∑ i ∈ Finset.range p.n, (s.slots i).work <
      ∑ i ∈ Finset.range p.n, ((s.setSlot j t).slots i).work := by
  apply Finset.sum_lt_sum
  case hlt => exact ⟨j, Finset.mem_range.mpr hj, by simpa [State.setSlot] using h⟩
  case hle =>
    intro i _
    by_cases hc : i = j
    case pos => subst hc; simpa [State.setSlot] using h.le
    case neg => simp [State.setSlot, hc]

-- A worker can go on if it is neither waiting nor spinning.
theorem worker_progress (hu : t.worker ≠ .unborn) (hr : t.worker ≠ .returned)
    (hw : t.worker = .wait → 0 < t.semStart) (hs : t.worker = .spin → run = false) :
    ∃ t', worker cont run t = some t' ∧ t.work < t'.work := by
  obtain ⟨_, _, w, _⟩ := t
  cases w <;> simp only [reduceCtorEq, forall_true_left, false_implies, ne_eq, not_true_eq_false] at hu hr hw hs
  case wait => exact ⟨_, if_pos hw, by simp [Slot.work, Worker.work]⟩
  case test => exact ⟨_, rfl, by cases cont <;> simp [Slot.work, Worker.work]⟩
  case spin => exact ⟨_, rfl, by simp [hs, Slot.work, Worker.work]⟩
  case post => exact ⟨_, rfl, by simp [Slot.work, Worker.work, Nat.mul_add]⟩
  all_goals exact ⟨_, rfl, by simp [Slot.work, Worker.work]⟩

theorem Worker.work_le (w : Worker) : w.work ≤ 4 := by
  cases w <;> simp [work]

theorem Main.posts_le (m : Main) (k i : ℕ) : m.posts k i ≤ k + 1 := by
  cases m
  case runPost | exitPost => simp only [posts]; split <;> omega
  all_goals simp

theorem Main.le_waits (m : Main) (k i : ℕ) : k ≤ m.waits k i := by
  cases m
  case runWait => simp only [waits]; split <;> omega
  all_goals simp

theorem Main.work_le (m : Main) (n : ℕ) {k l : ℕ} (h : k ≤ l) :
    m.work n k ≤ 10 + 4 * n + l * (2 * n + 7) := by
  have := Nat.mul_le_mul_right (2 * n + 7) h
  cases m <;> simp only [work] <;> omega

namespace Inv

-- The main thread writes to the semaphores of a slot only, except when it creates the worker.
theorem slot_work_stepMain (hi : Inv p s) (he : Spin.stepMain p s = some s') (h : i < p.n) :
    (s.slots i).work ≤ (s'.slots i).work := by
  have hu := (hi.slots i h).unborn
  cases hm : s.main <;> simp only [Spin.stepMain, hm, Option.some.injEq, reduceCtorEq] at he
  case initCreate j =>
    split at he <;> cases he
    case isTrue =>
      by_cases hc : i = j
      case pos => subst hc; simp [hm] at hu; simp [State.setSlot, Slot.work, hu, Worker.work]
      case neg => simp [State.setSlot, hc]
    case isFalse => rfl
  case initSem j | runPost j | exitPost j =>
    split at he <;> cases he
    case isTrue =>
      by_cases hc : i = j
      case pos => subst hc; simp [State.setSlot, Slot.work]
      case neg => simp [State.setSlot, hc]
    case isFalse => rfl
  case runWait j =>
    split at he
    case isTrue =>
      split at he <;> cases he
      by_cases hc : i = j
      case pos => subst hc; simp [State.setSlot, Slot.work]
      case neg => simp [State.setSlot, hc]
    case isFalse => cases he; rfl
  all_goals repeat split at he
  all_goals cases he
  all_goals rfl

theorem main_work_stepMain (hi : Inv p s) (he : Spin.stepMain p s = some s') :
    s.main.work p.n s.returned + (!s.alarm).toNat <
      s'.main.work p.n s'.returned + (!s'.alarm).toNat := by
  have hf := (hi.stepMain he).flags
  cases hm : s.main <;> simp only [Spin.stepMain, hm, Option.some.injEq, reduceCtorEq] at he
  case runTimer u =>
    split at he <;> cases he
    case h_1 alarm _ =>
      have := Bool.toNat_le (!s.alarm)
      simp only [Main.work]
      omega
    case h_2 => contradiction
  all_goals repeat split at he
  all_goals cases he
  all_goals simp only [Main.work, State.setSlot, Nat.add_mul]
  all_goals omega

theorem work_stepMain (hi : Inv p s) (he : Spin.stepMain p s = some s') : s.work p < s'.work p :=
  Nat.add_lt_add_of_lt_of_le (hi.main_work_stepMain he) <|
    Finset.sum_le_sum fun _ h => hi.slot_work_stepMain he <| Finset.mem_range.mp h

theorem work_le (hi : Inv p s) :
    s.work p ≤ 11 + 4 * p.n + p.usecs.length * (2 * p.n + 7) + p.n * (4 * p.usecs.length + 8) := by
  have hk : s.returned ≤ p.usecs.length := by have := hi.calls; omega
  have hs : ∀ i ∈ Finset.range p.n, (s.slots i).work ≤ 4 * p.usecs.length + 8 := by
    intro i h
    have hs := (hi.slots i <| Finset.mem_range.mp h).start
    have hp := s.main.posts_le s.returned i
    have hw := (s.slots i).worker.work_le
    simp only [Slot.work]
    omega
  have hm := s.main.work_le p.n hk
  have ha := Bool.toNat_le (!s.alarm)
  have hs := Finset.sum_le_card_nsmul _ _ _ hs
  simp only [Finset.card_range, smul_eq_mul] at hs
  simp only [State.work]
  omega

theorem progress_alarm (ha : s.alarm = true) : ∃ e s', Spin.step p s e = some s' ∧ s.work p < s'.work p :=
  ⟨.alarm, _, if_pos ha, by simp [State.work, ha]⟩

theorem progress_worker (hj : j < p.n) (hf : s.main ≠ .failed) (hu : (s.slots j).worker ≠ .unborn)
    (hr : (s.slots j).worker ≠ .returned) (hw : (s.slots j).worker = .wait → 0 < (s.slots j).semStart)
    (hs : (s.slots j).worker = .spin → s.run = false) :
    ∃ e s', Spin.step p s e = some s' ∧ s.work p < s'.work p := by
  have ⟨t, ht, hl⟩ : ∃ t, worker s.cont s.run (s.slots j) = some t ∧ (s.slots j).work < t.work :=
    worker_progress hu hr hw hs
  exact ⟨.worker j, s.setSlot j t, by simp [Spin.step, hj, hf, ht],
    Nat.add_lt_add_left (State.sum_setSlot_lt hj hl) _⟩

-- As long as the calling thread is not done it can go on itself, or it waits for a worker. That worker
-- can go on, or it waits for an alarm that is pending.
theorem progress (hi : Inv p s) (hd : s.main ≠ .done) :
    ∃ e s', Spin.step p s e = some s' ∧ s.work p < s'.work p := by
  cases he : Spin.stepMain p s
  case some s' => exact ⟨.main, s', he, hi.work_stepMain he⟩
  case none =>
    have hf := hi.flags
    cases hm : s.main <;> simp only [Spin.stepMain, hm, reduceCtorEq] at he
    case runWait j =>
      split at he
      case isTrue hj =>
        split at he
        case isTrue => contradiction
        case isFalse hz =>
          have ht := hi.slots j hj
          have hs := ht.start
          have hd := ht.done
          have hu := ht.unborn
          have hl := ht.leaving
          simp [hm, Main.Flags] at hs hd hf hu hl
          by_cases hr : (s.slots j).worker = .spin ∧ s.run = true
          case pos => exact progress_alarm <| hf.right.trans hr.right
          case neg =>
            refine progress_worker hj (by simp [hm]) hu (by simp_all) (fun hw => ?_) (by simp_all)
            simp [hw, Worker.inRound] at hs
            omega
      case isFalse => contradiction
    case exitJoin j =>
      split at he
      case isTrue hj =>
        split at he
        case isTrue => contradiction
        case isFalse hz =>
          have ht := hi.slots j hj
          have hs := ht.start
          have hx := ht.exited
          have hu := ht.unborn
          simp [hm, Main.Flags] at hs hf hu
          refine progress_worker hj (by simp [hm]) hu hz (fun hw => ?_) (fun _ => hf.right.left)
          have := hx hf.left
          simp [hw, Worker.inRound] at hs
          omega
      case isFalse => contradiction
    case done   => contradiction
    case failed => simp [hm, Main.Flags] at hf
    all_goals split at he
    all_goals contradiction

end Inv
end WorkloadKit.Spin
