import Mathlib.Data.List.Count
import WorkloadKit.Signest.State

namespace WorkloadKit.Signest

open Stmt

-- The signal that a handler is installed for.
def Function.sig : Function → Sig
  | handler1 => .usr1
  | handler2 => .usr2
  | handler3 => .rt
  | crash    => .segv

theorem Function.sig_inj {f g : Function} : f.sig = g.sig ↔ f = g := by
  cases f <;> cases g <;> decide

-- The signals that are blocked after a statement.
def Stmt.mask (blocked : Sig → Bool) : Stmt → Sig → Bool
  | block sig   => Function.update blocked sig true
  | unblock sig => Function.update blocked sig false
  | _           => blocked

-- Each handler has been called while its signal was not blocked, and blocks this first. What it and `main`
-- have executed is `done`.
inductive Nested (action : ℤ) (main : List Stmt) : List Frame → (Sig → Bool) → Prop
  | main {done : List Stmt} :
    done ++ main = Signest.main → Nested action main [] (done.foldl Stmt.mask fun _ => false)
  | call {frames : List Frame} {saved : Sig → Bool} {fn : Function} {done code : List Stmt} :
    Nested action main frames saved → saved fn.sig = false → done ++ code = fn.body action → load ∉ done →
    Nested action main (⟨fn, code, saved⟩ :: frames)
      (done.foldl Stmt.mask <| Function.update saved fn.sig true)

variable {action : ℤ} {main code done : List Stmt} {frames : List Frame} {blocked : Sig → Bool} {sig : Sig}
  {fn : Function} {stmt : Stmt}

theorem foldl_mask_concat :
    (done ++ [stmt]).foldl Stmt.mask blocked = stmt.mask (done.foldl Stmt.mask blocked) :=
  List.foldl_concat ..

theorem foldl_mask_of_notMem (hd : unblock sig ∉ done) (hb : blocked sig = true) :
    done.foldl Stmt.mask blocked sig = true := by
  induction done generalizing blocked
  case nil => exact hb
  case cons stmt done hi =>
    have ⟨hs, hd⟩ := List.ne_and_not_mem_of_not_mem_cons hd
    refine hi hd ?_
    cases stmt <;> simp only [Stmt.mask, hb]
    case block t   => by_cases ht : sig = t <;> simp [ht, ← hb]
    case unblock t =>
      have ht : sig ≠ t := fun ht => hs <| ht ▸ rfl
      rw [Function.update_of_ne ht, hb]

theorem mem_handler1 :
    stmt ∈ handler1 action ↔
      action = 0 ∧ (stmt = block .segv ∨ stmt = print .before ∨ stmt = load ∨ stmt = print .after) ∨
      action = 1 ∧ stmt = kill .usr2 ∨
      action = 2 ∧ (stmt = block .usr2 ∨ stmt = kill .usr2 ∨ stmt = unblock .usr2) ∨
      action = 3 ∧ (stmt = signal .usr2 .ignore ∨ stmt = kill .usr2) := by
  rw [handler1]
  split_ifs with h₀ h₁ h₂ h₃
  case pos => simp [h₀]; tauto
  case pos => simp [h₁]
  case pos => simp [h₂]
  case pos => simp [h₃]
  case neg => simp [*]

-- Only the first handler unblocks a signal.
theorem eq_of_unblock_mem (h : unblock sig ∈ fn.body action) : sig = .usr2 ∧ fn = .handler1 ∧ action = 2 := by
  cases fn <;> simp [Function.body, mem_handler1] at h
  exact ⟨h.right, rfl, h.left⟩

theorem eq_of_load_mem (h : load ∈ fn.body action) : fn = .handler1 ∧ action = 0 := by
  cases fn <;> simp [Function.body, mem_handler1] at h
  exact ⟨rfl, h⟩

namespace Nested

theorem blocked_of_body (hb : done ++ code = fn.body action)
    (hn : ¬(sig = .usr2 ∧ fn = .handler1 ∧ action = 2)) (h : blocked sig = true) :
    done.foldl Stmt.mask blocked sig = true :=
  foldl_mask_of_notMem (fun hd => hn <| eq_of_unblock_mem <| hb ▸ List.mem_append_left _ hd) h

-- The signal of a handler that has not returned is blocked, unless the first handler can unblock it.
theorem blocked_of_mem (h : Nested action main frames blocked) (hu : fn ≠ .handler2 ∨ action ≠ 2)
    (hm : fn ∈ frames.map Frame.fn) : blocked fn.sig = true := by
  induction h
  case main => cases hm
  case call f done code _ _ hb _ hi =>
    refine blocked_of_body hb ?_ ?_
    case refine_1 =>
      rintro ⟨hs, _, ha⟩
      cases fn <;> cases hs
      exact hu.elim (fun hf => hf rfl) fun hn => hn ha
    case refine_2 =>
      by_cases hf : fn.sig = f.sig
      case pos => rw [hf, Function.update_self]
      case neg =>
        rw [Function.update_of_ne hf]
        refine hi <| (List.mem_cons.mp hm).resolve_left ?_
        rintro rfl
        exact hf rfl

theorem count_le_one (h : Nested action main frames blocked) (hu : fn ≠ .handler2 ∨ action ≠ 2) :
    (frames.map Frame.fn).count fn ≤ 1 := by
  induction h
  case main => exact Nat.zero_le _
  case call f _ _ h hs _ _ hi =>
    rw [List.map_cons, List.count_cons]
    split
    case isFalse => exact hi
    case isTrue hf =>
      obtain rfl : f = fn := by simpa using hf
      have hn : f ∉ _ := fun hm => absurd (h.blocked_of_mem hu hm) <| by simp [hs]
      rw [List.count_eq_zero_of_not_mem hn]

-- The second handler can be called by itself only while the first one has unblocked its signal.
theorem count_handler2 (h : Nested action main frames blocked) :
    let n := (frames.map Frame.fn).count .handler2
    n ≤ 2 ∧ (blocked .usr2 = false → n ≤ 1) ∧
      (.handler1 ∉ frames.map Frame.fn → n ≤ 1 ∧ (blocked .usr2 = false → n = 0)) := by
  induction h
  case main => simp
  case call frames saved f done code h hs hb _ hi =>
    obtain ⟨h₂, h₁, h₀⟩ := hi
    have keep (hf : f ≠ .handler1) (hu : saved .usr2 = true ∨ f.sig = .usr2) :
        done.foldl Stmt.mask (Function.update saved f.sig true) .usr2 = true := by
      refine blocked_of_body hb (fun hn => hf hn.right.left) ?_
      by_cases he : Sig.usr2 = f.sig
      case pos => rw [he, Function.update_self]
      case neg => rw [Function.update_of_ne he, hu.resolve_right fun hu => he hu.symm]
    have free (hf : f ≠ .handler1)
        (hd : done.foldl Stmt.mask (Function.update saved f.sig true) .usr2 = false) : saved .usr2 = false :=
      Bool.eq_false_of_not_eq_true fun hu => absurd (keep hf (.inl hu)) <| by simp [hd]
    cases f
    case handler1 =>
      have hn : .handler1 ∉ frames.map Frame.fn := fun hm =>
        absurd (h.blocked_of_mem (.inl <| by decide) hm) <| by simp [hs]
      exact ⟨h₂, fun _ => (h₀ hn).left, fun hn => absurd (List.mem_cons_self ..) hn⟩
    case handler2 =>
      have hk := keep (by decide) (.inr rfl)
      rw [List.map_cons, List.count_cons_self]
      refine ⟨Nat.succ_le_succ <| h₁ hs, by simp [hk], fun hn => ⟨?_, by simp [hk]⟩⟩
      rw [(h₀ fun hm => hn <| List.mem_cons_of_mem _ hm).right hs]
    all_goals
      refine ⟨h₂, fun hd => h₁ (free (by decide) hd), fun hn => ?_⟩
      have h₀ := h₀ fun hm => hn <| List.mem_cons_of_mem _ hm
      exact ⟨h₀.left, fun hd => h₀.right (free (by decide) hd)⟩

-- What is left of a handler is the rest of its statements.
theorem exists_done (h : Nested action main frames blocked) {f : Frame} (hf : f ∈ frames) :
    ∃ done, done ++ f.code = f.fn.body action ∧ load ∉ done := by
  induction h
  case main => cases hf
  case call _ hb hl hi =>
    obtain rfl | hf := List.mem_cons.mp hf
    case inl => exact ⟨_, hb, hl⟩
    case inr => exact hi hf

theorem exists_done_main (h : Nested action main frames blocked) : ∃ done, done ++ main = Signest.main := by
  induction h
  case main hm => exact ⟨_, hm⟩
  case call hi => exact hi

theorem main_of_nil (h : Nested action main [] blocked) :
    ∃ done, done ++ main = Signest.main ∧ done.foldl Stmt.mask (fun _ => false) = blocked := by
  cases h
  exact ⟨_, ‹_›, rfl⟩

-- The next statement is one of `main` or one of a handler, where the statements before it have been executed.
theorem exists_done_code {s : State} (h : Nested action s.main s.handlers blocked) (hc : s.code = stmt :: code) :
    (s.handlers = [] ∧ ∃ done, done ++ stmt :: code = Signest.main) ∨
    ∃ fn done, done ++ stmt :: code = Function.body action fn ∧ load ∉ done := by
  rw [State.code] at hc
  split at hc
  case h_1 hf        => exact .inl ⟨hf, hc ▸ h.exists_done_main⟩
  case h_2 f fs hf   =>
    obtain ⟨done, hd⟩ := h.exists_done <| hf ▸ List.mem_cons_self
    exact .inr ⟨f.fn, done, hc ▸ hd⟩

theorem leave {f : Frame} (h : Nested action main (f :: frames) blocked) :
    Nested action main frames f.saved := by
  cases h
  assumption

-- The signal of a null pointer is blocked when that is used.
theorem blocked_of_load {s : State} (h : Nested action s.main s.handlers blocked) (hc : s.code = load :: code) :
    blocked .segv = true := by
  obtain ⟨_, _, m, fs, _, _, _⟩ := s
  cases h
  case main done hm =>
    obtain rfl : m = load :: code := hc
    have hl : load ∈ Signest.main := hm ▸ List.mem_append_cons_self
    exact absurd hl (by decide)
  case call fn done c hs hb hd h =>
    obtain rfl : c = load :: code := hc
    have ⟨hf, ha⟩ := eq_of_load_mem <| hb ▸ List.mem_append_cons_self
    subst hf ha
    have hu : unblock .segv ∉ done := fun hu =>
      absurd (eq_of_unblock_mem <| hb ▸ List.mem_append_left _ hu).left (by decide)
    have hb : done ++ load :: code = block .segv :: _ := hb
    cases done with
    | nil            => cases (List.cons.inj hb).left
    | cons stmt done =>
      obtain rfl := (List.cons.inj hb).left
      rw [List.foldl_cons]
      exact foldl_mask_of_notMem (List.ne_and_not_mem_of_not_mem_cons hu).right <| by simp [Stmt.mask]

-- The innermost handler goes on, or `main`.
theorem advance {s : State} (h : Nested action s.main s.handlers blocked) (hc : s.code = stmt :: code)
    (hl : stmt ≠ load) :
    Nested action (s.setCode code).main (s.setCode code).handlers (stmt.mask blocked) := by
  obtain ⟨_, _, m, fs, _, _, _⟩ := s
  cases h
  case main done hm =>
    obtain rfl : m = stmt :: code := hc
    rw [← foldl_mask_concat]
    exact .main <| (List.append_assoc ..).trans hm
  case call done c hs hb hd h =>
    obtain rfl : c = stmt :: code := hc
    rw [← foldl_mask_concat]
    exact .call h hs ((List.append_assoc ..).trans hb) <| by simp [hd, hl.symm]

-- `main` blocks the second signal before it sends it, and unblocks it before it ends.
theorem mask_of_main (h : done ++ main = Signest.main) :
    (main.count (kill .usr2) = 1 → done.foldl Stmt.mask (fun _ => false) .usr2 = true) ∧
    (main.head? = some (print .bye) → done.foldl Stmt.mask (fun _ => false) .usr2 = false ∧
      main.count (kill .usr2) = 0) := by
  have hd : done = Signest.main.take done.length := by rw [← h, List.take_left]
  have hm : main = Signest.main.drop done.length := by rw [← h, List.drop_left]
  have hl : done.length ≤ 10 := by
    have := congrArg List.length h
    simp only [List.length_append, Signest.main, List.length_cons, List.length_nil] at this
    omega
  rw [hd, hm]
  generalize done.length = n at hl
  revert n
  decide

-- The first handler sends the second signal before it unblocks it.
theorem kill_notMem_of_unblock_mem (h : done ++ code = handler1 2) (hu : unblock .usr2 ∈ done) :
    kill .usr2 ∉ code := by
  have hd : done = (handler1 2).take done.length := by rw [← h, List.take_left]
  have hc : code = (handler1 2).drop done.length := by rw [← h, List.drop_left]
  have hl : done.length ≤ 3 := by
    have := congrArg List.length h
    simp [handler1] at this
    omega
  rw [hd] at hu
  rw [hc]
  generalize done.length = n at hl hu
  revert n
  decide

theorem load_mem_of_after (h : done ++ print .after :: code = handler1 0) : load ∈ done := by
  have hd : done = (handler1 0).take done.length := by rw [← h, List.take_left]
  have hc : print .after :: code = (handler1 0).drop done.length := by rw [← h, List.drop_left]
  have hl : done.length ≤ 5 := by
    have := congrArg List.length h
    simp [handler1] at this
    omega
  have hc := congrArg List.head? hc
  rw [hd]
  rw [List.head?_cons] at hc
  generalize done.length = n at hl hc
  revert n
  decide

-- The second signal is blocked between the calls of `kill` of `main`, unless the first handler has sent it, too.
theorem blocked_of_kills (h : Nested action main frames blocked) (hc : main.count (kill .usr2) = 1)
    (hk : ∀ f ∈ frames, unblock .usr2 ∈ f.fn.body action → kill .usr2 ∈ f.code) : blocked .usr2 = true := by
  induction h
  case main hm => exact (mask_of_main hm).left hc
  case call frames saved f done code _ _ hb _ hi =>
    have ⟨hf, hk⟩ := List.forall_mem_cons.mp hk
    have hs : Function.update saved f.sig true .usr2 = true := by
      by_cases he : Sig.usr2 = f.sig
      case pos => rw [he, Function.update_self]
      case neg => rw [Function.update_of_ne he, hi hk]
    by_cases hu : unblock .usr2 ∈ done
    case neg => exact foldl_mask_of_notMem hu hs
    case pos =>
      have hm : unblock .usr2 ∈ f.body action := hb ▸ List.mem_append_left _ hu
      obtain ⟨_, rfl, rfl⟩ := eq_of_unblock_mem hm
      exact absurd (hf hm) <| kill_notMem_of_unblock_mem hb hu

end Nested
end WorkloadKit.Signest
