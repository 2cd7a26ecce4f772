import WorkloadKit.Spin.Memory

namespace WorkloadKit.Spin.Memory

open Log

-- What the arrays are needed for at the moment.
inductive Phase
  | off | allocating (as : List Arr) | ready | freeing (as : List Arr)

def Phase.held : Phase → Arr → Prop
  | off, _           => False
  | allocating as, a => a ∉ as
  | ready, _         => True
  | freeing as, a    => a ∈ as

-- The arrays that are still to be allocated or freed.
def Phase.todo : Phase → List Arr
  | off           => []
  | allocating as => as
  | ready         => []
  | freeing as    => as

def phase (cont : Bool) : Pc → Phase
  | .initCalloc as => .allocating as
  | .initCheck     => .allocating []
  | .initFree as   => .freeing as
  | .exitFree as   => .freeing as
  | .idle          => if cont then .ready else .off
  | .initTest _    => if cont then .ready else .off
  | .runTest _     => if cont then .ready else .off
  | .exitTest      => if cont then .ready else .off
  | _              => .ready

-- The value of `cont` at the places where it is known.
def contAt : Pc → Option Bool
  | .idle         => none
  | .initTest _   => none
  | .runTest _    => none
  | .exitTest     => none
  | .initSem _    => some true
  | .initCreate _ => some true
  | .runSet _     => some true
  | .runTimer _   => some true
  | .runPost _    => some true
  | .runWait _    => some true
  | .exitCont     => some true
  | .exited       => some true
  | _             => some false

-- The places at which the module is not being initialized or left.
def settled : Pc → Bool
  | .idle       => true
  | .initTest _ => true
  | .runTest _  => true
  | .runSet _   => true
  | .runTimer _ => true
  | .runPost _  => true
  | .runWait _  => true
  | .exitTest   => true
  | _           => false

-- The threads that may not have returned yet.
def unjoined : Pc → ℕ → Prop
  | .exitJoin j, i    => j ≤ i
  | .exitDestroy _, _ => False
  | _, _              => True

-- A thread that has been created and has not returned.
def Alive : Worker → Prop
  | .unborn   => False
  | .returned => False
  | _         => True

-- The pointers hold what has been allocated and not freed yet.
structure Mem (φ : Phase) (ptr : Arr → Option ℕ) (next : ℕ) (log : Log (Option ℕ)) : Prop where
  safe  : Safe log
  fresh : ∀ k ≥ next, .alloc (some k) ∉ log
  owned : Owned log φ.held ptr
  full  : φ = .ready → ∀ a, ptr a ≠ none
  nodup : φ.todo.Nodup

structure Invariant (s : State) : Prop where
  mem   : Mem (phase s.cont s.pc) s.ptr s.next s.log
  cont  : (contAt s.pc).getD s.cont = s.cont
  calls : settled s.pc = true → s.cont = initialized s.calls
  alive : ∀ i, Alive (s.slots i).worker → phase s.cont s.pc = .ready ∧ i < s.nrThread ∧ unjoined s.pc i

variable {s s' : State} {φ : Phase} {ptr : Arr → Option ℕ} {next : ℕ} {log : Log (Option ℕ)} {as : List Arr}
  {a : Arr} {ok : Bool} {e : Event} {i : ℕ} {t : Slot}

theorem mem_arrays (a : Arr) : a ∈ arrays := by
  cases a <;> decide

namespace Mem

theorem uses (h : Mem .ready ptr next log) (as : List Arr) :
    Mem .ready ptr next (as.map (.use <| ptr ·) ++ log) := by
  have hl : ∀ a ∈ as.map ptr, Live log a :=
    List.forall_mem_map.mpr fun a _ => h.owned.live a trivial <| h.full rfl a
  have ⟨hs, hl⟩ := h.safe.uses hl
  rw [List.map_map] at hs hl
  refine ⟨hs, fun k hk => ?_, h.owned.congr hl fun _ => .rfl, h.full, h.nodup⟩
  simpa using h.fresh k hk

-- The old values of the pointers do not matter.
theorem start (h : Mem .off ptr next log) : Mem (.allocating arrays) ptr next log where
  safe  := h.safe
  fresh := h.fresh
  owned := h.owned.congr (fun _ => .rfl) fun a => iff_of_false (not_not.mpr <| mem_arrays a) id
  full  := nofun
  nodup := by decide

theorem calloc (h : Mem (.allocating (a :: as)) s.ptr s.next s.log) (ok : Bool) :
    Mem (.allocating as) (s.calloc ok a).ptr (s.calloc ok a).next (s.calloc ok a).log := by
  have ⟨ha, hn⟩ := List.nodup_cons.mp h.nodup
  have hp : ¬Phase.held (.allocating (a :: as)) a := not_not.mpr List.mem_cons_self
  have hh q : Phase.held (.allocating as) q ↔ q = a ∨ Phase.held (.allocating (a :: as)) q := by
    simp only [Phase.held, List.mem_cons, not_or]
    by_cases hq : q = a
    case pos => simp [hq, ha]
    case neg => simp [hq]
  rw [State.calloc]
  split
  case isTrue =>
    have hf := h.fresh s.next le_rfl
    refine ⟨h.safe.alloc hf, fun k hk => ?_, h.owned.alloc h.safe hf hp hh, nofun, hn⟩
    have hne : k ≠ s.next := Nat.ne_of_gt hk
    simpa [hne] using h.fresh k <| Nat.le_of_lt hk
  case isFalse => exact ⟨h.safe, h.fresh, h.owned.fail hp hh, nofun, hn⟩

theorem complete (h : Mem (.allocating []) ptr next log) (hn : ∀ a, ptr a ≠ none) :
    Mem .ready ptr next log where
  safe  := h.safe
  fresh := h.fresh
  owned := h.owned.congr (fun _ => .rfl) fun _ => iff_of_true trivial List.not_mem_nil
  full  := fun _ => hn
  nodup := List.nodup_nil

-- What has been allocated is going to be freed.
theorem release (h : Mem φ ptr next log) (hp : ∀ a, φ.held a) : Mem (.freeing arrays) ptr next log where
  safe  := h.safe
  fresh := h.fresh
  owned := h.owned.congr (fun _ => .rfl) fun a => iff_of_true (mem_arrays a) (hp a)
  full  := nofun
  nodup := by decide

theorem free (h : Mem (.freeing (a :: as)) s.ptr s.next s.log) :
    Mem (.freeing as) (s.free a).ptr (s.free a).next (s.free a).log := by
  have ⟨ha, hn⟩ := List.nodup_cons.mp h.nodup
  have hp : Phase.held (.freeing (a :: as)) a := List.mem_cons_self
  have hh q : Phase.held (.freeing as) q ↔ q ≠ a ∧ Phase.held (.freeing (a :: as)) q := by
    simp only [Phase.held, List.mem_cons]
    by_cases hq : q = a
    case pos => simp [hq, ha]
    case neg => simp [hq]
  rw [State.free]
  split
  case isTrue hz => exact ⟨h.safe, h.fresh, h.owned.drop hz hh, nofun, hn⟩
  case isFalse hz =>
    refine ⟨h.safe.free <| h.owned.live a hp hz, fun k hk => ?_, h.owned.free hp hz hh, nofun, hn⟩
    simpa using h.fresh k hk

theorem stop (h : Mem (.freeing []) ptr next log) : Mem .off ptr next log where
  safe  := h.safe
  fresh := h.fresh
  owned := h.owned.congr (fun _ => .rfl) fun _ => iff_of_false id List.not_mem_nil
  full  := nofun
  nodup := List.nodup_nil

end Mem

theorem slots_setSlot : (s.setSlot i t).slots = Function.update s.slots i t :=
  rfl

theorem worker_setSlot (h : t.worker = (s.slots i).worker) (j : ℕ) :
    ((s.setSlot i t).slots j).worker = (s.slots j).worker := by
  rw [slots_setSlot]
  by_cases hj : j = i
  case pos => rw [hj, Function.update_self, h]
  case neg => rw [Function.update_of_ne hj]

theorem alive_of_worker {cont run : Bool} {t' : Slot} (h : worker cont run t = some t') : Alive t.worker := by
  cases hw : t.worker
  all_goals simp [worker, hw, Alive] at h ⊢

-- The arrays that a thread uses are there for as long as the thread is alive.
theorem workerUses_eq_nil {w : Worker} (h : ¬Alive w) : workerUses w = [] := by
  cases w <;> first | rfl | exact absurd trivial h

namespace Invariant

-- What is known at the statement that is executed next.
theorem mem_at (h : Invariant s) {pc : Pc} (hpc : s.pc = pc) : Mem (phase s.cont pc) s.ptr s.next s.log :=
  hpc ▸ h.mem

theorem cont_at (h : Invariant s) {pc : Pc} (hpc : s.pc = pc) : (contAt pc).getD s.cont = s.cont :=
  hpc ▸ h.cont

theorem calls_at (h : Invariant s) {pc : Pc} (hpc : s.pc = pc) (hs : settled pc = true) :
    s.cont = initialized s.calls :=
  h.calls <| hpc ▸ hs

-- No thread is alive unless the arrays are there.
theorem not_alive (h : Invariant s) (hp : phase s.cont s.pc ≠ .ready) : ¬Alive (s.slots i).worker :=
  fun ha => hp (h.alive i ha).left

theorem init : Invariant init where
  mem   :=
    have ho := ⟨fun _ => nofun, fun _ h => absurd h not_live_nil, fun _ _ => nofun, not_live_nil⟩
    ⟨.nil, fun _ _ => nofun, ho, nofun, List.nodup_nil⟩
  cont  := rfl
  calls := fun _ => rfl
  alive := fun _ => nofun

-- A step that leaves the arrays allocated, and uses some of them.
theorem ready (h : Invariant s) (as : List Arr) (hr : phase s.cont s.pc = .ready)
    (hr' : phase s'.cont s'.pc = .ready) (hp : s'.ptr = s.ptr) (hn : s'.next = s.next)
    (hl : s'.log = (s.use as).log) (hc : (contAt s'.pc).getD s'.cont = s'.cont)
    (hi : settled s'.pc = true → s'.cont = initialized s'.calls)
    (ha : ∀ i, Alive (s'.slots i).worker → i < s'.nrThread ∧ unjoined s'.pc i) : Invariant s' where
  mem   := hr' ▸ hp ▸ hn ▸ hl ▸ (hr ▸ h.mem).uses as
  cont  := hc
  calls := hi
  alive := fun i hi => ⟨hr', ha i hi⟩

theorem step_worker (h : Invariant s) : Invariant (stepWorker s i) := by
  by_cases ha : Alive (s.slots i).worker
  case pos =>
    have ⟨hr, _⟩ := h.alive i ha
    rw [stepWorker]
    split
    case h_1 t ht =>
      refine h.ready _ hr hr rfl rfl rfl h.cont h.calls fun j hj => ?_
      by_cases hji : j = i
      case pos => exact hji ▸ (h.alive i ha).right
      case neg =>
        rw [slots_setSlot, Function.update_of_ne hji] at hj
        exact (h.alive j hj).right
    case h_2 => exact h.ready _ hr hr rfl rfl rfl h.cont h.calls fun j hj => (h.alive j hj).right
  case neg =>
    have hw : worker s.cont s.run (s.slots i) = none :=
      Option.eq_none_iff_forall_ne_some.mpr fun _ ht => ha <| alive_of_worker ht
    rw [stepWorker, hw, workerUses_eq_nil ha]
    exact h

-- A step to another place at which the arrays are also there.
theorem move (h : Invariant s) (as : List Arr) (hr : phase s.cont s.pc = .ready) (hp : s'.ptr = s.ptr)
    (hn : s'.next = s.next) (hl : s'.log = (s.use as).log) (hs : ∀ i, (s'.slots i).worker = (s.slots i).worker)
    (ht : s'.nrThread = s.nrThread) (hr' : phase s'.cont s'.pc = .ready)
    (hc : (contAt s'.pc).getD s'.cont = s'.cont) (hi : settled s'.pc = true → s'.cont = initialized s'.calls)
    (hu : ∀ i, Alive (s.slots i).worker → unjoined s.pc i → unjoined s'.pc i) : Invariant s' := by
  refine h.ready as hr hr' hp hn hl hc hi fun i ha => ?_
  rw [hs] at ha
  have ⟨_, hi, hj⟩ := h.alive i ha
  exact ⟨ht ▸ hi, hu i ha hj⟩

-- Nothing but the place changes.
theorem goto (h : Invariant s) {pc : Pc} (hr : phase s.cont s.pc = .ready) (hr' : phase s.cont pc = .ready)
    (hc : (contAt pc).getD s.cont = s.cont) (hi : settled pc = true → s.cont = initialized s.calls)
    (hu : ∀ i, Alive (s.slots i).worker → unjoined s.pc i → unjoined pc i) : Invariant { s with pc } :=
  h.move [] hr rfl rfl rfl (fun _ => rfl) rfl hr' hc hi hu

-- An iteration of a loop over the semaphores.
theorem loop (h : Invariant s) {pc : Pc} (hr : phase s.cont s.pc = .ready) (ht : t.worker = (s.slots i).worker)
    (hr' : phase s.cont pc = .ready) (hc : (contAt pc).getD s.cont = s.cont)
    (hi : settled pc = true → s.cont = initialized s.calls)
    (hu : ∀ i, Alive (s.slots i).worker → unjoined s.pc i → unjoined pc i) :
    Invariant { (s.use as).setSlot i t with pc } :=
  h.move as hr rfl rfl rfl (worker_setSlot ht) rfl hr' hc hi hu

-- A step at which the arrays are not there, neither before nor after.
theorem idle (h : Invariant s) (hr : phase s.cont s.pc ≠ .ready)
    (hm : Mem (phase s'.cont s'.pc) s'.ptr s'.next s'.log) (hs : s'.slots = s.slots)
    (hc : (contAt s'.pc).getD s'.cont = s'.cont) (hi : settled s'.pc = true → s'.cont = initialized s'.calls) :
    Invariant s' where
  mem   := hm
  cont  := hc
  calls := hi
  alive := fun _ ha => absurd (hs ▸ ha) <| h.not_alive hr

-- The loop over the arrays to be freed.
theorem freed (h : Invariant s) {pc : Pc} (hp : phase s.cont s.pc = .freeing (a :: as))
    (hp' : phase s.cont pc = .freeing as) (hc : contAt pc = some false) (hf : s.cont = false)
    (hs : settled pc = false) : Invariant { s.free a with pc } := by
  have hk : (s.free a).cont = s.cont ∧ (s.free a).slots = s.slots := by
    rw [State.free]
    split <;> exact ⟨rfl, rfl⟩
  refine h.idle (by rw [hp]; nofun) ?_ hk.right ?_ ?_
  · show Mem (phase (s.free a).cont pc) _ _ _
    rw [hk.left, hp']
    exact (hp ▸ h.mem).free
  · show (contAt pc).getD (s.free a).cont = (s.free a).cont
    rw [hk.left, hc, hf]
    rfl
  · show settled pc = true → _
    rw [hs]
    nofun

-- The call returns when all arrays have been freed.
theorem freed_nil (h : Invariant s) {call : Call} (hp : phase s.cont s.pc = .freeing []) (hf : s.cont = false)
    (hi : initialized (call :: s.calls) = false) : Invariant (s.ret call) := by
  refine h.idle (by rw [hp]; nofun) ?_ rfl rfl fun _ => hf.trans hi.symm
  simpa [State.ret, phase, hf] using (hp ▸ h.mem).stop

-- The statements of `spin_init`.
theorem step_initTest {n : ℤ} (h : Invariant s) (hpc : s.pc = .initTest n) (hs : stepMain ok s = some s') :
    Invariant s' := by
  have hm := h.mem_at hpc
  simp only [stepMain, hpc] at hs
  split at hs
  case isTrue hc =>
    obtain rfl := Option.some.inj hs
    exact h.move [] (by simp [hpc, phase, hc]) rfl rfl rfl (fun _ => rfl) rfl (by simp [State.ret, phase, hc])
      rfl (fun _ => hc) fun _ _ _ => trivial
  case isFalse hc =>
    obtain rfl := Option.some.inj hs
    have hc : s.cont = false := by simpa using hc
    have hp : phase s.cont (.initTest n) = .off := by simp [phase, hc]
    exact h.idle (by simp [hpc, hp]) (hp ▸ hm).start rfl hc.symm nofun

theorem step_initCalloc (h : Invariant s) (hpc : s.pc = .initCalloc as) (hs : stepMain ok s = some s') :
    Invariant s' := by
  have hm := h.mem_at hpc
  have hc := h.cont_at hpc
  simp only [stepMain, hpc] at hs
  have hr : phase s.cont s.pc ≠ .ready := by rw [hpc]; nofun
  cases as
  case nil =>
    obtain rfl := Option.some.inj hs
    exact h.idle hr hm rfl hc nofun
  case cons a as =>
    obtain rfl := Option.some.inj hs
    have hk : (s.calloc ok a).cont = s.cont ∧ (s.calloc ok a).slots = s.slots := by
      rw [State.calloc]
      split <;> exact ⟨rfl, rfl⟩
    refine h.idle hr ?_ hk.right ?_ nofun
    · exact hm.calloc ok
    · exact hk.left.symm ▸ hc

theorem step_initCheck (h : Invariant s) (hpc : s.pc = .initCheck) (hs : stepMain ok s = some s') :
    Invariant s' := by
  have hm := h.mem_at hpc
  have hc := h.cont_at hpc
  simp only [stepMain, hpc] at hs
  have hr : phase s.cont s.pc ≠ .ready := by rw [hpc]; nofun
  split at hs
  case isTrue =>
    obtain rfl := Option.some.inj hs
    exact h.idle hr (hm.release fun _ => List.not_mem_nil) rfl hc nofun
  case isFalse hn =>
    obtain rfl := Option.some.inj hs
    simp only [not_or] at hn
    have hn : ∀ a, s.ptr a ≠ none := by
      rintro (_ | _ | _ | _)
      exacts [hn.left, hn.right.left, hn.right.right.left, hn.right.right.right]
    exact h.idle hr (hm.complete hn) rfl hc nofun

theorem step_initCont (h : Invariant s) (hpc : s.pc = .initCont) (hs : stepMain ok s = some s') :
    Invariant s' := by
  simp only [stepMain, hpc] at hs
  obtain rfl := Option.some.inj hs
  exact h.move [] (by rw [hpc]; rfl) rfl rfl rfl (fun _ => rfl) rfl rfl rfl nofun fun _ _ _ => trivial

theorem step_initSem (h : Invariant s) (hpc : s.pc = .initSem i) (hs : stepMain ok s = some s') :
    Invariant s' := by
  have hc := h.cont_at hpc
  simp only [stepMain, hpc] at hs
  have hr : phase s.cont s.pc = .ready := by rw [hpc]; rfl
  split at hs
  case isTrue =>
    obtain rfl := Option.some.inj hs
    exact h.loop hr rfl rfl hc nofun fun _ _ _ => trivial
  case isFalse =>
    obtain rfl := Option.some.inj hs
    exact h.goto hr rfl hc nofun fun _ _ _ => trivial

theorem step_initCreate (h : Invariant s) (hpc : s.pc = .initCreate i) (hs : stepMain ok s = some s') :
    Invariant s' := by
  have hc := h.cont_at hpc
  simp only [stepMain, hpc] at hs
  have hr : phase s.cont s.pc = .ready := by rw [hpc]; rfl
  split at hs
  case isTrue hi =>
    obtain rfl := Option.some.inj hs
    refine h.ready _ hr rfl rfl rfl rfl hc nofun fun j hj => ⟨?_, trivial⟩
    by_cases hji : j = i
    case pos => exact hji ▸ hi
    case neg =>
      rw [slots_setSlot, Function.update_of_ne hji] at hj
      exact (h.alive j hj).right.left
  case isFalse =>
    obtain rfl := Option.some.inj hs
    have hc : s.cont = true := hc.symm
    exact h.move [] hr rfl rfl rfl (fun _ => rfl) rfl (by simp [State.ret, phase, hc]) rfl (fun _ => hc)
      fun _ _ _ => trivial

theorem step_initFree (h : Invariant s) (hpc : s.pc = .initFree as) (hs : stepMain ok s = some s') :
    Invariant s' := by
  have hc := h.cont_at hpc
  simp only [stepMain, hpc] at hs
  have hp : phase s.cont s.pc = .freeing as := by rw [hpc]; rfl
  cases as
  case nil =>
    obtain rfl := Option.some.inj hs
    exact h.freed_nil hp hc.symm rfl
  case cons a as =>
    obtain rfl := Option.some.inj hs
    exact h.freed hp rfl rfl hc.symm rfl

-- The statements of `spin_run`.
theorem step_runTest {usec : ℤ} (h : Invariant s) (hpc : s.pc = .runTest usec) (hs : stepMain ok s = some s') :
    Invariant s' := by
  have hm := h.mem_at hpc
  simp only [stepMain, hpc] at hs
  have hi := h.calls_at hpc rfl
  split at hs
  case isTrue hc =>
    obtain rfl := Option.some.inj hs
    exact h.move [] (by simp [hpc, phase, hc]) rfl rfl rfl (fun _ => rfl) rfl rfl hc.symm (fun _ => hi)
      fun _ _ _ => trivial
  case isFalse hc =>
    obtain rfl := Option.some.inj hs
    have hc : s.cont = false := by simpa using hc
    have hp : phase s.cont (.runTest usec) = .off := by simp [phase, hc]
    exact h.idle (by rw [hpc, hp]; nofun) hm rfl rfl fun _ => hi

theorem step_runSet {usec : ℤ} (h : Invariant s) (hpc : s.pc = .runSet usec) (hs : stepMain ok s = some s') :
    Invariant s' := by
  have hc := h.cont_at hpc
  simp only [stepMain, hpc] at hs
  have hi := h.calls_at hpc rfl
  obtain rfl := Option.some.inj hs
  exact h.move [] (by rw [hpc]; rfl) rfl rfl rfl (fun _ => rfl) rfl rfl hc (fun _ => hi) fun _ _ _ => trivial

theorem step_runTimer {usec : ℤ} (h : Invariant s) (hpc : s.pc = .runTimer usec)
    (hs : stepMain ok s = some s') : Invariant s' := by
  have hc := h.cont_at hpc
  simp only [stepMain, hpc] at hs
  have hi := h.calls_at hpc rfl
  split at hs
  all_goals
    obtain rfl := Option.some.inj hs
    exact h.move [] (by rw [hpc]; rfl) rfl rfl rfl (fun _ => rfl) rfl rfl hc (fun _ => hi) fun _ _ _ => trivial

theorem step_runPost (h : Invariant s) (hpc : s.pc = .runPost i) (hs : stepMain ok s = some s') :
    Invariant s' := by
  have hc := h.cont_at hpc
  simp only [stepMain, hpc] at hs
  have hr : phase s.cont s.pc = .ready := by rw [hpc]; rfl
  have hi := h.calls_at hpc rfl
  split at hs
  case isTrue =>
    obtain rfl := Option.some.inj hs
    exact h.loop hr rfl rfl hc (fun _ => hi) fun _ _ _ => trivial
  case isFalse =>
    obtain rfl := Option.some.inj hs
    exact h.goto hr rfl hc (fun _ => hi) fun _ _ _ => trivial

theorem step_runWait (h : Invariant s) (hpc : s.pc = .runWait i) (hs : stepMain ok s = some s') :
    Invariant s' := by
  have hc := h.cont_at hpc
  simp only [stepMain, hpc] at hs
  have hr : phase s.cont s.pc = .ready := by rw [hpc]; rfl
  have hi := h.calls_at hpc rfl
  split at hs
  case isTrue =>
    split at hs
    case isTrue =>
      obtain rfl := Option.some.inj hs
      exact h.loop hr rfl rfl hc (fun _ => hi) fun _ _ _ => trivial
    case isFalse =>
      obtain rfl := Option.some.inj hs
      exact h.move _ hr rfl rfl rfl (fun _ => rfl) rfl hr h.cont h.calls fun _ _ hu => hu
  case isFalse =>
    obtain rfl := Option.some.inj hs
    have hc : s.cont = true := hc.symm
    exact h.move [] hr rfl rfl rfl (fun _ => rfl) rfl (by simp [State.ret, phase, hc]) rfl (fun _ => hi)
      fun _ _ _ => trivial

-- The statements of `spin_exit`.
theorem step_exitTest (h : Invariant s) (hpc : s.pc = .exitTest) (hs : stepMain ok s = some s') :
    Invariant s' := by
  have hm := h.mem_at hpc
  simp only [stepMain, hpc] at hs
  split at hs
  case isTrue hc =>
    obtain rfl := Option.some.inj hs
    exact h.move [] (by simp [hpc, phase, hc]) rfl rfl rfl (fun _ => rfl) rfl rfl hc.symm nofun
      fun _ _ _ => trivial
  case isFalse hc =>
    obtain rfl := Option.some.inj hs
    have hc : s.cont = false := by simpa using hc
    have hp : phase s.cont .exitTest = .off := by simp [phase, hc]
    exact h.idle (by rw [hpc, hp]; nofun) hm rfl rfl fun _ => hc

theorem step_exitCont (h : Invariant s) (hpc : s.pc = .exitCont) (hs : stepMain ok s = some s') :
    Invariant s' := by
  simp only [stepMain, hpc] at hs
  obtain rfl := Option.some.inj hs
  exact h.move [] (by rw [hpc]; rfl) rfl rfl rfl (fun _ => rfl) rfl rfl rfl nofun fun _ _ _ => trivial

theorem step_exitPost (h : Invariant s) (hpc : s.pc = .exitPost i) (hs : stepMain ok s = some s') :
    Invariant s' := by
  have hc := h.cont_at hpc
  simp only [stepMain, hpc] at hs
  have hr : phase s.cont s.pc = .ready := by rw [hpc]; rfl
  split at hs
  case isTrue =>
    obtain rfl := Option.some.inj hs
    exact h.loop hr rfl rfl hc nofun fun _ _ _ => trivial
  case isFalse =>
    obtain rfl := Option.some.inj hs
    exact h.goto hr rfl hc nofun fun i _ _ => Nat.zero_le i

theorem step_exitJoin (h : Invariant s) (hpc : s.pc = .exitJoin i) (hs : stepMain ok s = some s') :
    Invariant s' := by
  have hc := h.cont_at hpc
  simp only [stepMain, hpc] at hs
  have hr : phase s.cont s.pc = .ready := by rw [hpc]; rfl
  split at hs
  case isTrue =>
    split at hs
    case isTrue hw =>
      obtain rfl := Option.some.inj hs
      refine h.move _ hr rfl rfl rfl (fun _ => rfl) rfl rfl hc nofun fun j hj hu => ?_
      rw [hpc] at hu
      refine Nat.lt_of_le_of_ne hu ?_
      rintro rfl
      rw [hw] at hj
      exact hj
    case isFalse =>
      obtain rfl := Option.some.inj hs
      exact h.move _ hr rfl rfl rfl (fun _ => rfl) rfl hr h.cont h.calls fun _ _ hu => hu
  case isFalse hi =>
    obtain rfl := Option.some.inj hs
    refine h.goto hr rfl hc nofun fun j hj hu => ?_
    rw [hpc] at hu
    have hu : i ≤ j := hu
    have hj := (h.alive j hj).right.left
    exact hi <| lt_of_le_of_lt (Int.ofNat_le.mpr hu) hj

theorem step_exitDestroy (h : Invariant s) (hpc : s.pc = .exitDestroy i) (hs : stepMain ok s = some s') :
    Invariant s' := by
  have hm := h.mem_at hpc
  have hc := h.cont_at hpc
  simp only [stepMain, hpc] at hs
  have hr : phase s.cont s.pc = .ready := by rw [hpc]; rfl
  split at hs
  case isTrue =>
    obtain rfl := Option.some.inj hs
    refine h.move _ hr rfl rfl rfl (fun _ => rfl) rfl rfl hc nofun fun j _ hu => ?_
    rwa [hpc] at hu
  case isFalse =>
    obtain rfl := Option.some.inj hs
    refine ⟨hm.release fun _ => trivial, hc, nofun, fun j hj => ?_⟩
    have hu := (h.alive j hj).right.right
    rw [hpc] at hu
    exact hu.elim

theorem step_exitFree (h : Invariant s) (hpc : s.pc = .exitFree as) (hs : stepMain ok s = some s') :
    Invariant s' := by
  have hc := h.cont_at hpc
  simp only [stepMain, hpc] at hs
  have hp : phase s.cont s.pc = .freeing as := by rw [hpc]; rfl
  cases as
  case nil =>
    obtain rfl := Option.some.inj hs
    exact h.freed_nil hp hc.symm rfl
  case cons a as =>
    obtain rfl := Option.some.inj hs
    exact h.freed hp rfl rfl hc.symm rfl

theorem step_main (h : Invariant s) (hs : stepMain ok s = some s') : Invariant s' := by
  cases hpc : s.pc
  case idle | exited => simp [stepMain, hpc] at hs
  case initTest    => exact h.step_initTest hpc hs
  case initCalloc  => exact h.step_initCalloc hpc hs
  case initCheck   => exact h.step_initCheck hpc hs
  case initCont    => exact h.step_initCont hpc hs
  case initSem     => exact h.step_initSem hpc hs
  case initCreate  => exact h.step_initCreate hpc hs
  case initFree    => exact h.step_initFree hpc hs
  case runTest     => exact h.step_runTest hpc hs
  case runSet      => exact h.step_runSet hpc hs
  case runTimer    => exact h.step_runTimer hpc hs
  case runPost     => exact h.step_runPost hpc hs
  case runWait     => exact h.step_runWait hpc hs
  case exitTest    => exact h.step_exitTest hpc hs
  case exitCont    => exact h.step_exitCont hpc hs
  case exitPost    => exact h.step_exitPost hpc hs
  case exitJoin    => exact h.step_exitJoin hpc hs
  case exitDestroy => exact h.step_exitDestroy hpc hs
  case exitFree    => exact h.step_exitFree hpc hs

-- A call is made.
theorem call (h : Invariant s) {pc : Pc} (hpc : s.pc = .idle) (hp : phase s.cont pc = phase s.cont .idle)
    (hc : contAt pc = none) (hu : ∀ i, unjoined pc i) : Invariant { s with pc } where
  mem   := by
    have hm := h.mem
    rw [hpc] at hm
    exact hp ▸ hm
  cont  := by simp [hc]
  calls := fun _ => h.calls <| by rw [hpc]; rfl
  alive i ha := by
    have ⟨hr, hi, _⟩ := h.alive i ha
    rw [hpc] at hr
    exact ⟨hp.trans hr, hi, hu i⟩

theorem step (h : Invariant s) (hs : spin.step s e = some s') : Invariant s' := by
  cases e
  case main ok => exact h.step_main hs
  case worker i =>
    obtain ⟨_, hs⟩ := Option.ite_none_right_eq_some.mp hs
    exact Option.some.inj hs ▸ h.step_worker
  case alarm =>
    obtain ⟨_, hs⟩ := Option.ite_none_right_eq_some.mp hs
    exact Option.some.inj hs ▸ ⟨h.mem, h.cont, h.calls, h.alive⟩
  all_goals
    obtain ⟨hpc, hs⟩ := Option.ite_none_right_eq_some.mp hs
    exact Option.some.inj hs ▸ h.call hpc rfl rfl fun _ => trivial

end Invariant

theorem invariant (h : spin.Reachable s) : Invariant s :=
  h.invariant .init fun h _ hs => h.step hs

-- What the module guarantees, whichever calls are made and allocations fail.
structure Sound (s : State) : Prop where
  -- No array is freed twice.
  freed : ∀ a, s.log.count (.free a) ≤ 1
  -- No array is used after it has been freed, or without having been allocated.
  freed_use : ∀ a log₁ log₂, s.log = log₁ ++ .free a :: log₂ → .use a ∉ log₁
  alloc_use : ∀ a log₁ log₂, s.log = log₁ ++ .use a :: log₂ → .alloc a ∈ log₂
  -- No array is lost, and none is left if the module is not initialized.
  kept : ∀ a, Live s.log a → ∃ p, s.ptr p = a
  returned : s.pc = .idle → initialized s.calls = false → ∀ a, ¬Live s.log a
  -- The calls return at once if the module is not initialized.
  run : ∀ usec ok,
    s.pc = .runTest usec → initialized s.calls = false → spin.step s (.main ok) = some (s.ret .run)
  exit : ∀ ok, s.pc = .exitTest → initialized s.calls = false → spin.step s (.main ok) = some (s.ret .exit)

theorem sound (h : spin.Reachable s) : Sound s := by
  have h := invariant h
  have hoff {pc : Pc} (hpc : s.pc = pc) (hs : settled pc = true) (hi : initialized s.calls = false) :
      s.cont = false :=
    (h.calls <| hpc ▸ hs).trans hi
  constructor
  case freed => exact h.mem.safe.count_free_le
  case freed_use => exact fun _ _ _ hl => (hl ▸ h.mem.safe).not_use_of_free
  case alloc_use =>
    intro a log₁ log₂ hl
    cases (hl ▸ h.mem.safe).tail
    case use hu => exact hu.left
  case kept =>
    intro a ha
    have ⟨p, _, hp⟩ := h.mem.owned.owner a ha
    exact ⟨p, hp⟩
  case returned =>
    intro hpc hi a ha
    have ⟨_, hp, _⟩ := h.mem.owned.owner a ha
    rw [hpc, hoff hpc rfl hi] at hp
    exact hp
  case run =>
    intro usec ok hpc hi
    have hc := hoff hpc rfl hi
    simp [spin, Memory.step, stepMain, hpc, hc]
  case exit =>
    intro ok hpc hi
    have hc := hoff hpc rfl hi
    simp [spin, Memory.step, stepMain, hpc, hc]

-- The module is initialized for one thread, after an attempt whose third allocation fails, and left again.
theorem sound_retry :
    ∃ s, spin.Reachable s ∧ s.calls = [.exit, .init true, .init false] ∧ Sound s := by
  let main k : List Event := List.replicate k <| .main true
  let failing : List Event := .init 1 :: main 3 ++ .main false :: main 8
  let leaving : List Event := .exit :: main 5 ++ List.replicate 3 (.worker 0) ++ main 9
  let es := failing ++ .init 1 :: main 12 ++ .worker 0 :: leaving
  have he : (spin.exec spin.init es).map (·.calls) = some [.exit, .init true, .init false] := by decide +kernel
  have ⟨s, he, hc⟩ := Option.map_eq_some_iff.mp he
  have hr := System.ReachableUnder.of_exec he
  exact ⟨s, hr, hc, sound hr⟩

end WorkloadKit.Spin.Memory
