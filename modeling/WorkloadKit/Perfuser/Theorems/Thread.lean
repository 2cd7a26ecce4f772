import WorkloadKit.Perfuser.Rounds

namespace WorkloadKit.Perfuser

variable {n : ℕ} {s s' : State n} {self v : Fin n} {args : Args} {cnt cnt' : Counter n} {w w' : Worker n}
  {counters : Fin n → Counter n} {b : Barrier} {op : PerfEvent → PerfEvent}

namespace Pc

-- The counter of the thread is open, unless nothing is to be counted.
def opened : Pc → Bool
  | refresh | enable | barrierWait | waiting _ | hog | closeCounter => true
  | _                                                               => false

-- The thread is in `open_counter`.
def opening : Pc → Bool
  | perfEventOpen | refresh | enable => true
  | _                                => false

-- The thread has arrived at the barrier, and its ticket if it waits there.
def passed : Pc → Bool
  | waiting _ | hog | closeCounter | returned => true
  | _                                         => false

def ticket : Pc → Option ℕ
  | waiting ticket => some ticket
  | _              => none

-- In each round the thread arrives once.
def part (round : ℕ) (c : Pc) : ℕ × Option ℕ :=
  (round + c.passed.toNat, c.ticket)

end Pc

def Pc.rest : Pc → ℕ
  | unborn        => 9
  | setRank       => 8
  | perfEventOpen => 7
  | refresh       => 6
  | enable        => 5
  | barrierWait   => 4
  | waiting _     => 3
  | hog           => 2
  | closeCounter  => 1
  | returned      => 0

def Handler.rest : Handler → ℕ
  | load  => 5
  | hit   => 4
  | hog   => 3
  | rearm => 2
  | leave => 1
  | idle  => 0

namespace Worker

-- How many signals have been sent that have not been counted yet.
def inFlight (w : Worker n) : ℕ :=
  w.pending.toNat + (decide (w.handler = .load ∨ w.handler = .hit)).toNat

-- Until the handler has rearmed it, the counter does not count.
def disarmed (w : Worker n) : Bool :=
  w.pc = .refresh || w.pending || (w.handler ≠ .idle && w.handler ≠ .leave)

-- How many statements are left at most, if the counter does not overflow any more.
def rest (w : Worker n) : ℕ :=
  w.pc.rest + w.handler.rest + 6 * w.pending.toNat

-- The counter is disabled by each overflow, and so there is at most one signal at a time.
structure Early (w : Worker n) : Prop where
  event   : ∀ e, w.event = some e → e = if w.disarmed then ⟨false, 0⟩ else ⟨true, 1⟩
  pending : w.pending = true → w.handler = .idle ∨ w.handler = .leave
  refresh : w.pc = .refresh → w.pending = false ∧ w.handler = .idle
  hits    : w.handled + w.inFlight = w.overflows

end Worker

structure ThreadInv (args : Args) (v : Fin n) (cnt : Counter n) (w : Worker n) : Prop where
  created   : w.pc ≠ .unborn → cnt.args = some args ∧ cnt.rank = v
  rank      : w.pc ≠ .unborn → w.pc ≠ .setRank → w.rank = v
  event     : w.event.isSome = (!args.dryrun && w.pc.opened)
  dryrun    : w.pc.opening = true → args.dryrun = false
  fd        : w.event.isSome → cnt.fd = some v
  quiet     : w.event = none → w.pending = false ∧ w.handler = .idle
  counted   : cnt.hits = CInt.wrap w.handled
  hits      : w.handled + w.inFlight ≤ w.overflows
  overflows : args.dryrun ∨ w.pc.opened = false ∧ w.pc ≠ .returned → w.overflows = 0
  early     : args.disable = DISABLE_EARLY → w.Early

-- What a thread changes: its own state, its own element of `g_counters`, and the barrier.
def State.change (s : State n) (self : Fin n) (counters : Fin n → Counter n) (cnt : Counter n) (w : Worker n)
    (b : Barrier) : State n :=
  { s with
    gCounters := some <| Function.update counters self cnt
    workers   := Function.update s.workers self w
    barrier   := b }

theorem change_self (hc : s.gCounters = some counters) :
    s.setWorker self w = s.change self counters (counters self) w s.barrier := by
  simp [State.setWorker, State.change, hc]

theorem setWorker_ioctl :
    (s.setWorker self w).ioctl (some self) op = s.setWorker self { w with event := w.event.map op } := by
  simp [State.ioctl, State.setWorker]

theorem access_eq (hc : s.gCounters = some counters) (ha : (counters v).args = some args)
    (k : (Fin n → Counter n) → Args → Option (State n)) : s.access v k = k counters args := by
  rw [State.access, hc]
  simp only [ha]

namespace ThreadInv

theorem unborn [NeZero n] (ha : cnt.hits = 0) : ThreadInv args self cnt Perfuser.unborn where
  created   := by simp [Perfuser.unborn]
  rank      := by simp [Perfuser.unborn]
  event     := by simp [Perfuser.unborn, Pc.opened]
  dryrun    := by simp [Perfuser.unborn, Pc.opening]
  fd        := by simp [Perfuser.unborn]
  quiet _   := ⟨rfl, rfl⟩
  counted   := by simp [ha, Perfuser.unborn]
  hits      := by simp [Perfuser.unborn, Worker.inFlight]
  overflows _ := rfl
  early _   := ⟨by simp [Perfuser.unborn], by simp [Perfuser.unborn], by simp [Perfuser.unborn],
    by simp [Perfuser.unborn, Worker.inFlight]⟩

-- A thread that has a counter is one that has been created and that has set its rank.
theorem opened (h : ThreadInv args self cnt w) (he : w.event.isSome) :
    args.dryrun = false ∧ w.pc.opened = true := by
  simpa [he] using h.event

theorem opened_of_handler (h : ThreadInv args self cnt w) (hh : w.handler ≠ .idle) : w.event.isSome := by
  refine Option.ne_none_iff_isSome.mp fun he => hh (h.quiet he).right

theorem rank_of_opened (h : ThreadInv args self cnt w) (he : w.event.isSome) :
    w.rank = self ∧ cnt.args = some args ∧ cnt.fd = some self := by
  have ⟨_, ho⟩ := h.opened he
  have hu : w.pc ≠ .unborn := fun hp => by simp [hp, Pc.opened] at ho
  have hr : w.pc ≠ .setRank := fun hp => by simp [hp, Pc.opened] at ho
  exact ⟨h.rank hu hr, (h.created hu).left, h.fd he⟩

end ThreadInv

-- What a thread does in any of its steps.
structure Next (s : State n) (v : Fin n) (cnt : Counter n) (w : Worker n) (b : Barrier) : Prop where
  inv     : ThreadInv s.args v cnt w
  runs    : (s.workers v).pc ≠ .unborn ∧ (s.workers v).pc ≠ .returned
  born    : w.pc ≠ .unborn
  barrier : Barrier.Move n s.barrier ((s.workers v).pc.part s.round) (w.pc.part s.round) b

def Advances (s : State n) (self : Fin n) (counters : Fin n → Counter n) (s' : State n) : Prop :=
  ∃ cnt w b, s.change self counters cnt w b = s' ∧ Next s self cnt w b ∧ w.rest < (s.workers self).rest

-- A step that only concerns the counter of the thread and the handler.
theorem Next.interrupt (hp : w.pc = (s.workers self).pc)
    (ho : (s.workers self).pc.opened = true) (hi : ThreadInv s.args self cnt w) :
    Next s self cnt w s.barrier where
  inv     := hi
  runs    := ⟨fun hu => by simp [hu, Pc.opened] at ho, fun hr => by simp [hr, Pc.opened] at ho⟩
  born hu := by simp [← hp, hu, Pc.opened] at ho
  barrier := .stay (by rw [hp])

-- What the next statement of the handler does to the counter of the thread, and how many hits it counts.
def Handler.next (args : Args) : Handler → Handler × (PerfEvent → PerfEvent) × ℕ
  | idle  => (.idle, id, 0)
  | load  => (.hit, if args.disable = DISABLE_LATE then .disable else id, 0)
  | hit   => (.hog, id, 1)
  | hog   => (.rearm, id, 0)
  | rearm =>
    (.leave,
      if args.disable = DISABLE_EARLY then .refresh else if args.disable = DISABLE_LATE then .enable else id, 0)
  | leave => (.idle, id, 0)

-- The state of a thread and of its element of `g_counters` after a statement of the handler.
def Worker.handle (args : Args) (w : Worker n) : Worker n :=
  { w with
    handler := (w.handler.next args).fst
    event   := w.event.map (w.handler.next args).snd.fst
    handled := w.handled + (w.handler.next args).snd.snd }

def Counter.handle (w : Worker n) (cnt : Counter n) : Counter n :=
  if w.handler = .hit then { cnt with hits := CInt.wrap (cnt.hits + 1) } else cnt

theorem Counter.handle_hits (h : cnt.hits = CInt.wrap w.handled) :
    (cnt.handle w).hits = CInt.wrap (w.handle args).handled := by
  rw [handle]
  split
  case isTrue hh =>
    rw [h, Worker.handle, hh]
    simp only [Handler.next, Int.natCast_add, Int.natCast_one, CInt.wrap_wrap_add]
  case isFalse hh =>
    rw [h, Worker.handle]
    cases hw : w.handler <;> simp_all [Handler.next]

@[simp]
theorem Counter.handle_args : (cnt.handle w).args = cnt.args := by
  rw [handle]
  split <;> rfl

@[simp]
theorem Counter.handle_rank : (cnt.handle w).rank = cnt.rank := by
  rw [handle]
  split <;> rfl

@[simp]
theorem Counter.handle_fd : (cnt.handle w).fd = cnt.fd := by
  rw [handle]
  split <;> rfl

theorem signalHandler_eq (hc : s.gCounters = some counters)
    (hi : ThreadInv s.args self (counters self) (s.workers self)) (hh : (s.workers self).handler ≠ .idle) :
    signalHandler s self = some (s.change self counters ((counters self).handle (s.workers self))
      ((s.workers self).handle s.args) s.barrier) := by
  obtain ⟨hr, ha, hf⟩ := hi.rank_of_opened <| hi.opened_of_handler hh
  have access := access_eq hc ha
  generalize hw : s.workers self = w at *
  generalize hn : counters self = cnt at *
  obtain ⟨pc, rank, event, pending, handler, overflows, handled⟩ := w
  obtain ⟨_, _, fd, hits⟩ := cnt
  simp only at hr ha hf hh
  subst hr ha hf
  cases handler <;> simp only [signalHandler, hw, access, hn, State.gotoHandler, Worker.handle, Counter.handle,
    Handler.next, Option.map_id, id_eq, Nat.add_zero, reduceCtorEq, if_false, if_true]
  case idle  => exact absurd rfl hh
  case load  =>
    split
    · rw [setWorker_ioctl, change_self hc, hn]
    · rw [change_self hc, hn, Option.map_id, id_eq]
  case hit   => rfl
  case hog   => rw [change_self hc, hn]
  case rearm =>
    split
    · rw [setWorker_ioctl, change_self hc, hn]
    · split
      · rw [setWorker_ioctl, change_self hc, hn]
      · rw [change_self hc, hn, Option.map_id, id_eq]
  case leave => rw [change_self hc, hn]

namespace ThreadInv

theorem handle (h : ThreadInv args v cnt w) (hh : w.handler ≠ .idle) :
    ThreadInv args v (cnt.handle w) (w.handle args) where
  created hu := by simpa using h.created hu
  rank      := h.rank
  event     := by simpa [Worker.handle] using h.event
  dryrun    := h.dryrun
  fd he     := by simpa using h.fd <| by simpa [Worker.handle] using he
  quiet he  := absurd (h.quiet <| by simpa [Worker.handle] using he).right hh
  counted   := Counter.handle_hits h.counted
  hits      := by
    have := h.hits
    cases hw : w.handler <;>
      simp_all [Worker.handle, Worker.inFlight, Handler.next]
    omega
  overflows := h.overflows
  early ha  := by
    have ⟨he, hp, hr, hn⟩ := h.early ha
    have hl : args.disable ≠ DISABLE_LATE := by
      rw [ha]
      decide
    have hc : w.pc ≠ .refresh := fun hc => hh (hr hc).right
    have hq : w.handler ≠ .leave → w.pending = false := fun hl => Bool.of_not_eq_true fun hw =>
      (hp hw).elim hh hl
    refine ⟨fun e => ?_, fun hw => ?_, fun hw => absurd hw hc, ?_⟩
    · simp only [Worker.handle, Option.map_eq_some_iff]
      rintro ⟨e, hs, rfl⟩
      rw [he e hs]
      clear h he hs hn hr
      obtain ⟨_, _, _, _, handler, _⟩ := w
      cases handler <;> simp_all [Worker.disarmed, Handler.next, PerfEvent.refresh]
    · cases hh : w.handler <;> simp_all [Worker.handle, Handler.next]
    · cases hw : w.handler <;>
        simp_all [Worker.handle, Worker.inFlight, Handler.next]

-- The signal is delivered, and the thread enters the handler.
theorem deliver (h : ThreadInv args v cnt w) (hh : w.handler = .idle) (hp : w.pending = true) :
    ThreadInv args v cnt { w with pending := false, handler := .load } where
  created   := h.created
  rank      := h.rank
  event     := h.event
  dryrun    := h.dryrun
  fd        := h.fd
  quiet he  := by simp [(h.quiet he).left] at hp
  counted   := h.counted
  hits      := by simpa [Worker.inFlight, hh, hp] using h.hits
  overflows := h.overflows
  early ha  := by
    have ⟨he, _, hr, hn⟩ := h.early ha
    refine ⟨fun e hs => ?_, nofun, fun hc => ?_, ?_⟩
    · simpa [Worker.disarmed, hp] using he e hs
    · simp [(hr hc).left] at hp
    · simpa [Worker.inFlight, hh, hp] using hn

theorem overflow {e : PerfEvent} (h : ThreadInv args v cnt w) (he : w.event = some e) (hn : e.enabled = true) :
    ThreadInv args v cnt { w with
      event     := some e.overflow
      pending   := true
      overflows := w.overflows + 1 } where
  created   := h.created
  rank      := h.rank
  event     := by simpa [he] using h.event
  dryrun    := h.dryrun
  fd _      := h.fd <| by simp [he]
  quiet     := nofun
  counted   := h.counted
  hits      := by
    have := h.hits
    cases hp : w.pending <;> simp_all [Worker.inFlight] <;> omega
  overflows hd := by
    have ⟨hr, ho⟩ := h.opened <| by simp [he]
    simp [hr, ho] at hd
  early ha  := by
    have ⟨hs, hp, hr, hh⟩ := h.early ha
    have hs := hs e he
    have hd : w.disarmed = false := by
      by_contra hd
      rw [if_pos <| by simpa using hd] at hs
      simp [hs] at hn
    simp only [hd, Bool.false_eq_true, if_false] at hs
    simp only [Worker.disarmed, Bool.or_eq_false_iff, decide_eq_false_iff_not, Bool.and_eq_false_iff] at hd
    obtain ⟨⟨hc, hw⟩, hd⟩ := hd
    refine ⟨fun e' he' => ?_, fun _ => ?_, fun hc' => absurd hc' hc, ?_⟩
    · cases he'
      simp [Worker.disarmed, hs, PerfEvent.overflow]
    · simpa using hd
    · simp only [Worker.inFlight, hw, ← hh, Bool.toNat_true, Bool.toNat_false]
      omega

-- A thread that is not in the handler goes on to another statement.
theorem goto (h : ThreadInv args v cnt w) (hu : w.pc ≠ .unborn) (hr : w.pc ≠ .setRank) (hf : w.pc ≠ .refresh)
    {c : Pc} (hc : c.opening = false)
    (ho : (!args.dryrun && c.opened) = (!args.dryrun && w.pc.opened))
    (hd : args.dryrun = false → c.opened = true) : ThreadInv args v cnt { w with pc := c } where
  created _    := h.created hu
  rank _ _     := h.rank hu hr
  event        := h.event.trans ho.symm
  dryrun he    := by simp [hc] at he
  fd           := h.fd
  quiet        := h.quiet
  counted      := h.counted
  hits         := h.hits
  overflows hn := h.overflows <| .inl <| by
    cases ha : args.dryrun
    case true  => rfl
    case false => simp [ha, hd ha] at hn
  early ha     := by
    have ⟨he, hp, _, hn⟩ := h.early ha
    have hc : c ≠ .refresh := fun hr => by simp [hr, Pc.opening] at hc
    refine ⟨fun e hs => ?_, hp, fun hp => absurd hp hc, hn⟩
    simpa [Worker.disarmed, hf, hc] using he e hs

theorem inFlight_of_returned (h : ThreadInv args v cnt w) (hp : w.pc = .returned) : w.inFlight = 0 := by
  have hq := h.quiet <| Option.not_isSome_iff_eq_none.mp <| by simp [h.event, hp, Pc.opened]
  simp [Worker.inFlight, hq]

theorem create (h : ThreadInv args v cnt w) (hp : w.pc = .unborn) :
    ThreadInv args v { cnt with args := some args, rank := v } { w with pc := .setRank } := by
  have hn : w.event = none := Option.not_isSome_iff_eq_none.mp <| by simp [h.event, hp, Pc.opened]
  have ho := h.overflows <| .inr <| by simp [hp, Pc.opened]
  refine ⟨fun _ => ⟨rfl, rfl⟩, fun _ hr => absurd rfl hr, by simp [hn, Pc.opened], nofun, by simp [hn], h.quiet,
    h.counted, h.hits, fun _ => ho, fun ha => ?_⟩
  have ⟨_, hq, _, hh⟩ := h.early ha
  exact ⟨by simp [hn], hq, nofun, hh⟩

theorem setRank (h : ThreadInv args v cnt w) (hp : w.pc = .setRank) : ThreadInv args v cnt { w with
    pc   := if args.dryrun then .barrierWait else .perfEventOpen
    rank := cnt.rank } := by
  have hn : w.event = none := Option.not_isSome_iff_eq_none.mp <| by simp [h.event, hp, Pc.opened]
  have hc := h.created <| by simp [hp]
  have ho := h.overflows <| .inr <| by simp [hp, Pc.opened]
  refine ⟨fun _ => hc, fun _ _ => hc.right, ?_, ?_, by simp [hn], h.quiet, h.counted, h.hits, fun _ => ho,
    fun ha => ?_⟩
  · cases hd : args.dryrun <;> simp [hn, Pc.opened]
  · cases hd : args.dryrun <;> simp [Pc.opening]
  · have ⟨_, hq, _, hh⟩ := h.early ha
    refine ⟨by simp [hn], hq, fun hr => ?_, hh⟩
    cases hd : args.dryrun <;> simp [hd] at hr

-- The counter is open, but still disabled.
theorem perfEventOpen (h : ThreadInv args v cnt w) (hp : w.pc = .perfEventOpen) :
    ThreadInv args v { cnt with fd := some v } { w with pc := .refresh, event := some ⟨false, 0⟩ } := by
  have hn : w.event = none := Option.not_isSome_iff_eq_none.mp <| by simp [h.event, hp, Pc.opened]
  have ho := h.overflows <| .inr <| by simp [hp, Pc.opened]
  have hq := h.quiet hn
  have hd := h.dryrun <| by simp [hp, Pc.opening]
  refine ⟨fun _ => h.created (by simp [hp]), fun _ _ => h.rank (by simp [hp]) (by simp [hp]), ?_, fun _ => hd,
    fun _ => rfl, nofun, h.counted, h.hits, fun _ => ho, fun ha => ?_⟩
  · simp [hd, Pc.opened]
  · have ⟨_, hp, _, hh⟩ := h.early ha
    exact ⟨by simp [Worker.disarmed], hp, fun _ => hq, hh⟩

-- The counter is refreshed, and then enabled once more.
theorem arm (h : ThreadInv args v cnt w) (hp : w.pc = .refresh ∨ w.pc = .enable) {c : Pc}
    (hc : c = .enable ∨ c = .barrierWait) (hq : w.pending = false ∧ w.handler = .idle)
    (ho : args.disable = DISABLE_EARLY → ∀ e, w.event = some e → op e = ⟨true, 1⟩) :
    ThreadInv args v cnt { w with pc := c, event := w.event.map op } := by
  have hw : w.pc.opened = true := by rcases hp with hp | hp <;> rw [hp] <;> rfl
  have hco : c.opened = true := by rcases hc with rfl | rfl <;> rfl
  have hu : w.pc ≠ .unborn := fun hu => by simp [hu, Pc.opened] at hw
  have hr : w.pc ≠ .setRank := fun hu => by simp [hu, Pc.opened] at hw
  refine ⟨fun _ => h.created hu, fun _ _ => h.rank hu hr, ?_, ?_, fun he => h.fd (by simpa using he),
    fun _ => hq, h.counted, h.hits, fun hd => h.overflows ?_, fun ha => ?_⟩
  · simpa [hw, hco] using h.event
  · exact fun _ => h.dryrun <| by rcases hp with hp | hp <;> rw [hp] <;> rfl
  · exact hd.imp_right fun hd => by simp [hco] at hd
  · refine ⟨?_, fun hp => by simp [hq.left] at hp, ?_, (h.early ha).hits⟩
    · simp only [Option.map_eq_some_iff]
      rintro _ ⟨e, he, rfl⟩
      rw [ho ha e he]
      rcases hc with rfl | rfl <;> simp [Worker.disarmed, hq]
    · rcases hc with rfl | rfl <;> nofun

theorem closeCounter (h : ThreadInv args v cnt w) (hp : w.pc = .closeCounter)
    (hq : w.pending = false ∧ w.handler = .idle) :
    ThreadInv args v cnt { w with pc := .returned, event := none } := by
  refine ⟨fun _ => h.created (by simp [hp]), fun _ _ => h.rank (by simp [hp]) (by simp [hp]), ?_, nofun, nofun,
    fun _ => hq, h.counted, h.hits, fun hd => h.overflows <| .inl <| by simpa using hd, fun ha => ?_⟩
  · simp [Pc.opened]
  · exact ⟨nofun, fun hp => by simp [hq.left] at hp, nofun, (h.early ha).hits⟩

end ThreadInv

theorem Worker.handle_rest_lt (hh : w.handler ≠ .idle) : (w.handle args).rest < w.rest := by
  cases hw : w.handler <;> simp_all [Worker.rest, Worker.handle, Handler.next, Handler.rest]

theorem advances_of_signalHandler (hc : s.gCounters = some counters)
    (hi : ThreadInv s.args self (counters self) (s.workers self)) (hh : (s.workers self).handler ≠ .idle)
    (he : signalHandler s self = some s') : Advances s self counters s' := by
  rw [signalHandler_eq hc hi hh] at he
  have ho := (hi.opened <| hi.opened_of_handler hh).right
  exact ⟨_, _, _, Option.some.inj he, .interrupt rfl ho (hi.handle hh), Worker.handle_rest_lt hh⟩

theorem advances_of_deliver (hc : s.gCounters = some counters)
    (hi : ThreadInv s.args self (counters self) (s.workers self)) (hh : (s.workers self).handler = .idle)
    (hp : (s.workers self).pending = true) :
    Advances s self counters (s.setWorker self { s.workers self with pending := false, handler := .load }) := by
  have hs : (s.workers self).event.isSome := Option.ne_none_iff_isSome.mp fun he => by
    simp [(hi.quiet he).left] at hp
  refine ⟨_, _, _, (change_self hc).symm, .interrupt rfl (hi.opened hs).right (hi.deliver hh hp), ?_⟩
  simp [Worker.rest, Handler.rest, hh, hp]

-- The calls of `ioctl` in `open_counter`, the first one of which may be left out.
theorem advances_of_arm (hc : s.gCounters = some counters)
    (hi : ThreadInv s.args self (counters self) (s.workers self)) {c : Pc}
    (hp : (s.workers self).pc = .refresh ∧ c = .enable ∨ (s.workers self).pc = .enable ∧ c = .barrierWait)
    (hq : (s.workers self).pending = false ∧ (s.workers self).handler = .idle)
    (ho : s.args.disable = DISABLE_EARLY → ∀ e, (s.workers self).event = some e → op e = ⟨true, 1⟩) :
    Advances s self counters <| s.setWorker self
      { s.workers self with pc := c, event := (s.workers self).event.map op } := by
  have hn := hi.arm (hp.imp And.left And.left) (hp.imp And.right And.right) hq ho
  refine ⟨_, _, _, (change_self hc).symm, ⟨hn, ?runs, ?born, .stay ?part⟩, ?rest⟩
  all_goals obtain ⟨hp, rfl⟩ | ⟨hp, rfl⟩ := hp
  all_goals simp [hp, Pc.part, Pc.passed, Pc.ticket, Worker.rest, Pc.rest]

theorem advances_of_doWork (hc : s.gCounters = some counters)
    (hi : ThreadInv s.args self (counters self) (s.workers self)) (hh : (s.workers self).handler = .idle)
    (hq : (s.workers self).pending = false) (he : doWork s self = some s') : Advances s self counters s' := by
  have access (hu : (s.workers self).pc ≠ .unborn) := access_eq hc (hi.created hu).left
  have hd (ho : (s.workers self).pc.opening = true) (hp : (s.workers self).pc.opened = true) :
      (counters self).fd = some self :=
    hi.fd <| by simp [hi.event, hi.dryrun ho, hp]
  cases hp : (s.workers self).pc with
    simp only [doWork, hp, reduceCtorEq, Option.some.injEq, Option.ite_none_left_eq_some] at he
  | setRank       =>
    rw [access (by simp [hp])] at he
    cases he
    refine ⟨_, _, _, (change_self hc).symm, ⟨hi.setRank hp, by simp [hp], ?_, .stay ?_⟩, ?_⟩
    all_goals cases hd : s.args.dryrun <;> simp [hp, Pc.part, Pc.passed, Pc.ticket, Worker.rest, Pc.rest]
  | perfEventOpen =>
    rw [access (by simp [hp])] at he
    cases he
    exact ⟨_, _, _, rfl, ⟨hi.perfEventOpen hp, by simp [hp], nofun, .stay (by rw [hp]; rfl)⟩,
      by simp [hp, Worker.rest, Pc.rest]⟩
  | refresh       =>
    rw [access (by simp [hp]), hd (by simp [hp, Pc.opening]) (by simp [hp, Pc.opened])] at he
    cases he
    split
    case isTrue hd =>
      rw [State.goto, setWorker_ioctl]
      refine advances_of_arm hc hi (.inl ⟨hp, rfl⟩) ⟨hq, hh⟩ fun ha e he => ?_
      have := (hi.early ha).event e he
      simp only [Worker.disarmed, hp, decide_true, Bool.true_or, if_true] at this
      simp [this, PerfEvent.refresh]
    case isFalse hd =>
      have := @advances_of_arm n s self counters id hc hi _ (.inl ⟨hp, rfl⟩) ⟨hq, hh⟩ fun ha => absurd ha hd
      rwa [Option.map_id] at this
  | enable        =>
    rw [access (by simp [hp]), hd (by simp [hp, Pc.opening]) (by simp [hp, Pc.opened])] at he
    cases he
    rw [State.goto, setWorker_ioctl]
    refine advances_of_arm hc hi (.inr ⟨hp, rfl⟩) ⟨hq, hh⟩ fun ha e he => ?_
    have := (hi.early ha).event e he
    simp only [Worker.disarmed, hp, hq, hh] at this
    simp_all [PerfEvent.enable]
  | barrierWait   =>
    cases he
    refine ⟨counters self, { s.workers self with pc := .waiting s.barrier.generation }, s.barrier.arrive n, ?_,
      ⟨hi.goto ?_ ?_ ?_ rfl ?_ fun _ => rfl, by simp [hp], nofun, .arrive ?_ ?_⟩, ?_⟩
    · simp [State.goto, State.setWorker, State.change, hc]
    all_goals simp [hp, Pc.opened, Pc.part, Pc.passed, Pc.ticket, Worker.rest, Pc.rest]
  | waiting t     =>
    obtain ⟨hg, rfl⟩ := he
    refine ⟨_, _, _, (change_self hc).symm,
      ⟨hi.goto ?_ ?_ ?_ rfl ?_ fun _ => rfl, by simp [hp], nofun, .pass t ?_ ?_ hg⟩, ?_⟩
    all_goals simp [hp, Pc.opened, Pc.part, Pc.passed, Pc.ticket, Worker.rest, Pc.rest]
  | hog           =>
    rw [access (by simp [hp])] at he
    cases he
    refine ⟨_, _, _, (change_self hc).symm, ⟨hi.goto ?_ ?_ ?_ ?_ ?_ ?_, by simp [hp], ?_, .stay ?_⟩, ?_⟩
    all_goals
      cases hd : s.args.dryrun <;>
        simp [hp, Pc.opening, Pc.opened, Pc.part, Pc.passed, Pc.ticket, Worker.rest, Pc.rest]
  | closeCounter  =>
    rw [access (by simp [hp])] at he
    cases he
    exact ⟨_, _, _, (change_self hc).symm, ⟨hi.closeCounter hp ⟨hq, hh⟩, by simp [hp], nofun,
      .stay (by rw [hp]; rfl)⟩, by simp [hp, Worker.rest, Pc.rest]⟩

theorem advances_of_thread (hc : s.gCounters = some counters)
    (hi : ThreadInv s.args self (counters self) (s.workers self)) (he : thread s self = some s') :
    Advances s self counters s' := by
  rw [thread] at he
  split at he
  case isTrue hh  => exact advances_of_signalHandler hc hi hh he
  case isFalse hh =>
    have hh := not_not.mp hh
    split at he
    case isTrue hp  => exact Option.some.inj he ▸ advances_of_deliver hc hi hh hp
    case isFalse hp => exact advances_of_doWork hc hi hh (Bool.of_not_eq_true hp) he

theorem next_of_overflow (hc : s.gCounters = some counters)
    (hi : ThreadInv s.args self (counters self) (s.workers self)) (he : overflow s self = some s') :
    ∃ cnt w b, s.change self counters cnt w b = s' ∧ Next s self cnt w b ∧
      w.rest ≤ (s.workers self).rest + 6 := by
  simp only [overflow] at he
  split at he
  case h_1 => cases he
  case h_2 e hs =>
    have ⟨hn, he⟩ := Option.ite_none_right_eq_some.mp he
    have ho := (hi.opened <| by simp [hs]).right
    refine ⟨_, _, _, (change_self hc).symm.trans <| Option.some.inj he,
      .interrupt rfl ho (hi.overflow hs hn), ?_⟩
    simp only [Worker.rest, Bool.toNat_true]
    omega

end WorkloadKit.Perfuser
