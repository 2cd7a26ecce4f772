import WorkloadKit.SockPair.Descriptors

namespace WorkloadKit.SockPair

variable {table : Finset ℕ} {fd : ℤ × ℤ} {s s' : Process} {e : Event} {d : ℕ}

theorem lowest_notMem (table : Finset ℕ) : lowest table ∉ table := by
  have ⟨d, hd, ht⟩ : ∃ d ∈ List.range (table.card + 1), d ∉ table := by
    by_contra! h
    have := Finset.card_le_card fun d hd => h d <| List.mem_range.mpr <| Finset.mem_range.mp hd
    rw [Finset.card_range] at this
    omega
  rw [lowest]
  cases hf : (List.range (table.card + 1)).find? (· ∉ table)
  case none   => exact absurd ht <| by simpa using List.find?_eq_none.mp hf d hd
  case some d => simpa using List.find?_some hf

-- The function either fails, and then it has closed the descriptors that it has opened, or it returns the two
-- that are still open.
structure Process.Tidy (fd : ℤ × ℤ) (s : Process) : Prop where
  failed : s.base.pc = .returned (-1) → (∀ d ∈ s.opened, d ∉ s.table) ∧ s.fd = fd
  paired : s.base.pc = .returned 0 → ∃ c a : ℕ, c ≠ a ∧ s.fd = (↑c, ↑a) ∧
    ∀ d, d ∈ s.opened ∧ d ∈ s.table ↔ d = c ∨ d = a

-- No other call than the first one fails.
def FailsFirst (s : Process) (e : Event) : Prop :=
  e = .fail → s.base.pc = .socketListener

-- What a failing call does.
theorem step_fail_cases (hs : s.step .fail = some s') :
    (∀ r, s.base.pc ≠ .returned r) ∧ ∃ base : State, base.pc = .returned (-1) ∧ s' = { s with base } := by
  have ⟨base, hb, hs⟩ := Option.map_eq_some_iff.mp hs
  simp only [SockPair.step, stepFail] at hb
  split at hb
  case h_4 hr =>
    obtain rfl := Option.some.inj hb
    exact ⟨hr, _, rfl, hs.symm⟩
  all_goals cases hb

-- A client only connects to the listener.
theorem step_client_cases (hs : s.step .client = some s') :
    ∃ base : State, base.pc = s.base.pc ∧ s' = { s with base } := by
  have ⟨base, hb, hs⟩ := Option.map_eq_some_iff.mp hs
  simp only [SockPair.step] at hb
  split at hb
  case isTrue =>
    obtain rfl := Option.some.inj hb
    exact ⟨s.base.arrive .other, rfl, hs.symm⟩
  case isFalse => cases hb

theorem step_ok_pc (hs : s.step .ok = some s') :
    (∀ r, s.base.pc ≠ .returned r) ∧ s'.base.pc ≠ .returned (-1) := by
  have ⟨base, hb, hs⟩ := Option.map_eq_some_iff.mp hs
  cases hp : s.base.pc
  all_goals simp only [hp, SockPair.step, stepOk] at hb hs
  case accept =>
    split at hb
    case h_1 => cases hb
    case h_2 =>
      obtain rfl := Option.some.inj hb
      exact hs ▸ ⟨nofun, nofun⟩
  case store =>
    split at hb
    case h_1 =>
      obtain rfl := Option.some.inj hb
      exact hs ▸ ⟨nofun, fun h => absurd (Pc.returned.inj h) (by decide)⟩
    case h_2 => cases hb
  case returned => cases hb
  all_goals
    obtain rfl := Option.some.inj hb
    subst hs
    exact ⟨nofun, nofun⟩

-- The descriptors that have been opened when a statement is reached, and the variables that have them.
def Process.Stage (s : Process) : Pc → Prop
  | .socketListener                              => s.opened = []
  | .bind | .listen | .socketConnector           => ∃ l : ℕ, s.listener = l ∧ s.opened = [l]
  | .getsocknameListener | .checkListenerSize | .connect | .accept =>
    ∃ l c : ℕ, s.listener = l ∧ s.connector = c ∧ s.opened = [c, l]
  | .checkSize | .closeListener | .getsocknameConnector | .store =>
    ∃ l c a : ℕ, s.listener = l ∧ s.connector = c ∧ s.acceptor = a ∧ s.opened = [a, c, l]
  | .returned r => r = 0 → ∃ l c a : ℕ, s.listener = l ∧ s.fd = (↑c, ↑a) ∧ s.opened = [a, c, l]

def Pc.hasListener : Pc → Bool
  | .getsocknameConnector | .store | .returned _ => false
  | _                                            => true

-- As long as no call has failed, the listener is the only descriptor that has been closed.
structure Process.Invariant (fd : ℤ × ℤ) (s : Process) : Prop where
  stage  : s.Stage s.base.pc
  nodup  : s.opened.Nodup
  live   : s.base.pc ≠ .returned (-1) →
    ∀ d ∈ s.opened, d ∈ s.table ↔ s.base.pc.hasListener = true ∨ (d : ℤ) ≠ s.listener
  fd     : s.base.pc ≠ .returned 0 → s.fd = fd

namespace Process.Invariant

theorem init : Invariant fd (.init table fd) where
  stage  := rfl
  nodup  := .nil
  live _ := nofun
  fd _   := rfl

-- A step that neither opens nor closes a descriptor.
theorem move {base : State} (h : Invariant fd s) (hs : Stage { s with base } base.pc)
    (hc : base.pc.hasListener = s.base.pc.hasListener) (h₁ : s.base.pc ≠ .returned (-1))
    (h₀ : s.base.pc ≠ .returned 0) : Invariant fd { s with base } where
  stage  := hs
  nodup  := h.nodup
  live _ := by
    simp only [hc]
    exact h.live h₁
  fd _   := h.fd h₀

-- A descriptor that is opened is a new one.
theorem opens (h : Invariant fd s) (hl : s.base.pc.hasListener = true) (hs : s'.Stage s'.base.pc)
    (hl' : s'.base.pc.hasListener = true) (ho : s'.opened = lowest s.table :: s.opened)
    (ht : s'.table = insert (lowest s.table) s.table) (hf : s'.fd = s.fd) : Invariant fd s' where
  stage := hs
  nodup := by
    rw [ho]
    have hn := lowest_notMem s.table
    have hr : s.base.pc ≠ .returned (-1) := fun hr => by simp [hr, Pc.hasListener] at hl
    exact h.nodup.cons fun hm => hn <| (h.live hr _ hm).mpr <| .inl hl
  live _ d hd := by
    have hr : s.base.pc ≠ .returned (-1) := fun hr => by simp [hr, Pc.hasListener] at hl
    rw [ho, List.mem_cons] at hd
    refine iff_of_true ?_ <| .inl hl'
    rw [ht, Finset.mem_insert]
    exact hd.imp_right fun hm => (h.live hr d hm).mpr <| .inl hl
  fd _  := hf.trans <| h.fd fun hr => by simp [hr, Pc.hasListener] at hl

-- The listener is closed.
theorem closes {base : State} (h : Invariant fd s) (hp : s.base.pc = .closeListener)
    (hb : base.pc = .getsocknameConnector) :
    Invariant fd { s with base, table := s.table.erase s.listener.toNat } where
  stage := by
    have hs := h.stage
    rw [hp] at hs
    rwa [hb]
  nodup := h.nodup
  live _ d hd := by
    have hs := h.stage
    rw [hp] at hs
    have ⟨l, _, _, hl, _⟩ := hs
    have ht := (h.live (by rw [hp]; nofun) d hd).mpr <| .inl <| by rw [hp]; rfl
    have he : (d : ℤ) ≠ l ↔ d ≠ l := Int.natCast_inj.not
    simp only [hb, Pc.hasListener, hl, he, Int.toNat_natCast, Finset.mem_erase, ht, and_true, Bool.false_eq_true,
      false_or]
  fd _  := h.fd <| by rw [hp]; nofun

theorem stores {base : State} (h : Invariant fd s) (hp : s.base.pc = .store) (hb : base.pc = .returned 0) :
    Invariant fd { s with base, fd := (s.connector, s.acceptor) } where
  stage := by
    have hs := h.stage
    rw [hp] at hs
    have ⟨l, c, a, hl, hc, ha, ho⟩ := hs
    rw [hb]
    exact fun _ => ⟨l, c, a, hl, by rw [hc, ha], ho⟩
  nodup := h.nodup
  live _ := by
    have hl := h.live <| by rw [hp]; nofun
    rw [hp] at hl
    rw [hb]
    exact hl
  fd h₀ := absurd hb h₀

theorem fails {base : State} (h : Invariant fd s) (hb : base.pc = .returned (-1))
    (h₀ : s.base.pc ≠ .returned 0) : Invariant fd { s with base } where
  stage   := by
    rw [hb]
    exact fun h => absurd h (by decide)
  nodup   := h.nodup
  live h₁ := absurd hb h₁
  fd _    := h.fd h₀

theorem step_ok (h : Invariant fd s) (hs : s.step .ok = some s') : Invariant fd s' := by
  have ⟨base, hb, hs⟩ := Option.map_eq_some_iff.mp hs
  have hst := h.stage
  cases hp : s.base.pc
  all_goals
    simp only [hp, SockPair.step, stepOk] at hb hs hst
  case accept =>
    split at hb
    case h_1 => cases hb
    case h_2 =>
      obtain ⟨l, c, hl, hc, ho⟩ := hst
      obtain rfl := Option.some.inj hb
      subst hs
      exact h.opens (by rw [hp]; rfl) ⟨l, c, _, hl, hc, rfl, by rw [← ho]; rfl⟩ rfl rfl rfl rfl
  case store =>
    split at hb
    case h_1 =>
      obtain rfl := Option.some.inj hb
      exact hs ▸ h.stores hp rfl
    case h_2 => cases hb
  case returned => cases hb
  all_goals
    obtain rfl := Option.some.inj hb
    subst hs
  case socketListener =>
    exact h.opens (by rw [hp]; rfl) ⟨_, rfl, by rw [← hst]; rfl⟩ rfl rfl rfl rfl
  case socketConnector =>
    obtain ⟨l, hl, ho⟩ := hst
    exact h.opens (by rw [hp]; rfl) ⟨l, _, hl, rfl, by rw [← ho]; rfl⟩ rfl rfl rfl rfl
  case closeListener => exact h.closes hp rfl
  all_goals exact h.move hst (by rw [hp]; rfl) (by rw [hp]; nofun) (by rw [hp]; nofun)

-- A step after a call has failed is none of the function, and neither is one of a client.
theorem step (h : Invariant fd s) (hs : s.step e = some s') : Invariant fd s' := by
  cases e
  case ok   => exact h.step_ok hs
  case fail =>
    have ⟨hr, base, hb, hs⟩ := step_fail_cases hs
    exact hs ▸ h.fails hb (hr 0)
  case client =>
    have ⟨base, hb, hs⟩ := step_client_cases hs
    subst hs
    exact {
      stage := by rw [hb]; exact h.stage
      nodup := h.nodup
      live  := by rw [hb]; exact h.live
      fd    := by rw [hb]; exact h.fd
    }

end Process.Invariant

theorem process_invariant (h : (createSocketpair table fd).Reachable s) : s.Invariant fd :=
  h.invariant .init fun hi _ hs => hi.step hs

namespace Process.Invariant

-- After the first statement, there is always an open descriptor, until the function returns.
theorem exists_live (h : Invariant fd s) (hp : s.base.pc ≠ .socketListener)
    (hr : ∀ r, s.base.pc ≠ .returned r) :
    ∃ d ∈ s.opened, d ∈ s.table := by
  have hst := h.stage
  have live (d : ℕ) (hd : d ∈ s.opened) (hl : s.base.pc.hasListener = true ∨ (d : ℤ) ≠ s.listener) :
      ∃ d ∈ s.opened, d ∈ s.table := ⟨d, hd, (h.live (hr _) d hd).mpr hl⟩
  cases hpc : s.base.pc
  all_goals simp only [hpc, Stage] at hst
  case socketListener => exact absurd hpc hp
  case returned r     => exact absurd hpc (hr r)
  case bind | listen | socketConnector =>
    obtain ⟨l, _, ho⟩ := hst
    exact live l (by simp [ho]) <| .inl <| by rw [hpc]; rfl
  case getsocknameListener | checkListenerSize | connect | accept =>
    obtain ⟨l, c, _, _, ho⟩ := hst
    exact live l (by simp [ho]) <| .inl <| by rw [hpc]; rfl
  all_goals
    obtain ⟨l, c, a, hl, _, _, ho⟩ := hst
    have hn := ho ▸ h.nodup
    refine live c (by simp [ho]) <| .inr fun he => ?_
    have : c = l := Int.natCast_inj.mp <| he.trans hl
    simp [this] at hn

-- What a failing call leaves open.
theorem leak (h : Invariant fd s) (hs : s.step .fail = some s') (hp : s.base.pc ≠ .socketListener) :
    s'.base.pc = .returned (-1) ∧ ∃ d ∈ s'.opened, d ∈ s'.table := by
  have ⟨hr, base, hb, hs⟩ := step_fail_cases hs
  subst hs
  exact ⟨hb, h.exists_live hp hr⟩

theorem paired (h : Invariant fd s) (hr : s.base.pc = .returned 0) :
    ∃ c a : ℕ, c ≠ a ∧ s.fd = (↑c, ↑a) ∧ ∀ d, d ∈ s.opened ∧ d ∈ s.table ↔ d = c ∨ d = a := by
  have hst := h.stage
  rw [hr] at hst
  have ⟨l, c, a, hl, hf, ho⟩ := hst rfl
  have h₁ : s.base.pc ≠ .returned (-1) := fun h₁ => absurd (Pc.returned.inj <| hr.symm.trans h₁) (by decide)
  have live (d : ℕ) (hd : d ∈ s.opened) : d ∈ s.table ↔ d ≠ l := by
    simpa [hr, Pc.hasListener, hl, Int.natCast_inj] using h.live h₁ d hd
  have ⟨⟨hac, hal⟩, hcl⟩ : (a ≠ c ∧ a ≠ l) ∧ c ≠ l := by simpa [ho] using h.nodup
  refine ⟨c, a, hac.symm, hf, fun d => ?_⟩
  constructor
  case mp =>
    intro ⟨hd, ht⟩
    have hdl := (live d hd).mp ht
    rw [ho] at hd
    simpa [hdl, or_comm] using hd
  case mpr =>
    intro hd
    have ho : d ∈ s.opened := by simpa [ho] using hd.symm.imp_right .inl
    refine ⟨ho, (live d ho).mpr ?_⟩
    obtain rfl | rfl := hd
    case inl => exact hcl
    case inr => exact hal

end Process.Invariant

-- In a run in which no other call than the first one fails, nothing has been opened when it fails.
theorem opened_of_failsFirst (h : (createSocketpair table fd).ReachableUnder FailsFirst s) :
    s.Invariant fd ∧ (s.base.pc = .returned (-1) → s.opened = []) := by
  refine h.invariant (I := fun s => s.Invariant fd ∧ (s.base.pc = .returned (-1) → s.opened = []))
    ⟨.init, fun _ => rfl⟩ ?_
  intro s₁ e s₂ ⟨hi, ho⟩ hc hs
  refine ⟨hi.step hs, fun hr => ?_⟩
  cases e
  case ok   => exact absurd hr (step_ok_pc hs).right
  case fail =>
    have ⟨_, base, _, h₂⟩ := step_fail_cases hs
    have hst := hi.stage
    rw [hc rfl] at hst
    rw [h₂]
    exact hst
  case client =>
    have ⟨base, hb, h₂⟩ := step_client_cases hs
    rw [h₂] at hr ⊢
    exact ho <| hb.symm.trans hr

-- Once a descriptor has been leaked, it stays so, as the function has returned.
theorem leak_step (hs : s.step e = some s') (hr : s.base.pc = .returned (-1))
    (hl : ∃ d ∈ s.opened, d ∈ s.table) : s'.base.pc = .returned (-1) ∧ ∃ d ∈ s'.opened, d ∈ s'.table := by
  cases e
  case ok     => exact absurd hr <| (step_ok_pc hs).left _
  case fail   => exact absurd hr <| (step_fail_cases hs).left _
  case client =>
    have ⟨base, hb, hs⟩ := step_client_cases hs
    subst hs
    exact ⟨hb.trans hr, hl⟩

-- In each run, either no other call than the first one has failed, or a descriptor has been leaked.
theorem failsFirst_or_leak (h : (createSocketpair table fd).Reachable s) :
    (createSocketpair table fd).ReachableUnder FailsFirst s ∨
    s.base.pc = .returned (-1) ∧ ∃ d ∈ s.opened, d ∈ s.table := by
  induction h
  case init => exact .inl .init
  case step s₁ e s₂ h₁ _ hs hi =>
    obtain hu | ⟨hr, hl⟩ := hi
    case inr => exact .inr <| leak_step hs hr hl
    case inl =>
      by_cases hc : FailsFirst s₁ e
      case pos => exact .inl <| hu.step hc hs
      case neg =>
        have ⟨he, hp⟩ := Classical.not_imp.mp hc
        exact .inr <| (process_invariant h₁).leak (he ▸ hs) hp

-- The function is tidy if and only if no other call than the first one fails.
theorem tidy_iff (h : (createSocketpair table fd).Reachable s) :
    s.Tidy fd ↔ (createSocketpair table fd).ReachableUnder FailsFirst s := by
  constructor
  case mp =>
    intro ht
    refine (failsFirst_or_leak h).resolve_right fun ⟨hr, d, hd, hl⟩ => ?_
    exact (ht.failed hr).left d hd hl
  case mpr =>
    intro hu
    have ⟨hi, ho⟩ := opened_of_failsFirst hu
    refine ⟨fun hr => ⟨by simp [ho hr], hi.fd fun h₀ => ?_⟩, hi.paired⟩
    exact absurd (Pc.returned.inj <| hr.symm.trans h₀) (by decide)

-- The standard streams are open, and all calls succeed.
theorem tidy_pair : ∃ s, (createSocketpair {0, 1, 2} (7, 7)).Reachable s ∧ s.fd = (4, 5) ∧
    (s.Tidy (7, 7) ↔ (createSocketpair {0, 1, 2} (7, 7)).ReachableUnder FailsFirst s) := by
  have he : ((createSocketpair {0, 1, 2} (7, 7)).exec (.init {0, 1, 2} (7, 7)) (List.replicate 12 .ok)).map
      (·.fd) = some (4, 5) := by decide
  have ⟨s, he, hf⟩ := Option.map_eq_some_iff.mp he
  have h := System.ReachableUnder.of_exec he
  exact ⟨s, h, hf, tidy_iff h⟩

-- The call of `bind` fails, and the listener stays open.
theorem not_tidy : ¬∀ table fd s, (createSocketpair table fd).Reachable s → s.Tidy fd := by
  intro h
  have he : ((createSocketpair {0, 1, 2} (7, 7)).exec (.init {0, 1, 2} (7, 7)) [.ok, .fail]).map
      (fun s => (s.base.pc, s.opened, decide (3 ∈ s.table))) = some (.returned (-1), [3], true) := by decide
  have ⟨s, he, hs⟩ := Option.map_eq_some_iff.mp he
  have ⟨hr, hs⟩ := Prod.mk.inj hs
  have ⟨ho, ht⟩ := Prod.mk.inj hs
  exact ((h _ _ s <| .of_exec he).failed hr).left 3 (by simp [ho]) (of_decide_eq_true ht)

end WorkloadKit.SockPair
