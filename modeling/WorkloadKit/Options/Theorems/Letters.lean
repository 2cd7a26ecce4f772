import WorkloadKit.Options.State

namespace WorkloadKit.Options

open Getopt

variable {items : List Item} {i : Item}

-- The vector as it is before any option is replaced.
def longs (items : List Item) : List (List Char) :=
  items.flatMap Item.long

-- The vector in which some options have been replaced by their letters.
def replaced (items : List Item) : List (List Char) :=
  items.flatMap Item.elements

theorem Heartbeat.named : Named options := by
  constructor <;> decide

theorem RpcClient.named : Named options := by
  constructor <;> decide

theorem Heartbeat.agrees_iff : ∀ o ∈ options, Agrees optstring o ↔ o ≠ quiet := by
  decide

theorem RpcClient.agrees_iff : ∀ o ∈ options, Agrees optstring o ↔ o ≠ repeats := by
  decide

theorem RpcClient.agrees_or :
    ∀ o ∈ options, Agrees optstring o ∨ o.val ≠ '-' ∧ takesArg optstring o.val = none := by
  decide

section

variable {optstring : List Char} {options : List LongOption}

theorem getoptLong_longs (h : Named options) (ho : ∀ i ∈ items, i.option ∈ options) :
    getoptLong optstring options (longs items) = items.map Item.event := by
  have hl (i : Item) (hi : i ∈ items) (rest : List (List Char)) :
      getoptLong optstring options (i.long ++ rest) = i.event :: getoptLong optstring options rest :=
    getoptLong_long h <| ho i hi
  simpa [longs, getoptLong] using getoptLong_flatMap hl []

theorem getoptLong_replaced (h : Named options) (ho : ∀ i ∈ items, i.option ∈ options)
    (ha : ∀ i ∈ items, i.letter = true → Agrees optstring i.option) :
    getoptLong optstring options (replaced items) = items.map Item.event := by
  have hl (i : Item) (hi : i ∈ items) (rest : List (List Char)) :
      getoptLong optstring options (i.elements ++ rest) = i.event :: getoptLong optstring options rest :=
    getoptLong_elements h (ho i hi) (ha i hi)
  simpa [replaced, getoptLong] using getoptLong_flatMap hl []

-- The first letter that is not in the option string is an error. The options before it are returned.
theorem getoptLong_replaced_unknown (h : Named options) (ho : ∀ i ∈ items, i.option ∈ options)
    (ha : ∀ o ∈ options, Agrees optstring o ∨ o.val ≠ '-' ∧ takesArg optstring o.val = none)
    (hr : ∃ i ∈ items, i.letter = true ∧ ¬Agrees optstring i.option) :
    ∃ events es, getoptLong optstring options (replaced items) = events ++ unknown :: es := by
  induction items
  case nil => simp at hr
  case cons i items hi =>
    obtain ⟨ho, hos⟩ := List.forall_mem_cons.mp ho
    by_cases hl : i.letter = true → Agrees optstring i.option
    case pos =>
      have hr : ∃ i ∈ items, i.letter = true ∧ ¬Agrees optstring i.option := by
        obtain ⟨j, hj, hr⟩ := hr
        refine ⟨j, (List.mem_cons.mp hj).resolve_left fun he => ?_, hr⟩
        exact hr.right <| he ▸ hl <| he ▸ hr.left
      obtain ⟨events, es, he⟩ := hi hos hr
      exact ⟨i.event :: events, es, (getoptLong_elements h ho hl).trans <| congrArg _ he⟩
    case neg =>
      obtain ⟨hl, hn⟩ := Classical.not_imp.mp hl
      obtain ⟨hd, ht⟩ := (ha _ ho).resolve_left hn
      obtain ⟨cs, rest, hs⟩ := short_eq_cons i
      have hs : replaced (i :: items) = ('-' :: i.option.val :: cs) :: (rest ++ replaced items) := by
        rw [replaced, List.flatMap_cons, Item.elements, if_pos hl, hs]
        rfl
      obtain ⟨es, he⟩ : ∃ es, getoptLong optstring options (replaced <| i :: items) = unknown :: es :=
        hs ▸ getoptLong_unknown hd ht
      exact ⟨[], es, he⟩

end

namespace Heartbeat

-- What an iteration does to the value that is returned, unless `usage` is called.
theorem parseOpt_event (s : ℤ × CommandOpts) (ho : i.option ∈ options) :
    i.option = help ∧ parseOpt s i.event = none ∨
    i.option ≠ help ∧ ∃ opts, parseOpt s i.event = some (s.fst, opts) := by
  obtain ⟨o, arg, joined, letter⟩ := i
  simp only [options, List.mem_cons, List.not_mem_nil, or_false] at ho
  rcases ho with rfl | rfl | rfl | rfl | rfl | rfl | rfl
  case inl => exact .inl ⟨rfl, rfl⟩
  all_goals exact .inr ⟨nofun, _, rfl⟩

theorem foldlM_events (s : ℤ × CommandOpts) (ho : ∀ i ∈ items, i.option ∈ options)
    (hh : ∀ i ∈ items, i.option ≠ help) :
    ∃ opts, (items.map Item.event).foldlM parseOpt s = some (s.fst, opts) := by
  induction items generalizing s
  case nil => exact ⟨s.snd, rfl⟩
  case cons i items hi =>
    have ⟨ho, hos⟩ := List.forall_mem_cons.mp ho
    have ⟨hh, hhs⟩ := List.forall_mem_cons.mp hh
    have ⟨opts, hp⟩ := ((parseOpt_event s ho).resolve_left fun h => hh h.left).right
    rw [List.map_cons, List.foldlM_cons, hp]
    exact hi (s.fst, opts) hos hhs

-- After the first `--help`, nothing has an effect.
theorem parseOpts_help {elements : Item → List (List Char)} {before after : List Item} (ho : i.option ∈ options)
    (hi : i.option = help) (h : ∀ j ∈ before ++ [i], ∀ rest, getoptLong optstring options (elements j ++ rest) =
      j.event :: getoptLong optstring options rest) :
    parseOpts ((before ++ i :: after).flatMap elements) = none := by
  have hp (s : ℤ × CommandOpts) : parseOpt s i.event = none :=
    ((parseOpt_event s ho).resolve_right fun h => h.left hi).right
  have hg := getoptLong_flatMap h <| after.flatMap elements
  rw [← List.flatMap_append, List.append_assoc, List.map_append, List.append_assoc] at hg
  rw [parseOpts, List.append_cons, List.append_assoc, hg, List.foldlM_append]
  cases (before.map Item.event).foldlM parseOpt (0, .init)
  case none   => rfl
  case some s => simp [hp]

-- The options before the first `--help`.
def beforeHelp (items : List Item) : List Item :=
  items.takeWhile (·.option ≠ help)

theorem parseOpts_replaced (ho : ∀ i ∈ items, i.option ∈ options)
    (hq : ∀ i ∈ beforeHelp items, i.letter = true → i.option ≠ quiet) :
    parseOpts (replaced items) = parseOpts (longs items) := by
  have happ : beforeHelp items ++ items.dropWhile (·.option ≠ help) = items := List.takeWhile_append_dropWhile
  cases hd : items.dropWhile (·.option ≠ help)
  case nil =>
    rw [hd, List.append_nil] at happ
    rw [happ] at hq
    have ha (i : Item) (hi : i ∈ items) (hl : i.letter = true) := (agrees_iff _ <| ho i hi).mpr <| hq i hi hl
    rw [parseOpts, parseOpts, getoptLong_replaced named ho ha, getoptLong_longs named ho]
  case cons i after =>
    rw [hd] at happ
    have hi : i.option = help := by
      have := List.head?_dropWhile_not (·.option ≠ help) items
      rw [hd] at this
      simpa using this
    have ho (j : Item) (hj : j ∈ beforeHelp items ++ [i]) : j.option ∈ options := by
      refine ho j ?_
      rw [← happ, List.append_cons]
      exact List.mem_append_left _ hj
    have hq (j : Item) (hj : j ∈ beforeHelp items ++ [i]) (hl : j.letter = true) : j.option ≠ quiet := by
      rcases List.mem_append.mp hj with hj | hj
      · exact hq j hj hl
      · rw [List.mem_singleton.mp hj, hi]
        decide
    have hoi := ho i <| List.mem_append_right _ <| List.mem_singleton_self i
    rw [← happ, replaced, longs, parseOpts_help hoi hi, parseOpts_help hoi hi]
    · exact fun j hj _ => getoptLong_long named <| ho j hj
    · intro j hj _
      exact getoptLong_elements named (ho j hj) fun hl => (agrees_iff _ <| ho j hj).mpr <| hq j hj hl

-- The option string has an argument for the letter, which is the next element of the vector.
theorem getoptLong_quiet {before : List Item} (ho : ∀ j ∈ before, j.option ∈ options)
    (hq : ∀ j ∈ before, j.letter = true → j.option ≠ quiet) (hi : i.option = quiet) (hl : i.letter = true) :
    getoptLong optstring options (replaced <| before ++ [i]) = before.map Item.event ++ [unknown] := by
  have ha (j : Item) (hj : j ∈ before) (rest : List (List Char)) :
      getoptLong optstring options (j.elements ++ rest) = j.event :: getoptLong optstring options rest :=
    getoptLong_elements named (ho j hj) fun hl => (agrees_iff _ <| ho j hj).mpr <| hq j hj hl
  have hs : [i].flatMap Item.elements = [['-', 'q']] := by
    simp [Item.elements, hl, Item.short, hi, quiet]
  rw [replaced, List.flatMap_append, hs, getoptLong_flatMap ha]
  rfl

-- If the letter comes last, then its argument is missing.
theorem not_parseOpts_replaced (ho : ∀ i ∈ items, i.option ∈ options)
    (hq : ∃ i ∈ beforeHelp items, i.letter = true ∧ i.option = quiet) :
    ∃ before, before <+: items ∧ parseOpts (replaced before) ≠ parseOpts (longs before) := by
  have hs : ((beforeHelp items).find? fun i => i.letter = true ∧ i.option = quiet).isSome := by
    rw [List.find?_isSome]
    simpa using hq
  have ⟨i, hf⟩ := Option.isSome_iff_exists.mp hs
  obtain ⟨hp, before, after, he, hb⟩ := List.find?_eq_some_iff_append.mp hf
  obtain ⟨hl, hi⟩ : i.letter = true ∧ i.option = quiet := by simpa using hp
  have hpre : before ++ [i] <+: beforeHelp items := ⟨after, by rw [he, List.append_assoc]; rfl⟩
  have hh (j : Item) (hj : j ∈ before) : j.option ≠ help := by
    simpa using List.mem_takeWhile_imp <| hpre.subset <| List.mem_append_left [i] hj
  have hpre : before ++ [i] <+: items := hpre.trans <| List.takeWhile_prefix _
  have ho (j : Item) (hj : j ∈ before ++ [i]) := ho j <| hpre.subset hj
  have hob (j : Item) (hj : j ∈ before) := ho j <| List.mem_append_left [i] hj
  have hq (j : Item) (hj : j ∈ before) (hl : j.letter = true) : j.option ≠ quiet := by
    simpa [hl] using hb j hj
  obtain ⟨opts, hf⟩ := foldlM_events (0, .init) hob hh
  refine ⟨before ++ [i], hpre, fun h => ?_⟩
  have hev : i.event = ('q', none) := by simp [Item.event, hi, quiet]
  rw [parseOpts, parseOpts, getoptLong_quiet hob hq hi hl, getoptLong_longs named ho, List.map_append,
    List.foldlM_append, List.foldlM_append, hf, List.map_singleton, hev] at h
  cases h

end Heartbeat

namespace RpcClient

theorem val_iff : ∀ o ∈ options, (o = help ↔ o.val = 'h') ∧ (o = server ↔ o.val = 's') := by
  decide

-- What an iteration does to the field that is tested after the loop.
theorem parseOpt_event (opts : Opts) (ho : i.option ∈ options) :
    i.option = help ∧ parseOpt opts i.event = none ∨
    i.option ≠ help ∧ ∃ opts', parseOpt opts i.event = some opts' ∧
      (opts'.server = none ↔ opts.server = none ∧ i.option ≠ server) := by
  have ⟨hh, hs⟩ := val_iff _ ho
  rw [ne_eq, ne_eq, hh, hs]
  obtain ⟨o, arg, joined, letter⟩ := i
  simp only [options, List.mem_cons, List.not_mem_nil, or_false] at ho
  rcases ho with rfl | rfl | rfl | rfl | rfl | rfl | rfl | rfl | rfl
  case inl     => exact .inl ⟨rfl, rfl⟩
  case inr.inl => exact .inr ⟨nofun, _, rfl, iff_of_false nofun fun h => h.right rfl⟩
  all_goals exact .inr ⟨nofun, _, rfl, (and_iff_left nofun).symm⟩

theorem foldlM_events (opts : Opts) (ho : ∀ i ∈ items, i.option ∈ options) :
    (∃ i ∈ items, i.option = help) ∧ (items.map Item.event).foldlM parseOpt opts = none ∨
    (∀ i ∈ items, i.option ≠ help) ∧ ∃ opts', (items.map Item.event).foldlM parseOpt opts = some opts' ∧
      (opts'.server = none ↔ opts.server = none ∧ ∀ i ∈ items, i.option ≠ server) := by
  induction items generalizing opts
  case nil => exact .inr ⟨nofun, opts, rfl, by simp⟩
  case cons i items hi =>
    have ⟨ho, hos⟩ := List.forall_mem_cons.mp ho
    rw [List.map_cons, List.foldlM_cons]
    obtain ⟨hh, hp⟩ | ⟨hh, opts₁, hp, hs⟩ := parseOpt_event opts ho
    case inl => exact .inl ⟨⟨i, List.mem_cons_self, hh⟩, by rw [hp]; rfl⟩
    case inr =>
      rw [hp]
      obtain ⟨⟨j, hj, hh⟩, hn⟩ | ⟨hhs, opts₂, hp, hs₂⟩ := hi opts₁ hos
      case inl => exact .inl ⟨⟨j, List.mem_cons_of_mem _ hj, hh⟩, hn⟩
      case inr =>
        refine .inr ⟨List.forall_mem_cons.mpr ⟨hh, hhs⟩, opts₂, hp, ?_⟩
        rw [hs₂, hs, List.forall_mem_cons, and_assoc]

-- When `usage` is called for the vector as it is at first.
theorem parseOpts_longs_eq_none (ho : ∀ i ∈ items, i.option ∈ options) :
    parseOpts (longs items) = none ↔ (∃ i ∈ items, i.option = help) ∨ ∀ i ∈ items, i.option ≠ server := by
  rw [parseOpts, getoptLong_longs named ho]
  obtain ⟨hh, hn⟩ | ⟨hh, opts, hp, hs⟩ := foldlM_events .init ho
  case inl => exact iff_of_true (by rw [hn]; rfl) (.inl hh)
  case inr =>
    have hs : opts.server = none ↔ ∀ i ∈ items, i.option ≠ server := hs.trans <| and_iff_right rfl
    have hh : ¬∃ i ∈ items, i.option = help := fun ⟨i, hi, he⟩ => hh i hi he
    rw [hp, or_iff_right hh, ← hs]
    simp

-- A letter that is not in the option string makes `usage` be called, unless it has been called before.
theorem parseOpts_replaced_eq_none (ho : ∀ i ∈ items, i.option ∈ options)
    (hr : ∃ i ∈ items, i.letter = true ∧ i.option = repeats) : parseOpts (replaced items) = none := by
  have ⟨i, hi, hl, he⟩ := hr
  have hn : ¬Agrees optstring i.option := fun ha => (agrees_iff _ <| ho i hi).mp ha he
  have ⟨events, es, he⟩ := getoptLong_replaced_unknown named ho agrees_or ⟨i, hi, hl, hn⟩
  rw [parseOpts, he, List.foldlM_append]
  cases (events.foldlM parseOpt .init) <;> rfl

theorem parseOpts_replaced (ho : ∀ i ∈ items, i.option ∈ options)
    (hr : ∀ i ∈ items, i.letter = true → i.option ≠ repeats) :
    parseOpts (replaced items) = parseOpts (longs items) := by
  have ha (i : Item) (hi : i ∈ items) (hl : i.letter = true) := (agrees_iff _ <| ho i hi).mpr <| hr i hi hl
  rw [parseOpts, parseOpts, getoptLong_replaced named ho ha, getoptLong_longs named ho]

theorem parseOpts_replaced_iff (ho : ∀ i ∈ items, i.option ∈ options) :
    parseOpts (replaced items) = parseOpts (longs items) ↔
      (∀ i ∈ items, i.letter = true → i.option ≠ repeats) ∨
      (∃ i ∈ items, i.option = help) ∨ ∀ i ∈ items, i.option ≠ server := by
  by_cases hr : ∀ i ∈ items, i.letter = true → i.option ≠ repeats
  case pos => exact iff_of_true (parseOpts_replaced ho hr) (.inl hr)
  case neg =>
    have hr' : ∃ i ∈ items, i.letter = true ∧ i.option = repeats := by simpa using hr
    rw [or_iff_right hr, parseOpts_replaced_eq_none ho hr', eq_comm, parseOpts_longs_eq_none ho]

end RpcClient

-- Replacing some options by their letters changes nothing if both descriptions of the options agree about them.
-- What happens otherwise depends on the program: one letter takes the next element, the other one calls
-- `usage`. What is taken may be without effect, but not if the vector is cut off at some place.
theorem parseOpts_replaced_eq_iff (items₁ items₂ : List Item) (h₁ : ∀ i ∈ items₁, i.option ∈ Heartbeat.options)
    (h₂ : ∀ i ∈ items₂, i.option ∈ RpcClient.options) :
    ((∀ items, items <+: items₁ → Heartbeat.parseOpts (replaced items) = Heartbeat.parseOpts (longs items)) ↔
      ∀ i ∈ items₁.takeWhile (·.option ≠ Heartbeat.help), i.letter = true → i.option ≠ Heartbeat.quiet) ∧
    (RpcClient.parseOpts (replaced items₂) = RpcClient.parseOpts (longs items₂) ↔
      (∀ i ∈ items₂, i.letter = true → i.option ≠ RpcClient.repeats) ∨
      (∃ i ∈ items₂, i.option = RpcClient.help) ∨ ∀ i ∈ items₂, i.option ≠ RpcClient.server) := by
  refine ⟨⟨?mp, ?mpr⟩, RpcClient.parseOpts_replaced_iff h₂⟩
  case mp =>
    intro h
    by_contra hq
    have ⟨items, hi, hn⟩ := Heartbeat.not_parseOpts_replaced h₁ <| by simpa [Heartbeat.beforeHelp] using hq
    exact hn <| h items hi
  case mpr =>
    intro hq items hi
    refine Heartbeat.parseOpts_replaced (fun i hm => h₁ i <| hi.subset hm) fun i hm => hq i ?_
    rw [Heartbeat.beforeHelp, List.prefix_iff_eq_take.mp hi, ← List.take_takeWhile] at hm
    exact List.mem_of_mem_take hm

-- The vectors `--message hi -v --help -q` and `-s h --repeat 5 -d3`.
theorem parseOpts_replaced_eq :
    let items₁ : List Item := [⟨⟨"message".toList, true, 'm'⟩, "hi".toList, false, false⟩,
      ⟨⟨"verbose".toList, false, 'v'⟩, [], false, true⟩, ⟨Heartbeat.help, [], false, false⟩,
      ⟨Heartbeat.quiet, [], false, true⟩]
    let items₂ : List Item := [⟨RpcClient.server, ['h'], false, true⟩, ⟨RpcClient.repeats, ['5'], false, false⟩,
      ⟨⟨"delay".toList, true, 'd'⟩, ['3'], true, true⟩]
    Heartbeat.parseOpts (replaced items₁) = Heartbeat.parseOpts (longs items₁) ∧
      RpcClient.parseOpts (replaced items₂) = RpcClient.parseOpts (longs items₂) := by
  intro items₁ items₂
  have h := parseOpts_replaced_eq_iff items₁ items₂ (by decide) (by decide)
  exact ⟨h.left.mpr (by decide) items₁ List.prefix_rfl, h.right.mpr <| .inl <| by decide⟩

-- The vectors `--quiet --help` and `--server h --repeat 5`, in which the first or the second option is
-- replaced.
theorem not_parseOpts_replaced_eq :
    (¬∀ items : List Item, (∀ i ∈ items, i.option ∈ Heartbeat.options) →
      Heartbeat.parseOpts (replaced items) = Heartbeat.parseOpts (longs items)) ∧
    ¬∀ items : List Item, (∀ i ∈ items, i.option ∈ RpcClient.options) →
      RpcClient.parseOpts (replaced items) = RpcClient.parseOpts (longs items) := by
  constructor
  case left =>
    let items : List Item := [⟨Heartbeat.quiet, [], false, true⟩, ⟨Heartbeat.help, [], false, false⟩]
    intro h
    have ho : ∀ i ∈ items, i.option ∈ Heartbeat.options := by decide
    exact absurd (h items ho) (by decide)
  case right =>
    let items : List Item := [⟨RpcClient.server, ['h'], false, false⟩, ⟨RpcClient.repeats, ['5'], false, true⟩]
    intro h
    have ho : ∀ i ∈ items, i.option ∈ RpcClient.options := by decide
    exact absurd (h items ho) (by decide)

end WorkloadKit.Options
