import Mathlib.Data.List.TakeWhile
import Mathlib.Tactic.Common

-- The function `getopt_long`, for option strings without optional arguments or flags.
namespace WorkloadKit.Getopt

structure LongOption where
  name   : List Char
  hasArg : Bool
  val    : Char
  deriving DecidableEq

-- What a call returns, together with `optarg`. A question mark is returned for an error.
abbrev Event :=
  Char × Option (List Char)

def unknown : Event :=
  ('?', none)

-- What is found in an element of the argument vector: some events, and the option whose argument is the next
-- element if there is one.
inductive Element
  | operand
  | terminator
  | options (events : List Event) (wants : Option Char)
  deriving DecidableEq

-- Whether a letter is in the option string, and whether it takes an argument.
def takesArg (optstring : List Char) (c : Char) : Option Bool :=
  if c = ':' ∨ c = ';' then
    none
  else
    match optstring.dropWhile (· ≠ c) with
    | []        => none
    | _ :: rest => some <| rest.head? = some ':'

-- The letters of an element. The rest of an element is the argument of the first letter that takes one.
def letters (optstring : List Char) : List Char → List Event × Option Char
  | []      => ([], none)
  | c :: cs =>
    match takesArg optstring c with
    | some true  => if cs = [] then ([], some c) else ([(c, some cs)], none)
    | some false => let (events, wants) := letters optstring cs; ((c, none) :: events, wants)
    | none       => let (events, wants) := letters optstring cs; (unknown :: events, wants)

-- An option is found by its name, or by an abbreviation which is not ambiguous.
def lookup (options : List LongOption) (name : List Char) : Option LongOption :=
  match options.find? (·.name = name) with
  | some o => some o
  | none   =>
    match options.filter (name.isPrefixOf ·.name) with
    | []      => none
    | o :: os => if os.all fun o' => o'.hasArg = o.hasArg ∧ o'.val = o.val then some o else none

-- An element with two dashes, of which the rest is given.
def long (options : List LongOption) (str : List Char) : List Event × Option Char :=
  match lookup options <| str.takeWhile (· ≠ '='), str.dropWhile (· ≠ '=') with
  | none,   _          => ([unknown], none)
  | some o, []         => if o.hasArg then ([], some o.val) else ([(o.val, none)], none)
  | some o, _ :: value => ([if o.hasArg then (o.val, some value) else unknown], none)

def element (optstring : List Char) (options : List LongOption) : List Char → Element
  | ['-', '-']       => .terminator
  | '-' :: '-' :: cs => let (events, wants) := long options cs; .options events wants
  | '-' :: c :: cs   => let (events, wants) := letters optstring (c :: cs); .options events wants
  | _                => .operand

-- What the calls return until there are no more options. The operands are skipped, as they are moved to the
-- end.
def getoptLong (optstring : List Char) (options : List LongOption) : List (List Char) → List Event
  | []        => []
  | e :: rest =>
    match element optstring options e with
    | .operand               => getoptLong optstring options rest
    | .terminator            => []
    | .options events none   => events ++ getoptLong optstring options rest
    | .options events (some c) =>
      match rest with
      | []          => events ++ [unknown]
      | arg :: rest => events ++ (c, some arg) :: getoptLong optstring options rest

-- An option of an argument vector, whose argument may be a part of the same element. It is given by its name or
-- by its letter.
structure Item where
  option : LongOption
  arg    : List Char
  joined : Bool
  letter : Bool
  deriving DecidableEq

namespace Item

def long (i : Item) : List (List Char) :=
  if ¬i.option.hasArg then
    ['-' :: '-' :: i.option.name]
  else if i.joined then
    ['-' :: '-' :: i.option.name ++ '=' :: i.arg]
  else
    ['-' :: '-' :: i.option.name, i.arg]

-- An empty argument can not be a part of the same element.
def short (i : Item) : List (List Char) :=
  if ¬i.option.hasArg then
    [['-', i.option.val]]
  else if i.joined ∧ i.arg ≠ [] then
    ['-' :: i.option.val :: i.arg]
  else
    [['-', i.option.val], i.arg]

def elements (i : Item) : List (List Char) :=
  if i.letter then i.short else i.long

-- What is to be returned for the option.
def event (i : Item) : Event :=
  (i.option.val, if i.option.hasArg then some i.arg else none)

end Item

-- The names of the options can be told apart, and are not taken for something else.
structure Named (options : List LongOption) : Prop where
  plain  : ∀ o ∈ options, o.name ≠ [] ∧ '=' ∉ o.name
  unique : ∀ o ∈ options, ∀ o' ∈ options, o'.name = o.name → o' = o

-- The option string says the same about an option as the table does.
def Agrees (optstring : List Char) (o : LongOption) : Prop :=
  o.val ≠ '-' ∧ takesArg optstring o.val = some o.hasArg

instance {optstring : List Char} : DecidablePred (Agrees optstring) :=
  fun _ => inferInstanceAs <| Decidable (_ ∧ _)

variable {optstring : List Char} {options : List LongOption} {o : LongOption}
variable {i : Item} {items : List Item} {rest : List (List Char)}

theorem lookup_name (h : Named options) (ho : o ∈ options) : lookup options o.name = some o := by
  have hf : options.find? (·.name = o.name) = some o := by
    cases hf : options.find? (·.name = o.name)
    case none => simpa using List.find?_eq_none.mp hf o ho
    case some o' =>
      have hn : o'.name = o.name := by simpa using List.find?_some hf
      rw [h.unique o ho o' (List.mem_of_find?_eq_some hf) hn]
  rw [lookup, hf]

theorem Named.name_plain (h : Named options) (ho : o ∈ options) :
    ∀ c ∈ o.name, decide (c ≠ '=') = true := by
  intro c hc
  have : c ≠ '=' := fun he => (h.plain o ho).right <| he ▸ hc
  simpa using this

-- The name of an option, with and without an argument in the same element.
theorem long_name (h : Named options) (ho : o ∈ options) :
    long options o.name = if o.hasArg then ([], some o.val) else ([(o.val, none)], none) := by
  have hn := h.name_plain ho
  rw [long, List.takeWhile_eq_self_iff.mpr hn, List.dropWhile_eq_nil_iff.mpr hn, lookup_name h ho]

theorem long_name_value {value : List Char} (h : Named options) (ho : o ∈ options) (ha : o.hasArg = true) :
    long options (o.name ++ '=' :: value) = ([(o.val, some value)], none) := by
  have hn := h.name_plain ho
  have ht : (o.name ++ '=' :: value).takeWhile (· ≠ '=') = o.name := by
    rw [List.takeWhile_append_of_pos hn]
    simp
  have hd : (o.name ++ '=' :: value).dropWhile (· ≠ '=') = '=' :: value := by
    rw [List.dropWhile_append_of_pos hn]
    simp
  simp only [long, ht, hd, lookup_name h ho, ha, if_true]

theorem element_long {str : List Char} (hs : str ≠ []) : element optstring options ('-' :: '-' :: str) =
    .options (long options str).fst (long options str).snd := by
  obtain ⟨c, cs, rfl⟩ := List.exists_cons_of_ne_nil hs
  rfl

theorem element_letters {c : Char} {cs : List Char} (hc : c ≠ '-') :
    element optstring options ('-' :: c :: cs) =
      .options (letters optstring (c :: cs)).fst (letters optstring (c :: cs)).snd := by
  rw [element]
  · exact fun he _ => hc he
  · exact hc

theorem getoptLong_long (h : Named options) (ho : i.option ∈ options) :
    getoptLong optstring options (i.long ++ rest) = i.event :: getoptLong optstring options rest := by
  have hn := (h.plain _ ho).left
  rw [Item.long, Item.event]
  cases ha : i.option.hasArg
  case false =>
    simp [getoptLong, element_long hn, long_name h ho, ha]
  case true =>
    cases hj : i.joined
    case false => simp [getoptLong, element_long hn, long_name h ho, ha]
    case true =>
      have he : i.option.name ++ '=' :: i.arg ≠ [] := by simp
      simp [getoptLong, element_long he, long_name_value h ho ha]

theorem getoptLong_short (h : Agrees optstring i.option) :
    getoptLong optstring options (i.short ++ rest) = i.event :: getoptLong optstring options rest := by
  have ⟨hd, ht⟩ := h
  rw [Item.short, Item.event]
  cases ha : i.option.hasArg
  case false => simp [getoptLong, element_letters hd, letters, ht, ha]
  case true =>
    by_cases hj : i.joined = true ∧ i.arg ≠ []
    case pos => simp [getoptLong, element_letters hd, letters, ht, ha, hj.left, hj.right]
    case neg =>
      rw [if_neg (by simp), if_neg hj]
      simp [getoptLong, element_letters hd, letters, ht, ha]

theorem getoptLong_elements (h : Named options) (ho : i.option ∈ options)
    (ha : i.letter = true → Agrees optstring i.option) :
    getoptLong optstring options (i.elements ++ rest) = i.event :: getoptLong optstring options rest := by
  rw [Item.elements]
  split
  case isTrue hl => exact getoptLong_short <| ha hl
  case isFalse   => exact getoptLong_long h ho

-- The calls return the options one after another, if each of them takes what belongs to it.
theorem getoptLong_flatMap {elements : Item → List (List Char)}
    (h : ∀ i ∈ items, ∀ rest, getoptLong optstring options (elements i ++ rest) =
      i.event :: getoptLong optstring options rest) (rest : List (List Char)) :
    getoptLong optstring options (items.flatMap elements ++ rest) =
      items.map Item.event ++ getoptLong optstring options rest := by
  induction items
  case nil => rfl
  case cons i items hi =>
    have ⟨h, hs⟩ := List.forall_mem_cons.mp h
    rw [List.flatMap_cons, List.append_assoc, h, hi hs]
    rfl

-- A letter that is not in the option string is an error.
theorem getoptLong_unknown {c : Char} {cs : List Char} (hc : c ≠ '-') (ht : takesArg optstring c = none) :
    ∃ events, getoptLong optstring options (('-' :: c :: cs) :: rest) = unknown :: events := by
  have hl : letters optstring (c :: cs) =
      (unknown :: (letters optstring cs).fst, (letters optstring cs).snd) := by
    simp [letters, ht]
  rw [getoptLong, element_letters hc, hl]
  cases (letters optstring cs).snd
  case none => exact ⟨_, rfl⟩
  case some => cases rest <;> exact ⟨_, rfl⟩

theorem short_eq_cons (i : Item) : ∃ cs rest, i.short = ('-' :: i.option.val :: cs) :: rest := by
  rw [Item.short]
  split
  case isTrue => exact ⟨_, _, rfl⟩
  case isFalse => split <;> exact ⟨_, _, rfl⟩

end WorkloadKit.Getopt
