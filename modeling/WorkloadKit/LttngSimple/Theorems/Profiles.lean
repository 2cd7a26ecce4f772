import Mathlib.Data.List.ReduceOption
import WorkloadKit.Library.First
import WorkloadKit.LttngSimple.Profiles

namespace WorkloadKit.LttngSimple

variable {fs : FileSystem} {searchpath : List (Option String)} {name dir : String} {e : String}

-- A directory has a profile in which a path can find it, and one in which a pattern can.
def FileSystem.Has (fs : FileSystem) (name directory : String) : Prop :=
  fs.exists (join directory <| name ++ ".list") = true

def FileSystem.Shows (fs : FileSystem) (name dirname : String) : Prop :=
  name ++ ".list" ∈ fs.scandir dirname ∧ isListEntry (name ++ ".list") = true

instance : DecidablePred (fs.Has name) :=
  fun _ => inferInstanceAs <| Decidable (_ = _)

instance : DecidablePred (fs.Shows name) :=
  fun _ => inferInstanceAs <| Decidable (_ ∧ _)

theorem basename_append (h : '/' ∉ e.toList) (hd : dir = "" ∨ dir.toList.getLast? = some '/') :
    basename (dir ++ e) = e := by
  have he : ∀ c ∈ e.toList.reverse, decide (c ≠ '/') = true := by
    intro c hc
    have : c ≠ '/' := fun h₀ => h <| h₀ ▸ List.mem_reverse.mp hc
    simpa using this
  have hn : dir.toList.reverse.takeWhile (· ≠ '/') = [] := by
    obtain rfl | hd := hd
    case inl => rfl
    case inr =>
      rw [← List.head?_reverse] at hd
      cases hr : dir.toList.reverse <;> simp_all
  rw [basename, String.toList_append, List.reverse_append, List.takeWhile_append_of_pos he, hn, List.append_nil,
    List.reverse_reverse, String.ofList_toList]

theorem basename_join (h : '/' ∉ e.toList) : basename (join dir e) = e := by
  have hs : e.toList.head? ≠ some '/' := fun hs => h <| List.mem_of_head? hs
  rw [join, if_neg hs]
  split
  case isTrue hd  => exact basename_append h hd
  case isFalse hd => exact basename_append h <| .inr <| by simp [String.toList_append]

-- The dot of the extension is the last one, and there is something in front of it.
theorem stem_join (h : '/' ∉ (name ++ ".list").toList) (hl : isListEntry (name ++ ".list") = true) :
    stem (join dir <| name ++ ".list") = name := by
  have ht : (name ++ ".list").toList.reverse.takeWhile (· ≠ '.') = "list".toList.reverse := by
    rw [String.toList_append, List.reverse_append]
    rfl
  have hn : 0 < name.toList.length := by
    rw [List.length_pos_iff]
    intro hn
    obtain rfl := String.toList_inj.mp (hn.trans String.toList_empty.symm)
    exact absurd hl (by decide)
  have hlen : (name ++ ".list").toList.length = name.toList.length + 5 := by
    rw [String.toList_append, List.length_append]
    rfl
  have hi : name.toList.length + 5 - "list".toList.reverse.length - 1 = name.toList.length := by
    show name.toList.length + 5 - 4 - 1 = _
    omega
  simp only [stem, basename_join h, ht, hlen, hi]
  rw [if_pos ⟨hn, by omega⟩, String.toList_append, List.take_left' rfl, String.ofList_toList]

theorem isListEntry_iff : isListEntry e = true ↔ e.toList.head? ≠ some '.' ∧ ∃ name, e = name ++ ".list" := by
  rw [isListEntry, Bool.and_eq_true, decide_eq_true_iff, List.isSuffixOf_iff_suffix]
  refine and_congr_right fun _ => ?_
  constructor
  case mp  => exact fun ⟨l, hl⟩ => ⟨.ofList l, String.toList_inj.mp <| by simp [← hl]⟩
  case mpr => exact fun ⟨name, hn⟩ => ⟨name.toList, by rw [hn, String.toList_append]⟩

-- The item that is found for a name among the entries of a directory which match.
theorem find?_items (dirname name : String) :
    (((fs.scandir dirname).filter isListEntry).map (join dirname)).reverse.find? (stem · = name) =
      if fs.Shows name dirname then some (join dirname <| name ++ ".list") else none := by
  have hstem (e : String) (he : e ∈ fs.scandir dirname) (hl : isListEntry e = true) :
      stem (join dirname e) = name ↔ e = name ++ ".list" := by
    obtain ⟨_, n, rfl⟩ := isListEntry_iff.mp hl
    rw [stem_join (fs.entry dirname _ he) hl]
    refine ⟨congrArg (· ++ ".list"), fun h => ?_⟩
    have h := congrArg String.toList h
    rw [String.toList_append, String.toList_append] at h
    exact String.toList_inj.mp <| List.append_cancel_right h
  cases hf : (((fs.scandir dirname).filter isListEntry).map (join dirname)).reverse.find? (stem · = name)
  case some item =>
    have hs : stem item = name := by simpa using List.find?_some hf
    have ⟨e, he, hi⟩ := List.mem_map.mp <| List.mem_reverse.mp <| List.mem_of_find?_eq_some hf
    have ⟨he, hl⟩ := List.mem_filter.mp he
    obtain rfl := (hstem e he hl).mp <| hi ▸ hs
    rw [if_pos ⟨he, hl⟩, hi]
  case none =>
    rw [if_neg]
    intro ⟨he, hl⟩
    have hm := List.mem_map_of_mem (f := join dirname) <| List.mem_filter.mpr ⟨he, hl⟩
    have := List.find?_eq_none.mp hf _ <| List.mem_reverse.mpr hm
    exact this <| by simpa using (hstem _ he hl).mpr rfl

-- The directories of the search path, and the directories that are listed.
def directories (searchpath : List (Option String)) : List String :=
  searchpath.reduceOption

def listedDirs (fs : FileSystem) (searchpath : List (Option String)) : List String :=
  (directories searchpath).flatMap fs.dirs

-- The search stops at the first directory.
theorem findEventFile_eq_map : findEventFile fs searchpath (name ++ ".list") =
    ((directories searchpath).find? (fs.Has name ·)).map (join · <| name ++ ".list") := by
  induction searchpath
  case nil => rfl
  case cons directory searchpath hi =>
    cases directory
    case none => exact hi
    case some d =>
      rw [findEventFile, directories, List.reduceOption_cons_of_some, List.find?_cons]
      by_cases h : fs.Has name d
      case pos =>
        rw [decide_eq_true h]
        exact if_pos h
      case neg =>
        rw [decide_eq_false h]
        exact (if_neg h).trans hi

-- The dictionary keeps what has been stored last.
theorem getProfiles_eq : getProfiles fs searchpath name =
    ((directories searchpath).flatMap fs.glob).reverse.find? (stem · = name) := by
  have h (dict : String → Option String) : searchpath.foldl (addProfiles fs) dict name =
      (((directories searchpath).flatMap fs.glob).reverse.find? (stem · = name)).or (dict name) := by
    induction searchpath generalizing dict
    case nil => rfl
    case cons directory searchpath hi =>
      cases directory
      case none => exact hi dict
      case some d =>
        rw [List.foldl_cons, hi, addProfiles, foldl_update_apply, directories, directories,
          List.reduceOption_cons_of_some, List.flatMap_cons, List.reverse_append, List.find?_append,
          Option.or_assoc]
  rw [getProfiles, h, Option.or_none]

-- The last one of the directories that are listed determines the item.
theorem getProfiles_eq_map : getProfiles fs searchpath name =
    ((listedDirs fs searchpath).reverse.find? (fs.Shows name ·)).map (join · <| name ++ ".list") := by
  have h (dirs : List String) :
      (dirs.flatMap fun dir =>
          ((fs.scandir dir).filter isListEntry).map (join dir)).reverse.find? (stem · = name) =
        (dirs.reverse.find? (fs.Shows name ·)).map (join · <| name ++ ".list") := by
    induction dirs
    case nil => rfl
    case cons dirname dirs hi =>
      rw [List.flatMap_cons, List.reverse_append, List.find?_append, hi, find?_items, List.reverse_cons,
        List.find?_append, List.find?_singleton]
      cases dirs.reverse.find? (fs.Shows name ·)
      case some => rfl
      case none => by_cases hs : fs.Shows name dirname <;> simp [hs]
  rw [getProfiles_eq, listedDirs, ← h, List.flatMap_assoc]
  rfl

-- A name is listed if and only if a file is found for it, which is the one that it is listed with and the one
-- that is loaded for it.
structure Agree (fs : FileSystem) (searchpath : List (Option String)) (name : String) : Prop where
  listed : (getProfiles fs searchpath name).isSome ↔ (findEventFile fs searchpath (name ++ ".list")).isSome
  file   : ∀ item ∈ getProfiles fs searchpath name, ∀ evfile ∈ findEventFile fs searchpath (name ++ ".list"),
    fs.file item = fs.file evfile ∧
      ∀ loaded ∈ loadEventListFile fs searchpath name, fs.file loaded = fs.file evfile

-- Either the name is in no directory, or the last one in which it is listed has the same file as the first one
-- in which it can be found, and there is no other file that has the name itself.
def Unshadowed (fs : FileSystem) (searchpath : List (Option String)) (name : String) : Prop :=
  (∀ dirname ∈ listedDirs fs searchpath, ¬fs.Shows name dirname) ∧
    (∀ directory ∈ directories searchpath, ¬fs.Has name directory) ∨
  ∃ dirname directory, IsLast (fs.Shows name) (listedDirs fs searchpath) dirname ∧
    IsFirst (fs.Has name) (directories searchpath) directory ∧
    fs.file (join dirname <| name ++ ".list") = fs.file (join directory <| name ++ ".list") ∧
    (fs.exists name = true → fs.file name = fs.file (join directory <| name ++ ".list"))

-- The directories that the two functions take the file from.
theorem getProfiles_eq_some {dirname : String} (h : IsLast (fs.Shows name) (listedDirs fs searchpath) dirname) :
    getProfiles fs searchpath name = some (join dirname <| name ++ ".list") := by
  rw [getProfiles_eq_map, reverse_find?_eq_some_iff_isLast.mpr h]
  rfl

theorem findEventFile_eq_some {directory : String}
    (h : IsFirst (fs.Has name) (directories searchpath) directory) :
    findEventFile fs searchpath (name ++ ".list") = some (join directory <| name ++ ".list") := by
  rw [findEventFile_eq_map, find?_eq_some_iff_isFirst.mpr h]
  rfl

theorem getProfiles_cases (fs : FileSystem) (searchpath : List (Option String)) (name : String) :
    (∀ dirname ∈ listedDirs fs searchpath, ¬fs.Shows name dirname) ∧ getProfiles fs searchpath name = none ∨
    ∃ dirname, IsLast (fs.Shows name) (listedDirs fs searchpath) dirname := by
  cases h : (listedDirs fs searchpath).reverse.find? (fs.Shows name ·)
  case some dirname => exact .inr ⟨dirname, reverse_find?_eq_some_iff_isLast.mp h⟩
  case none =>
    refine .inl ⟨fun d hd => find?_eq_none_iff_forall.mp h d <| List.mem_reverse.mpr hd, ?_⟩
    rw [getProfiles_eq_map, h]
    rfl

theorem findEventFile_cases (fs : FileSystem) (searchpath : List (Option String)) (name : String) :
    (∀ directory ∈ directories searchpath, ¬fs.Has name directory) ∧
      findEventFile fs searchpath (name ++ ".list") = none ∨
    ∃ directory, IsFirst (fs.Has name) (directories searchpath) directory := by
  cases h : (directories searchpath).find? (fs.Has name ·)
  case some directory => exact .inr ⟨directory, find?_eq_some_iff_isFirst.mp h⟩
  case none =>
    refine .inl ⟨find?_eq_none_iff_forall.mp h, ?_⟩
    rw [findEventFile_eq_map, h]
    rfl

theorem agree_of_unshadowed (h : Unshadowed fs searchpath name) : Agree fs searchpath name := by
  obtain ⟨hs, hh⟩ | ⟨dirname, directory, hl, hf, hfile, hname⟩ := h
  case inl =>
    have hg : getProfiles fs searchpath name = none := by
      obtain hg | ⟨d, l₁, l₂, hl, hd, _⟩ := getProfiles_cases fs searchpath name
      case inl => exact hg.right
      case inr => exact absurd hd <| hs d <| by simp [hl]
    have he : findEventFile fs searchpath (name ++ ".list") = none := by
      obtain he | ⟨d, l₁, l₂, hl, hd, _⟩ := findEventFile_cases fs searchpath name
      case inl => exact he.right
      case inr => exact absurd hd <| hh d <| by simp [hl]
    exact ⟨by rw [hg, he], by simp [hg]⟩
  case inr =>
    have hg := getProfiles_eq_some hl
    have he := findEventFile_eq_some hf
    refine ⟨by simp [hg, he], fun item hi evfile hev => ?_⟩
    obtain rfl := Option.some.inj <| hg.symm.trans hi
    obtain rfl := Option.some.inj <| he.symm.trans hev
    refine ⟨hfile, fun loaded hld => ?_⟩
    rw [loadEventListFile] at hld
    split at hld
    case isTrue hx  => exact Option.some.inj hld ▸ hname hx
    case isFalse hx =>
      obtain rfl := Option.some.inj <| he.symm.trans hld
      rfl

theorem unshadowed_of_agree (h : Agree fs searchpath name) : Unshadowed fs searchpath name := by
  obtain ⟨hs, hg⟩ | ⟨dirname, hl⟩ := getProfiles_cases fs searchpath name
  all_goals obtain ⟨hh, he⟩ | ⟨directory, hf⟩ := findEventFile_cases fs searchpath name
  case inl.inl => exact .inl ⟨hs, hh⟩
  case inl.inr =>
    have := h.listed
    rw [hg, findEventFile_eq_some hf] at this
    simp at this
  case inr.inl =>
    have := h.listed
    rw [he, getProfiles_eq_some hl] at this
    simp at this
  case inr.inr =>
    have ⟨hfile, hld⟩ := h.file _ (getProfiles_eq_some hl) _ (findEventFile_eq_some hf)
    exact .inr ⟨dirname, directory, hl, hf, hfile, fun hx => hld name <| if_pos hx⟩

-- The two functions agree about a name if and only if the first directory of the search path that has it is not
-- shadowed by a later one.
theorem agree_iff_unshadowed : Agree fs searchpath name ↔ Unshadowed fs searchpath name :=
  ⟨unshadowed_of_agree, agree_of_unshadowed⟩

-- Two directories that have a profile of the same name.
def twoDirs : FileSystem where
  file path    := if path = "a/x.list" then some 0 else if path = "b/x.list" then some 1 else none
  scandir dir  := if dir = "a" ∨ dir = "b" then ["x.list"] else []
  globDirs _   := []
  entry dir e he := by
    split at he
    case isTrue  => exact List.mem_singleton.mp he ▸ by decide
    case isFalse => cases he

theorem not_agree : ¬∀ fs searchpath name, Agree fs searchpath name := by
  intro h
  have hg : getProfiles twoDirs [some "a", none, some "b"] "x" = some "b/x.list" := by decide
  have he : findEventFile twoDirs [some "a", none, some "b"] ("x" ++ ".list") = some "a/x.list" := by decide
  have ⟨hf, _⟩ := (h twoDirs [some "a", none, some "b"] "x").file _ hg _ he
  exact absurd hf (by decide)

end WorkloadKit.LttngSimple
