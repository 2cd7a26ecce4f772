import Mathlib.Algebra.Group.Nat.Defs
import Mathlib.Algebra.Order.Group.Int
import Mathlib.Data.Int.Notation
import Mathlib.Data.List.TakeWhile
import Mathlib.Tactic.Common

namespace WorkloadKit.CString

def isspace (c : Char) : Bool :=
  c.toNat == 32 || (9 ≤ c.toNat && c.toNat ≤ 13)

def LONG_MAX : ℤ := 2 ^ 63 - 1
def LONG_MIN : ℤ := -2 ^ 63

-- The value of a sequence of decimal digits.
def decimal (digits : List Char) : ℕ :=
  digits.foldl (fun n c => 10 * n + (c.toNat - '0'.toNat)) 0

-- The sign of a number, and what comes after it.
def sign : List Char → ℤ × List Char
  | '-' :: str => (-1, str)
  | '+' :: str => (1, str)
  | str        => (1, str)

-- The number in base 10 at the beginning of a string, and what comes after it.
def strtol (str : List Char) : ℤ × List Char :=
  let (sgn, rest) := sign <| str.dropWhile isspace
  let digits := rest.takeWhile Char.isDigit
  if digits = [] then
    (0, str)
  else
    (max LONG_MIN <| min LONG_MAX <| sgn * decimal digits, rest.dropWhile Char.isDigit)

-- The conversion of a `long` to an `int`.
def toInt (x : ℤ) : ℤ :=
  x.bmod (2 ^ 32)

def atol (str : List Char) : ℤ :=
  (strtol str).fst

def atoi (str : List Char) : ℤ :=
  toInt (strtol str).fst

-- The tokens that repeated calls of `strtok` return.
def strtok (sep : Char) (str : List Char) : List (List Char) :=
  (str.splitOn sep).filter (· ≠ [])

-- The tokens if any of several characters ends a token.
def strtokAny (delims str : List Char) : List (List Char) :=
  (str.splitOnP (· ∈ delims)).filter (· ≠ [])

-- What `%d` stands for in the format of `printf`.
def printd (x : ℤ) : List Char :=
  if x < 0 then '-' :: Nat.toDigits 10 x.natAbs else Nat.toDigits 10 x.natAbs

-- Whether a string contains another one.
def strstr (str sub : List Char) : Bool :=
  match str with
  | []       => sub.isEmpty
  | c :: str => sub.isPrefixOf (c :: str) || strstr str sub

variable {str delims delims₁ delims₂ : List Char} {c : Char} {toks : List (List Char)}

theorem isspace_of_isDigit (h : c.isDigit = true) : isspace c = false := by
  simp only [Char.isDigit, Bool.and_eq_true, decide_eq_true_eq, ge_iff_le, UInt32.le_iff_toNat_le] at h
  simp only [isspace, Bool.or_eq_false_iff, Bool.and_eq_false_iff, beq_eq_false_iff_ne,
    decide_eq_false_iff_not, Char.toNat]
  have : '0'.val.toNat = 48 := rfl
  omega

-- Neither blanks nor a sign are skipped in front of a digit.
theorem sign_dropWhile_of_isDigit (hn : str ≠ []) (hd : ∀ c ∈ str, c.isDigit = true) :
    sign (str.dropWhile isspace) = (1, str) := by
  obtain ⟨c, cs, rfl⟩ := List.exists_cons_of_ne_nil hn
  have hc := hd c List.mem_cons_self
  rw [List.dropWhile_cons_of_neg <| by simp [isspace_of_isDigit hc], sign]
  · rintro _ h
    obtain ⟨rfl, _⟩ := List.cons.inj h
    contradiction
  · rintro _ h
    obtain ⟨rfl, _⟩ := List.cons.inj h
    contradiction

-- A plain decimal number is converted as a whole.
theorem strtol_of_isDigit (hn : str ≠ []) (hd : ∀ c ∈ str, c.isDigit = true)
    (hl : (decimal str : ℤ) ≤ LONG_MAX) : strtol str = ((decimal str : ℤ), []) := by
  simp only [strtol, sign_dropWhile_of_isDigit hn hd, List.takeWhile_eq_self_iff.mpr hd,
    List.dropWhile_eq_nil_iff.mpr hd, if_neg hn, Int.one_mul, Prod.mk.injEq, and_true]
  rw [min_eq_right hl, max_eq_right]
  exact le_trans (by decide) <| Int.natCast_nonneg _

-- The nearest `long`.
def saturate (x : ℤ) : ℤ :=
  max LONG_MIN <| min LONG_MAX x

-- The integer that a string denotes, if it consists of digits after blanks and a sign.
def numeral (str : List Char) : Option ℤ :=
  let (sgn, digits) := sign <| str.dropWhile isspace
  if digits ≠ [] ∧ digits.all Char.isDigit then some (sgn * decimal digits) else none

-- A string that denotes an integer is converted as a whole.
theorem strtol_of_numeral {v : ℤ} (h : numeral str = some v) : strtol str = (saturate v, []) := by
  simp only [numeral, Option.ite_none_right_eq_some, Option.some.injEq, List.all_eq_true] at h
  obtain ⟨⟨hn, hd⟩, rfl⟩ := h
  simp only [strtol, List.takeWhile_eq_self_iff.mpr hd, List.dropWhile_eq_nil_iff.mpr hd, if_neg hn, saturate]

-- Something is left of any other string.
theorem strtol_of_not_numeral (hs : str ≠ []) (h : numeral str = none) : (strtol str).snd ≠ [] := by
  simp only [numeral, ite_eq_right_iff, reduceCtorEq, imp_false, not_and, List.all_eq_true] at h
  simp only [strtol]
  split
  case isTrue => exact hs
  case isFalse hn =>
    intro hd
    have hd := List.dropWhile_eq_nil_iff.mp hd
    rw [List.takeWhile_eq_self_iff.mpr hd] at hn
    exact h hn hd

theorem toInt_saturate {v : ℤ} (hl : 0 ≤ v) (hu : v < 2 ^ 31) : toInt (saturate v) = v := by
  have hs : saturate v = v := by
    rw [saturate, LONG_MIN, LONG_MAX]
    omega
  rw [hs]
  exact Int.bmod_eq_of_le (by omega) (by omega)

theorem strtok_eq_strtokAny : strtok c str = strtokAny [c] str := by
  simp only [strtok, strtokAny, List.splitOn_eq_splitOnP, List.mem_singleton]
  rfl

-- Only the delimiters that occur in a string matter.
theorem strtokAny_congr (h : ∀ c ∈ str, c ∈ delims₁ ↔ c ∈ delims₂) :
    strtokAny delims₁ str = strtokAny delims₂ str := by
  suffices hs : str.splitOnP (· ∈ delims₁) = str.splitOnP (· ∈ delims₂) by
    rw [strtokAny, hs, strtokAny]
  induction str
  case nil => rfl
  case cons c str hi =>
    have ⟨hc, h⟩ := List.forall_mem_cons.mp h
    simp only [List.splitOnP_cons_eq_if_modifyHead, hi h, hc]

-- There is no token if and only if there are only delimiters.
theorem strtokAny_eq_nil_iff : strtokAny delims str = [] ↔ ∀ c ∈ str, c ∈ delims := by
  induction str
  case nil => simp [strtokAny]
  case cons c str hi =>
    rw [List.forall_mem_cons, ←hi, strtokAny, strtokAny, List.splitOnP_cons_eq_if_modifyHead]
    by_cases hc : c ∈ delims
    case pos => simp [hc]
    case neg =>
      have ⟨tok, toks, ht⟩ := List.exists_cons_of_ne_nil <| List.splitOnP_ne_nil (· ∈ delims) str
      simp [hc, ht]

-- The tokens of what has been joined are the parts that it has been joined from.
theorem strtok_intercalate (h : toks ≠ []) (hn : ∀ tok ∈ toks, tok ≠ []) (hc : ∀ tok ∈ toks, c ∉ tok) :
    strtok c ([c].intercalate toks) = toks := by
  rw [strtok, List.splitOn_intercalate c hc h, List.filter_eq_self]
  exact fun tok ht => decide_eq_true <| hn tok ht

-- Each of the parts may also be ended by the separator.
theorem strtok_flatMap (hn : ∀ tok ∈ toks, tok ≠ []) (hc : ∀ tok ∈ toks, c ∉ tok) :
    strtok c (toks.flatMap (· ++ [c])) = toks := by
  induction toks
  case nil => simp [strtok]
  case cons tok toks hi =>
    obtain ⟨hn, hns⟩ := List.forall_mem_cons.mp hn
    obtain ⟨hc, hcs⟩ := List.forall_mem_cons.mp hc
    rw [List.flatMap_cons, List.append_assoc, List.singleton_append, strtok,
      List.splitOn_append_cons_self_of_not_mem hc, List.filter_cons_of_pos (by simpa using hn)]
    exact congrArg _ <| hi hns hcs

theorem decimal_toDigits (n : ℕ) : decimal (Nat.toDigits 10 n) = n := by
  have hd : decimal (Nat.toDigits 10 n) = Nat.ofDigitChars 10 (Nat.toDigits 10 n) 0 := by
    rw [Nat.ofDigitChars_eq_foldl]
    rfl
  rw [hd, Nat.ofDigitChars_ten_toDigits]

theorem isDigit_of_mem_toDigits {n : ℕ} : ∀ c ∈ Nat.toDigits 10 n, c.isDigit = true :=
  fun _ => Nat.isDigit_of_mem_toDigits (by decide) (by decide)

-- What is printed for an integer denotes this integer.
theorem numeral_printd (x : ℤ) : numeral (printd x) = some x := by
  have hn : Nat.toDigits 10 x.natAbs ≠ [] := Nat.toDigits_ne_nil
  have hd : (Nat.toDigits 10 x.natAbs).all Char.isDigit = true := List.all_eq_true.mpr isDigit_of_mem_toDigits
  rw [printd]
  split
  case isTrue hx =>
    have hs : sign (('-' :: Nat.toDigits 10 x.natAbs).dropWhile isspace) = (-1, Nat.toDigits 10 x.natAbs) := rfl
    simp only [numeral, hs, decimal_toDigits]
    rw [if_pos ⟨hn, hd⟩, Option.some.injEq]
    omega
  case isFalse hx =>
    simp only [numeral, sign_dropWhile_of_isDigit hn isDigit_of_mem_toDigits, decimal_toDigits]
    rw [if_pos ⟨hn, hd⟩, Option.some.injEq]
    omega

theorem printd_ne_nil (x : ℤ) : printd x ≠ [] := by
  rw [printd]
  split
  · exact List.cons_ne_nil _ _
  · exact Nat.toDigits_ne_nil

theorem not_mem_printd {x : ℤ} (hd : c.isDigit = false) (hm : c ≠ '-') : c ∉ printd x := by
  have h : c ∉ Nat.toDigits 10 x.natAbs := fun h => by simp [isDigit_of_mem_toDigits c h] at hd
  rw [printd]
  split
  · exact List.not_mem_cons_of_ne_of_not_mem hm h
  · exact h

end WorkloadKit.CString
