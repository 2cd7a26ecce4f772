import Mathlib.Data.List.Range
import Mathlib.Tactic.Common

namespace WorkloadKit

variable {α : Type*}

-- The part of a stream of values that begins at a position and has a given length.
def segment (stream : ℕ → α) (pos n : ℕ) : List α :=
  (List.range' pos n).map stream

-- Writes some values into a buffer at an offset.
def splice (buf : List α) (pos : ℕ) (vals : List α) : List α :=
  buf.take pos ++ vals ++ buf.drop (pos + vals.length)

variable {stream : ℕ → α} {pos m n : ℕ} {buf vals : List α}

@[simp]
theorem segment_length : (segment stream pos n).length = n := by
  simp [segment]

@[simp]
theorem segment_zero : segment stream pos 0 = [] :=
  rfl

theorem segment_append :
    segment stream pos m ++ segment stream (pos + m) n = segment stream pos (m + n) := by
  simp [segment, ←List.map_append]

theorem segment_take (h : m ≤ n) : (segment stream pos n).take m = segment stream pos m := by
  obtain ⟨k, rfl⟩ := Nat.exists_eq_add_of_le h
  rw [←segment_append, List.take_left' segment_length]

theorem segment_drop (h : m ≤ n) :
    (segment stream pos n).drop m = segment stream (pos + m) (n - m) := by
  obtain ⟨k, rfl⟩ := Nat.exists_eq_add_of_le h
  rw [←segment_append, List.drop_left' segment_length, Nat.add_sub_cancel_left]

theorem segment_append_of_le {pos' : ℕ} (h : pos ≤ pos') :
    segment stream pos (pos' - pos) ++ segment stream pos' n = segment stream pos (pos' + n - pos) := by
  obtain ⟨k, rfl⟩ := Nat.exists_eq_add_of_le h
  rw [Nat.add_sub_cancel_left, segment_append, Nat.add_assoc, Nat.add_sub_cancel_left]

theorem segment_const {a : α} (h : ∀ i < n, stream (pos + i) = a) :
    segment stream pos n = List.replicate n a := by
  refine List.ext_getElem (by simp) fun i hi _ => ?_
  simpa [segment] using h i <| by simpa using hi

theorem splice_length (h : pos + vals.length ≤ buf.length) : (splice buf pos vals).length = buf.length := by
  simp [splice]
  omega

-- Writing one value after the other.
theorem splice_set {a : α} (h : pos < buf.length) :
    splice (buf.set pos a) (pos + 1) vals = splice buf pos (a :: vals) := by
  have ht : (buf.set pos a).take (pos + 1) = buf.take pos ++ [a] := by
    rw [List.take_add_one, List.take_set_of_le le_rfl, List.getElem?_set_self h, Option.toList_some]
  have hd : (buf.set pos a).drop (pos + 1 + vals.length) = buf.drop (pos + (a :: vals).length) := by
    rw [List.drop_set_of_lt (by omega), List.length_cons]
    congr 1
    omega
  rw [splice, splice, ht, hd]
  simp

-- What has been written so far remains, and the new values follow it.
theorem splice_take (vals : List α) (h : pos ≤ buf.length) :
    (splice buf pos vals).take (pos + vals.length) = buf.take pos ++ vals := by
  rw [splice, List.take_left']
  simp [h]

end WorkloadKit
