import Mathlib.Data.List.Basic
import Mathlib.Data.Nat.Basic

/-!
# Lists in one array

Lists are stored one behind the other; the begin of a list is the length of those in front of it.
-/

namespace Packed

variable {α : Type*}

def offset (parts : List (List α)) (i : Nat) : Nat := (parts.take i).flatten.length

theorem offset_length (parts : List (List α)) :
    offset parts parts.length = parts.flatten.length := by
  rw [offset, List.take_length]

variable {parts : List (List α)} {part : List α}

theorem offset_succ {i : Nat} (h : parts[i]? = some part) :
    offset parts (i + 1) = offset parts i + part.length := by
  rw [offset, List.take_add_one, h, offset, List.flatten_append, List.length_append]
  simp

theorem offset_append {i : Nat} (h : i ≤ parts.length) (more : List (List α)) :
    offset (parts ++ more) i = offset parts i := by
  rw [offset, List.take_append_of_le_length h, offset]

theorem offset_le (parts : List (List α)) (i : Nat) : offset parts i ≤ parts.flatten.length := by
  conv_rhs => rw [← List.take_append_drop i parts, List.flatten_append, List.length_append]
  exact Nat.le_add_right _ _

theorem drop_take_flatten {i : Nat} (h : parts[i]? = some part) (rest : List α) :
    ((parts.flatten ++ rest).drop (offset parts i)).take part.length = part := by
  have hflatten : parts.flatten =
      (parts.take i).flatten ++ (part ++ (parts.drop (i + 1)).flatten) := by
    obtain ⟨hi, rfl⟩ := List.getElem?_eq_some_iff.mp h
    rw [← List.flatten_cons, List.getElem_cons_drop, ← List.flatten_append, List.take_append_drop]
  rw [hflatten, List.append_assoc, List.append_assoc, offset, List.drop_left, List.take_left]

theorem offset_take {i k : Nat} (h : i ≤ k) : offset (parts.take k) i = offset parts i := by
  rw [offset, List.take_take, Nat.min_eq_left h, offset]

theorem offset_mono (parts : List (List α)) {i j : Nat} (h : i ≤ j) :
    offset parts i ≤ offset parts j := by
  rw [← offset_take h]
  exact offset_le (parts.take j) i

end Packed
