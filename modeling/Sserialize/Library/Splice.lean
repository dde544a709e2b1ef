import Mathlib.Data.List.Basic

/-!
# Overwriting a range of a list

The elements from a position on are replaced by those of another list. Behind the end of the list
the replacement is appended.
-/

namespace Sserialize.Splice

variable {α : Type*}

def splice (l : List α) (pos : Nat) (src : List α) : List α :=
  l.take pos ++ src ++ l.drop (pos + src.length)

variable {l src : List α} {pos : Nat}

@[simp] theorem splice_nil (l : List α) (pos : Nat) : splice l pos [] = l := by
  rw [splice, List.append_nil, List.length_nil, Nat.add_zero, List.take_append_drop]

theorem length_le_length_splice (l : List α) (pos : Nat) (src : List α) :
    l.length ≤ (splice l pos src).length := by
  rw [splice, List.length_append, List.length_append, List.length_take, List.length_drop]
  omega

theorem length_splice (h : pos ≤ l.length) :
    (splice l pos src).length = max l.length (pos + src.length) := by
  rw [splice, List.length_append, List.length_append, List.length_take, List.length_drop]
  omega

theorem getElem?_splice (h : pos ≤ l.length) (i : Nat) :
    (splice l pos src)[i]? =
      if pos ≤ i ∧ i < pos + src.length then src[i - pos]? else l[i]? := by
  have htake : (l.take pos).length = pos := List.length_take_of_le h
  rw [splice, List.append_assoc, List.getElem?_append, htake]
  split
  next hlt => rw [if_neg (by omega), List.getElem?_take_of_lt hlt]
  next hge =>
    rw [List.getElem?_append]
    split
    next hin => rw [if_pos (by omega)]
    next hout =>
      rw [if_neg (by omega), List.getElem?_drop]
      congr 1
      omega

theorem splice_splice (h : pos ≤ l.length) (src' : List α) :
    splice (splice l pos src) (pos + src.length) src' = splice l pos (src ++ src') := by
  have hfront : (l.take pos ++ src).length = pos + src.length := by
    rw [List.length_append, List.length_take_of_le h]
  rw [splice, splice, splice, ← hfront, List.take_left, List.drop_append, List.drop_drop, hfront,
    List.drop_eq_nil_of_le (by omega), List.nil_append]
  simp only [List.append_assoc, List.length_append]
  congr 4
  omega

theorem splice_append_of_le (h : pos ≤ l.length) {room : List α}
    (hroom : l.length + room.length ≤ max l.length (pos + src.length)) :
    splice (l ++ room) pos src = splice l pos src := by
  rw [splice, splice, List.take_append_of_le_length h]
  by_cases hinside : pos + src.length ≤ l.length
  · rw [List.eq_nil_of_length_eq_zero (l := room) (by omega), List.append_nil]
  · rw [List.drop_eq_nil_of_le (by rw [List.length_append]; omega),
      List.drop_eq_nil_of_le (by omega)]

end Sserialize.Splice
