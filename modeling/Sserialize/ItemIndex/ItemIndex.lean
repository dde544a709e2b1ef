import Mathlib.Data.List.Sort
import Sserialize.Library.Ascending
import Sserialize.Library.SortedMerge

/-! # Lists of item ids -/

namespace Sserialize

/-- A strictly ascending list of `uint32_t` ids, the input of every index encoder. -/
structure IdList where
  ids : List Nat
  ascending : ids.Pairwise (· < ·)
  inRange : ∀ id ∈ ids, id < 2 ^ 32

namespace IdList

variable (l : IdList)

theorem from_zero : Ascending.From 0 l.ids :=
  ⟨l.ascending, fun _ _ => Nat.zero_le _⟩

theorem getLastD_lt : l.ids.getLastD 0 < 2 ^ 32 := by
  by_cases hnil : l.ids = []
  · simp [hnil]
  · rw [List.getLastD_eq_getLast?, List.getLast?_eq_some_getLast hnil]
    exact l.inRange _ (List.getLast_mem hnil)

theorem sum_deltas_lt : (Ascending.deltas 0 l.ids).sum < 2 ^ 32 := by
  have hsum := Ascending.sum_deltas l.from_zero
  have hlast := l.getLastD_lt
  omega

theorem length_le : l.ids.length ≤ 2 ^ 32 := by
  have h := Ascending.length_le_of_from l.from_zero l.inRange
  omega

def firstIds (n : Nat) (h : n ≤ 2 ^ 32) : IdList where
  ids := List.range n
  ascending := List.pairwise_lt_range
  inRange := fun _ hid => Nat.lt_of_lt_of_le (List.mem_range.mp hid) h

theorem length_firstIds (n : Nat) (h : n ≤ 2 ^ 32) : (firstIds n h).ids.length = n := by
  rw [firstIds, List.length_range]

end IdList

end Sserialize

/-! ## The set operations of an item index -/

namespace Sserialize

/-- The members that `genericOp` reads of `IntersectOp`, `UniteOp`, `DifferenceOp` and
`SymmetricDifferenceOp`. -/
structure TFunc where
  pushFirstSmaller : Bool
  pushEqual : Bool
  pushSecondSmaller : Bool
  pushFirstRemainder : Bool
  pushSecondRemainder : Bool
  deriving Repr, DecidableEq

inductive SetOp where
  | intersect
  | unite
  | difference
  | symmetricDifference
  deriving Repr, DecidableEq

namespace SetOp

def func : SetOp → TFunc
  | intersect => {
      pushFirstSmaller := false
      pushEqual := true
      pushSecondSmaller := false
      pushFirstRemainder := false
      pushSecondRemainder := false }
  | unite => {
      pushFirstSmaller := true
      pushEqual := true
      pushSecondSmaller := true
      pushFirstRemainder := true
      pushSecondRemainder := true }
  | difference => {
      pushFirstSmaller := true
      pushEqual := false
      pushSecondSmaller := false
      pushFirstRemainder := true
      pushSecondRemainder := false }
  | symmetricDifference => {
      pushFirstSmaller := true
      pushEqual := false
      pushSecondSmaller := true
      pushFirstRemainder := true
      pushSecondRemainder := true }

def Holds : SetOp → Prop → Prop → Prop
  | intersect, a, b => a ∧ b
  | unite, a, b => a ∨ b
  | difference, a, b => a ∧ ¬ b
  | symmetricDifference, a, b => (a ∧ ¬ b) ∨ (b ∧ ¬ a)

variable (op : SetOp)

theorem or_of_holds {a b : Prop} (h : op.Holds a b) : a ∨ b := by
  cases op with
  | intersect => exact .inl h.1
  | unite => exact h
  | difference => exact .inl h.1
  | symmetricDifference => exact h.imp And.left And.left

theorem holds_and {a b c : Prop} : op.Holds (a ∧ c) (b ∧ c) ↔ op.Holds a b ∧ c := by
  cases op <;> simp only [Holds] <;> tauto

theorem holds_congr {a a' b b' : Prop} (ha : a ↔ a') (hb : b ↔ b') :
    op.Holds a b ↔ op.Holds a' b' := by
  rw [propext ha, propext hb]

def apply (op : SetOp) (xs ys : List Nat) : List Nat :=
  SortedMerge.merge op.func.pushFirstSmaller op.func.pushEqual op.func.pushSecondSmaller xs ys

theorem kept_iff (a b : Prop) :
    SortedMerge.Kept op.func.pushFirstSmaller op.func.pushEqual op.func.pushSecondSmaller a b ↔
      op.Holds a b := by
  cases op with
  | intersect | difference => simp [SortedMerge.Kept, func, Holds]
  | unite | symmetricDifference =>
    simp only [SortedMerge.Kept, func, Holds]
    tauto

theorem mem_apply {xs ys : List Nat} (hx : xs.Pairwise (· < ·)) (hy : ys.Pairwise (· < ·))
    (id : Nat) : id ∈ op.apply xs ys ↔ op.Holds (id ∈ xs) (id ∈ ys) := by
  rw [apply, SortedMerge.mem_merge hx hy, kept_iff]

theorem pairwise_apply {xs ys : List Nat} (hx : xs.Pairwise (· < ·)) (hy : ys.Pairwise (· < ·)) :
    (op.apply xs ys).Pairwise (· < ·) :=
  SortedMerge.pairwise_merge hx hy

theorem remainder_eq : op.func.pushFirstRemainder = op.func.pushFirstSmaller ∧
    op.func.pushSecondRemainder = op.func.pushSecondSmaller := by
  cases op <;> exact ⟨rfl, rfl⟩

end SetOp

end Sserialize

/-!
## `ItemIndex`

An item index of any type as the ids that it stores, its operators, and the store of indices.
-/

namespace Sserialize

@[ext] theorem IdList.ext {a b : IdList} (h : a.ids = b.ids) : a = b := by
  cases a
  cases b
  cases h
  rfl

deriving instance DecidableEq for IdList

abbrev ItemIndex := IdList

namespace ItemIndex

def empty : ItemIndex where
  ids := []
  ascending := List.Pairwise.nil
  inRange := by simp

def size (i : ItemIndex) : Nat := i.ids.length

def apply (op : SetOp) (i j : ItemIndex) : ItemIndex where
  ids := op.apply i.ids j.ids
  ascending := op.pairwise_apply i.ascending j.ascending
  inRange := by
    intro id hid
    have hmem : id ∈ i.ids ∨ id ∈ j.ids := SortedMerge.mem_of_mem_merge hid
    exact hmem.elim (i.inRange id) (j.inRange id)

theorem mem_apply (op : SetOp) (i j : ItemIndex) (id : Nat) :
    id ∈ (apply op i j).ids ↔ op.Holds (id ∈ i.ids) (id ∈ j.ids) :=
  op.mem_apply i.ascending j.ascending id

theorem size_eq_zero {i : ItemIndex} : i.size = 0 ↔ i.ids = [] := List.length_eq_zero_iff

theorem ext_mem {i j : ItemIndex} (h : ∀ id, id ∈ i.ids ↔ id ∈ j.ids) : i = j :=
  IdList.ext (i.ascending.eq_of_mem_iff j.ascending h)

end ItemIndex

structure ItemIndexStore where
  indices : List ItemIndex
  deriving DecidableEq

namespace ItemIndexStore

def size (s : ItemIndexStore) : Nat := s.indices.length

def «at» (s : ItemIndexStore) (pos : Nat) : ItemIndex := s.indices.getD pos ItemIndex.empty

end ItemIndexStore

end Sserialize
