import Mathlib.Order.Lattice
import Mathlib.Data.List.Basic

/-!
# Merging strictly ascending lists

One merge for all set operations: the flags say which elements are kept, those of the first list
only, those of both lists, and those of the second list only.
-/

namespace SortedMerge

variable {α : Type*}

def keep (flag : Bool) (l : List α) : List α := if flag then l else []

@[simp] theorem keep_nil (flag : Bool) : keep flag ([] : List α) = [] := by
  cases flag <;> rfl

theorem keep_append (flag : Bool) (l m : List α) :
    keep flag (l ++ m) = keep flag l ++ keep flag m := by
  cases flag <;> rfl

theorem mem_keep {flag : Bool} {l : List α} {x : α} :
    x ∈ keep flag l ↔ x ∈ l ∧ flag = true := by
  cases flag <;> simp [keep]

theorem length_keep_le (flag : Bool) (l : List α) : (keep flag l).length ≤ l.length := by
  cases flag
  · exact Nat.zero_le _
  · exact Nat.le_refl _

variable [LinearOrder α] (first both second : Bool)

def merge : List α → List α → List α
  | [], ys => keep second ys
  | x :: xs, [] => keep first (x :: xs)
  | x :: xs, y :: ys =>
    if x < y then keep first [x] ++ merge xs (y :: ys)
    else if y < x then keep second [y] ++ merge (x :: xs) ys
    else keep both [x] ++ merge xs ys
termination_by xs ys => xs.length + ys.length

@[simp] theorem merge_nil_left (ys : List α) : merge first both second [] ys = keep second ys := by
  rw [merge]

@[simp] theorem merge_nil_right (xs : List α) : merge first both second xs [] = keep first xs := by
  cases xs with
  | nil => rw [merge, keep_nil, keep_nil]
  | cons x xs => rw [merge]

variable {xs ys : List α}

theorem merge_append_left {cs : List α} {y : α} (h : ∀ c ∈ cs, c < y) :
    merge first both second (cs ++ xs) (y :: ys) =
      keep first cs ++ merge first both second xs (y :: ys) := by
  induction cs with
  | nil => simp
  | cons c cs ih =>
    have hc : c < y := h c (by simp)
    have hrec := ih fun d hd => h d (List.mem_cons_of_mem _ hd)
    rw [List.cons_append, merge, if_pos hc, hrec, ← List.append_assoc, ← keep_append]
    rfl

theorem merge_append_right {cs : List α} {x : α} (h : ∀ c ∈ cs, c < x) :
    merge first both second (x :: xs) (cs ++ ys) =
      keep second cs ++ merge first both second (x :: xs) ys := by
  induction cs with
  | nil => simp
  | cons c cs ih =>
    have hc : c < x := h c (by simp)
    have hrec := ih fun d hd => h d (List.mem_cons_of_mem _ hd)
    rw [List.cons_append, merge, if_neg (not_lt_of_gt hc), if_pos hc, hrec, ← List.append_assoc,
      ← keep_append]
    rfl

theorem merge_append_both (cs xs ys : List α) :
    merge first both second (cs ++ xs) (cs ++ ys) =
      keep both cs ++ merge first both second xs ys := by
  induction cs with
  | nil => simp
  | cons c cs ih =>
    rw [List.cons_append, List.cons_append, merge, if_neg (lt_irrefl c), if_neg (lt_irrefl c), ih,
      ← List.append_assoc, ← keep_append]
    rfl

variable {first both second}

theorem mem_of_mem_merge {z : α} (h : z ∈ merge first both second xs ys) : z ∈ xs ∨ z ∈ ys := by
  induction xs, ys using merge.induct with
  | case1 ys =>
    rw [merge_nil_left, mem_keep] at h
    exact .inr h.1
  | case2 x xs =>
    rw [merge_nil_right, mem_keep] at h
    exact .inl h.1
  | case3 x xs y ys hlt ih =>
    rw [merge, if_pos hlt, List.mem_append, mem_keep, List.mem_singleton] at h
    rcases h with ⟨rfl, -⟩ | h
    · exact .inl (by simp)
    · exact (ih h).imp_left (List.mem_cons_of_mem x)
  | case4 x xs y ys hnlt hlt ih =>
    rw [merge, if_neg hnlt, if_pos hlt, List.mem_append, mem_keep, List.mem_singleton] at h
    rcases h with ⟨rfl, -⟩ | h
    · exact .inr (by simp)
    · exact (ih h).imp_right (List.mem_cons_of_mem y)
  | case5 x xs y ys hnlt hnlt' ih =>
    rw [merge, if_neg hnlt, if_neg hnlt', List.mem_append, mem_keep, List.mem_singleton] at h
    rcases h with ⟨rfl, -⟩ | h
    · exact .inl (by simp)
    · exact (ih h).imp (List.mem_cons_of_mem x) (List.mem_cons_of_mem y)

theorem length_merge_le (xs ys : List α) :
    (merge first both second xs ys).length ≤ xs.length + ys.length := by
  induction xs, ys using merge.induct with
  | case1 ys =>
    rw [merge_nil_left, List.length_nil, Nat.zero_add]
    exact length_keep_le second ys
  | case2 x xs =>
    rw [merge_nil_right]
    exact length_keep_le first (x :: xs)
  | case3 x xs y ys hlt ih =>
    have hkeep := length_keep_le first [x]
    rw [merge, if_pos hlt, List.length_append]
    simp only [List.length_cons, List.length_nil] at hkeep ih ⊢
    omega
  | case4 x xs y ys hnlt hlt ih =>
    have hkeep := length_keep_le second [y]
    rw [merge, if_neg hnlt, if_pos hlt, List.length_append]
    simp only [List.length_cons, List.length_nil] at hkeep ih ⊢
    omega
  | case5 x xs y ys hnlt hnlt' ih =>
    have hkeep := length_keep_le both [x]
    rw [merge, if_neg hnlt, if_neg hnlt', List.length_append]
    simp only [List.length_cons, List.length_nil] at hkeep ih ⊢
    omega

theorem pairwise_keep {flag : Bool} {l : List α} (h : l.Pairwise (· < ·)) :
    (keep flag l).Pairwise (· < ·) := by
  cases flag
  · exact List.Pairwise.nil
  · exact h

theorem pairwise_keep_append {flag : Bool} {x : α} {l : List α} (h : l.Pairwise (· < ·))
    (hx : ∀ y ∈ l, x < y) : (keep flag [x] ++ l).Pairwise (· < ·) := by
  cases flag
  · exact h
  · exact List.pairwise_cons.mpr ⟨hx, h⟩

theorem pairwise_merge (hx : xs.Pairwise (· < ·)) (hy : ys.Pairwise (· < ·)) :
    (merge first both second xs ys).Pairwise (· < ·) := by
  induction xs, ys using merge.induct with
  | case1 ys =>
    rw [merge_nil_left]
    exact pairwise_keep hy
  | case2 x xs =>
    rw [merge_nil_right]
    exact pairwise_keep hx
  | case3 x xs y ys hlt ih =>
    rw [merge, if_pos hlt]
    rw [List.pairwise_cons] at hx
    refine pairwise_keep_append (ih hx.2 hy) ?_
    intro z hz
    rcases mem_of_mem_merge hz with hz | hz
    · exact hx.1 z hz
    · rcases List.mem_cons.mp hz with rfl | hz
      · exact hlt
      · exact lt_trans hlt ((List.pairwise_cons.mp hy).1 z hz)
  | case4 x xs y ys hnlt hlt ih =>
    rw [merge, if_neg hnlt, if_pos hlt]
    rw [List.pairwise_cons] at hy
    refine pairwise_keep_append (ih hx hy.2) ?_
    intro z hz
    rcases mem_of_mem_merge hz with hz | hz
    · rcases List.mem_cons.mp hz with rfl | hz
      · exact hlt
      · exact lt_trans hlt ((List.pairwise_cons.mp hx).1 z hz)
    · exact hy.1 z hz
  | case5 x xs y ys hnlt hnlt' ih =>
    obtain rfl : x = y := le_antisymm (not_lt.mp hnlt') (not_lt.mp hnlt)
    rw [merge, if_neg hnlt, if_neg hnlt']
    rw [List.pairwise_cons] at hx hy
    refine pairwise_keep_append (ih hx.2 hy.2) ?_
    intro z hz
    exact (mem_of_mem_merge hz).elim (hx.1 z) (hy.1 z)

def Kept (first both second : Bool) (inFirst inSecond : Prop) : Prop :=
  (inFirst ∧ ¬ inSecond ∧ first) ∨ (inFirst ∧ inSecond ∧ both) ∨ (¬ inFirst ∧ inSecond ∧ second)

theorem mem_merge (hx : xs.Pairwise (· < ·)) (hy : ys.Pairwise (· < ·)) (z : α) :
    z ∈ merge first both second xs ys ↔ Kept first both second (z ∈ xs) (z ∈ ys) := by
  induction xs, ys using merge.induct with
  | case1 ys | case2 x xs => simp [Kept, mem_keep]
  | case3 x xs y ys hlt ih =>
    rw [List.pairwise_cons] at hx
    have hnot : x ∉ y :: ys := by
      intro hmem
      rcases List.mem_cons.mp hmem with rfl | hmem
      · exact lt_irrefl x hlt
      · exact lt_asymm hlt ((List.pairwise_cons.mp hy).1 x hmem)
    have hnotx : x ∉ xs := fun hmem => lt_irrefl x (hx.1 x hmem)
    rw [merge, if_pos hlt, List.mem_append, mem_keep, List.mem_singleton, ih hx.2 hy]
    by_cases hz : z = x
    · subst hz
      simp [Kept, hnot, hnotx]
    · simp [Kept, hz]
  | case4 x xs y ys hnlt hlt ih =>
    rw [List.pairwise_cons] at hy
    have hnot : y ∉ x :: xs := by
      intro hmem
      rcases List.mem_cons.mp hmem with rfl | hmem
      · exact lt_irrefl y hlt
      · exact lt_asymm hlt ((List.pairwise_cons.mp hx).1 y hmem)
    have hnoty : y ∉ ys := fun hmem => lt_irrefl y (hy.1 y hmem)
    rw [merge, if_neg hnlt, if_pos hlt, List.mem_append, mem_keep, List.mem_singleton, ih hx hy.2]
    by_cases hz : z = y
    · subst hz
      simp [Kept, hnot, hnoty]
    · simp [Kept, hz]
  | case5 x xs y ys hnlt hnlt' ih =>
    obtain rfl : x = y := le_antisymm (not_lt.mp hnlt') (not_lt.mp hnlt)
    rw [List.pairwise_cons] at hx hy
    have hnotx : x ∉ xs := fun hmem => lt_irrefl x (hx.1 x hmem)
    have hnoty : x ∉ ys := fun hmem => lt_irrefl x (hy.1 x hmem)
    rw [merge, if_neg hnlt, if_neg hnlt', List.mem_append, mem_keep, List.mem_singleton,
      ih hx.2 hy.2]
    by_cases hz : z = x
    · subst hz
      simp [Kept, hnotx, hnoty]
    · simp [Kept, hz]

end SortedMerge
