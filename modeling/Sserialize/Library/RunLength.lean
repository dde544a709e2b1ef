import Mathlib.Data.List.Chain
import Mathlib.Algebra.BigOperators.Group.List.Basic

/-!
# Run-length representation

A list as runs `(count, value)`. `runs` gives the maximal runs; they are the only runs with
positive counts and different neighbours that expand to the list.
-/

namespace RunLength

variable {α : Type*}

def expand : List (Nat × α) → List α
  | [] => []
  | (n, a) :: rs => List.replicate n a ++ expand rs

@[simp] theorem expand_nil : expand ([] : List (Nat × α)) = [] := rfl

@[simp] theorem expand_cons (n : Nat) (a : α) (rs : List (Nat × α)) :
    expand ((n, a) :: rs) = List.replicate n a ++ expand rs := rfl

theorem expand_append (rs ss : List (Nat × α)) : expand (rs ++ ss) = expand rs ++ expand ss := by
  induction rs with
  | nil => rfl
  | cons r rs ih =>
    obtain ⟨n, a⟩ := r
    simp [ih]

variable {rs : List (Nat × α)}

theorem mem_expand_of_mem {r : Nat × α} (hr : r ∈ rs) (hpos : 0 < r.1) : r.2 ∈ expand rs := by
  obtain ⟨before, after, rfl⟩ := List.append_of_mem hr
  obtain ⟨n, a⟩ := r
  rw [expand_append, expand_cons]
  have hmem : a ∈ List.replicate n a := List.mem_replicate.mpr ⟨Nat.pos_iff_ne_zero.mp hpos, rfl⟩
  exact List.mem_append_right _ (List.mem_append_left _ hmem)

structure Maximal (rs : List (Nat × α)) : Prop where
  pos : ∀ r ∈ rs, 0 < r.1
  ne : rs.IsChain fun r s => r.2 ≠ s.2

theorem Maximal.nil : Maximal ([] : List (Nat × α)) := ⟨by simp, by simp⟩

theorem Maximal.tail {r : Nat × α} {rs : List (Nat × α)} (h : Maximal (r :: rs)) : Maximal rs :=
  ⟨fun s hs => h.pos s (List.mem_cons_of_mem _ hs), h.ne.tail⟩

theorem Maximal.grow {n m : Nat} {a : α} (h : Maximal (rs ++ [(n, a)])) (hm : 0 < m) :
    Maximal (rs ++ [(m, a)]) := by
  constructor
  · intro r hr
    rcases List.mem_append.mp hr with hr | hr
    · exact h.pos r (by simp [hr])
    · obtain rfl : r = (m, a) := by simpa using hr
      exact hm
  · have hchain := h.ne
    rw [List.isChain_append] at hchain ⊢
    refine ⟨hchain.1, by simp, ?_⟩
    intro x hx y hy
    obtain rfl : (m, a) = y := by simpa using hy
    exact hchain.2.2 x hx (n, a) (by simp)

theorem Maximal.snoc {n m : Nat} {a b : α} (h : Maximal (rs ++ [(n, a)])) (hm : 0 < m)
    (hab : a ≠ b) : Maximal (rs ++ [(n, a)] ++ [(m, b)]) := by
  constructor
  · intro r hr
    rcases List.mem_append.mp hr with hr | hr
    · exact h.pos r hr
    · obtain rfl : r = (m, b) := by simpa using hr
      exact hm
  · rw [List.isChain_append]
    refine ⟨h.ne, by simp, ?_⟩
    intro x hx y hy
    obtain rfl : (m, b) = y := by simpa using hy
    obtain rfl : (n, a) = x := by simpa using hx
    exact hab

section
variable [DecidableEq α]

def runs : List α → List (Nat × α)
  | [] => []
  | a :: as =>
    match runs as with
    | [] => [(1, a)]
    | (n, b) :: rs => if a = b then (n + 1, b) :: rs else (1, a) :: (n, b) :: rs

theorem expand_runs (l : List α) : expand (runs l) = l := by
  induction l with
  | nil => rfl
  | cons a as ih =>
    unfold runs
    split
    · rename_i hnil
      rw [hnil] at ih
      rw [← ih]
      rfl
    · rename_i n b rs hcons
      rw [hcons] at ih
      split
      · rename_i hab
        subst hab
        rw [expand_cons, List.replicate_succ, List.cons_append, ← expand_cons, ih]
      · rw [expand_cons, ih]
        rfl

theorem maximal_runs (l : List α) : Maximal (runs l) := by
  induction l with
  | nil => exact Maximal.nil
  | cons a as ih =>
    unfold runs
    split
    · exact ⟨by simp, by simp⟩
    · rename_i n b rs hcons
      rw [hcons] at ih
      split
      · rename_i hab
        refine ⟨?_, ?_⟩
        · intro r hr
          rcases List.mem_cons.mp hr with rfl | hr
          · exact Nat.succ_pos n
          · exact ih.pos r (List.mem_cons_of_mem _ hr)
        · have hchain := ih.ne
          rw [List.isChain_cons] at hchain ⊢
          exact hchain
      · rename_i hab
        refine ⟨?_, ?_⟩
        · intro r hr
          rcases List.mem_cons.mp hr with rfl | hr
          · exact Nat.one_pos
          · exact ih.pos r hr
        · exact List.isChain_cons_cons.mpr ⟨hab, ih.ne⟩

theorem runs_replicate_append {n : Nat} {a : α} {l : List α} (hn : 0 < n)
    (hl : ∀ r ∈ (runs l).head?, r.2 ≠ a) : runs (List.replicate n a ++ l) = (n, a) :: runs l := by
  induction n with
  | zero => omega
  | succ n ih =>
    rw [List.replicate_succ, List.cons_append]
    by_cases hzero : n = 0
    · subst hzero
      rw [List.replicate_zero, List.nil_append, runs]
      cases hruns : runs l with
      | nil => rfl
      | cons r rs =>
        have hne : r.2 ≠ a := hl r (by rw [hruns]; rfl)
        have hne' : ¬ a = r.2 := fun h => hne h.symm
        simp [hne']
    · rw [runs, ih (by omega)]
      simp

theorem runs_expand {rs : List (Nat × α)} (h : Maximal rs) : runs (expand rs) = rs := by
  induction rs with
  | nil => rfl
  | cons r rs ih =>
    obtain ⟨n, a⟩ := r
    have hpos : 0 < n := h.pos (n, a) (by simp)
    have hrec := ih h.tail
    rw [expand_cons, runs_replicate_append hpos, hrec]
    rw [hrec]
    intro s hs hval
    cases rs with
    | nil => cases hs
    | cons t ts =>
      obtain rfl : t = s := by simpa using hs
      exact (List.isChain_cons_cons.mp h.ne).1 hval.symm

end

end RunLength
