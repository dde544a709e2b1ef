import Mathlib.Data.Nat.Log
import Mathlib.Data.Set.Card
import Mathlib.Order.CompletePartialOrder

/-!
# Forests of parent pointers

A forest is given by the parent of each element; a root is its own parent. With ranks that grow
along the parents, every element leads to one root, and both path compression and the union of two
trees by rank are changes of one parent.
-/

namespace RankedForest

open Function (update update_self update_of_ne update_apply)

variable {α : Type*} {p : α → α} {rank : α → ℕ}

/-- `n` parents lead from the first element to the second, which is a root. -/
inductive Leads (p : α → α) : α → ℕ → α → Prop
  | root {r : α} (h : p r = r) : Leads p r 0 r
  | step {x r : α} {n : ℕ} (h : p x ≠ x) (hr : Leads p (p x) n r) : Leads p x (n + 1) r

def RootOf (p : α → α) (x r : α) : Prop := ∃ n, Leads p x n r

def tree (p : α → α) (r : α) : Set α := {x | RootOf p x r}

def Same (p : α → α) (x y : α) : Prop := ∃ r, RootOf p x r ∧ RootOf p y r

structure Ranked (p : α → α) (rank : α → ℕ) : Prop where
  lt : ∀ x, p x ≠ x → rank x < rank (p x)
  bounded : ∃ bound, ∀ x, rank x ≤ bound

/-- A tree of rank `k` has at least `2 ^ k` elements. -/
def Weighted (p : α → α) (rank : α → ℕ) : Prop :=
  ∀ r, p r = r → ((2 ^ rank r : ℕ) : ℕ∞) ≤ (tree p r).encard

/-! ### Roots -/

theorem Leads.isRoot {x r : α} {n : ℕ} (h : Leads p x n r) : p r = r := by
  induction h with
  | root h => exact h
  | step _ _ ih => exact ih

theorem Leads.unique {x r s : α} {n m : ℕ} (h : Leads p x n r) (h' : Leads p x m s) :
    n = m ∧ r = s := by
  induction h generalizing m with
  | root hr =>
    cases h' with
    | root _ => exact ⟨rfl, rfl⟩
    | step hne _ => exact absurd hr hne
  | step hne _ ih =>
    cases h' with
    | root hs => exact absurd hs hne
    | step _ h' =>
      obtain ⟨hn, hr⟩ := ih h'
      exact ⟨by rw [hn], hr⟩

theorem RootOf.isRoot {x r : α} (h : RootOf p x r) : p r = r := by
  obtain ⟨n, h⟩ := h
  exact h.isRoot

theorem RootOf.unique {x r s : α} (h : RootOf p x r) (h' : RootOf p x s) : r = s := by
  obtain ⟨n, h⟩ := h
  obtain ⟨m, h'⟩ := h'
  exact (h.unique h').2

theorem rootOf_self {r : α} (h : p r = r) : RootOf p r r := ⟨0, .root h⟩

theorem rootOf_parent {x r : α} : RootOf p (p x) r ↔ RootOf p x r := by
  by_cases hx : p x = x
  · rw [hx]
  constructor
  · rintro ⟨n, h⟩
    exact ⟨n + 1, .step hx h⟩
  · rintro ⟨n, h⟩
    cases h with
    | root h => exact absurd h hx
    | step _ h => exact ⟨_, h⟩

theorem Ranked.exists_leads (h : Ranked p rank) (x : α) : ∃ n r, Leads p x n r := by
  obtain ⟨bound, hbound⟩ := h.bounded
  generalize hleft : bound - rank x = left
  induction left using Nat.strong_induction_on generalizing x with
  | h left ih =>
    by_cases hx : p x = x
    · exact ⟨0, x, .root hx⟩
    · have hlt := h.lt x hx
      have hle := hbound (p x)
      obtain ⟨n, r, hr⟩ := ih (bound - rank (p x)) (by omega) (p x) rfl
      exact ⟨n + 1, r, .step hx hr⟩

theorem Ranked.exists_root (h : Ranked p rank) (x : α) : ∃ r, RootOf p x r := by
  obtain ⟨n, r, hr⟩ := h.exists_leads x
  exact ⟨r, n, hr⟩

/-- Each parent on the way raises the rank, so a root has at least the rank of the height of its
tree. -/
theorem Leads.add_rank_le {x r : α} {n : ℕ} (hr : Leads p x n r) (h : Ranked p rank) :
    n + rank x ≤ rank r := by
  induction hr with
  | root _ => exact (Nat.zero_add _).le
  | step hne _ ih =>
    have hlt := h.lt _ hne
    omega

theorem Ranked.acyclic (h : Ranked p rank) (x : α) :
    ¬ Relation.TransGen (fun y z => p y = z ∧ y ≠ z) x x := by
  have hlt : ∀ y z, Relation.TransGen (fun y z => p y = z ∧ y ≠ z) y z → rank y < rank z := by
    intro y z hyz
    induction hyz with
    | single hyz =>
      obtain ⟨rfl, hne⟩ := hyz
      exact h.lt y hne.symm
    | @tail z z' _ hstep ih =>
      obtain ⟨rfl, hne⟩ := hstep
      exact ih.trans (h.lt z hne.symm)
  intro hx
  exact lt_irrefl _ (hlt x x hx)

theorem same_iff {x y r s : α} (hr : RootOf p x r) (hs : RootOf p y s) :
    Same p x y ↔ r = s := by
  constructor
  · rintro ⟨t, hx, hy⟩
    exact (hr.unique hx).trans (hy.unique hs)
  · rintro rfl
    exact ⟨r, hr, hs⟩

theorem disjoint_tree {a b : α} (hne : a ≠ b) : Disjoint (tree p a) (tree p b) := by
  rw [Set.disjoint_left]
  intro y hya hyb
  exact hne (RootOf.unique hya hyb)

theorem Weighted.rank_le_log (h : Weighted p rank) {r : α} (hr : p r = r)
    (hfinite : (tree p r).Finite) : rank r ≤ Nat.log 2 (tree p r).ncard := by
  have hle := h r hr
  rw [← hfinite.cast_ncard_eq, Nat.cast_le] at hle
  exact Nat.le_log_of_pow_le (by decide) hle

variable [DecidableEq α]

/-! ### Path compression -/

section Compress

variable {x r : α}

theorem rootOf_compress (h : RootOf p x r) (y s : α) :
    RootOf (update p x r) y s ↔ RootOf p y s := by
  have hr := h.isRoot
  have hroot : update p x r r = r := by
    rw [update_apply]
    split
    · rfl
    · exact hr
  have hforward : ∀ y s, RootOf p y s → RootOf (update p x r) y s := by
    rintro y s ⟨n, hy⟩
    induction hy with
    | @root t ht =>
      apply rootOf_self
      rw [update_apply]
      split
      · next heq =>
        subst heq
        exact h.unique (rootOf_self ht)
      · exact ht
    | @step y s n _ _ ih =>
      by_cases hyx : y = x
      · subst hyx
        have hs : s = r := RootOf.unique (rootOf_parent.mp ⟨n, by assumption⟩) h
        rw [hs, ← rootOf_parent, update_self]
        exact rootOf_self hroot
      · rw [← rootOf_parent, update_of_ne hyx]
        exact ih
  constructor
  · rintro ⟨n, hy⟩
    induction hy with
    | @root t ht =>
      rw [update_apply] at ht
      split at ht
      · next heq =>
        subst heq
        rw [ht] at h
        exact h
      · exact rootOf_self ht
    | @step y s n hne hstep ih =>
      rw [update_apply] at ih
      split at ih
      · next heq =>
        subst heq
        have hs : s = r := ih.unique (rootOf_self hr)
        rw [hs]
        exact h
      · exact rootOf_parent.mp ih
  · exact hforward y s

theorem Ranked.compress (hranked : Ranked p rank) (h : RootOf p x r) :
    Ranked (update p x r) rank where
  lt := by
    intro y hy
    rw [update_apply] at hy ⊢
    split at hy
    · next heq =>
      subst heq
      rw [if_pos rfl]
      obtain ⟨n, hn⟩ := h
      cases hn with
      | root _ => exact absurd rfl hy
      | step hne hn =>
        have hlt := hranked.lt _ hne
        have hle := hn.add_rank_le hranked
        omega
    · next hne =>
      rw [if_neg hne]
      exact hranked.lt y hy
  bounded := hranked.bounded

theorem tree_compress (h : RootOf p x r) (s : α) :
    tree (update p x r) s = tree p s := by
  ext y
  exact rootOf_compress h y s

end Compress

/-! ### Union by rank -/

section Link

variable {a b : α}

theorem rootOf_link (ha : p a = a) (hb : p b = b) (hne : a ≠ b) (y s : α) :
    RootOf (update p a b) y s ↔
      (RootOf p y a ∧ s = b) ∨ (RootOf p y s ∧ s ≠ a) := by
  have hroot : update p a b b = b := by rwa [update_of_ne hne.symm]
  constructor
  · rintro ⟨n, hy⟩
    induction hy with
    | @root t ht =>
      rw [update_apply] at ht
      split at ht
      · next heq =>
        subst heq
        exact absurd ht.symm hne
      · next hta => exact .inr ⟨rootOf_self ht, hta⟩
    | @step y s n _ _ ih =>
      rw [update_apply] at ih
      split at ih
      · next heq =>
        subst heq
        rcases ih with ⟨hba, -⟩ | ⟨hbs, -⟩
        · exact absurd ((rootOf_self hb).unique hba) hne.symm
        · exact .inl ⟨rootOf_self ha, hbs.unique (rootOf_self hb)⟩
      · rwa [rootOf_parent, rootOf_parent] at ih
  · have hkeep : ∀ y s, RootOf p y s →
        RootOf (update p a b) y (if s = a then b else s) := by
      rintro y s ⟨n, hy⟩
      induction hy with
      | @root t ht =>
        split
        · next heq =>
          rw [heq, ← rootOf_parent, update_self]
          exact rootOf_self hroot
        · next hta =>
          apply rootOf_self
          rwa [update_of_ne hta]
      | @step y s _ hstep _ ih =>
        have hya : y ≠ a := fun heq => hstep (by rw [heq, ha])
        rw [← rootOf_parent, update_of_ne hya]
        exact ih
    rintro (⟨hy, rfl⟩ | ⟨hy, hs⟩)
    · have hroot := hkeep y a hy
      rwa [if_pos rfl] at hroot
    · have hroot := hkeep y s hy
      rwa [if_neg hs] at hroot

theorem tree_link (ha : p a = a) (hb : p b = b) (hne : a ≠ b) :
    tree (update p a b) b = tree p a ∪ tree p b := by
  ext y
  change RootOf _ y b ↔ RootOf p y a ∨ RootOf p y b
  rw [rootOf_link ha hb hne]
  simp only [and_true, ne_eq, hne.symm, not_false_eq_true]

theorem tree_link_of_ne (ha : p a = a) (hb : p b = b) (hne : a ≠ b) {s : α} (hsa : s ≠ a)
    (hsb : s ≠ b) : tree (update p a b) s = tree p s := by
  ext y
  change RootOf _ y s ↔ RootOf p y s
  rw [rootOf_link ha hb hne]
  simp only [hsb, and_false, ne_eq, hsa, not_false_eq_true, and_true, false_or]

theorem same_link (hranked : Ranked p rank) (ha : p a = a) (hb : p b = b) (hne : a ≠ b) (x y : α) :
    Same (update p a b) x y ↔
      Same p x y ∨ (Same p x a ∧ Same p y b) ∨ (Same p x b ∧ Same p y a) := by
  obtain ⟨r, hr⟩ := hranked.exists_root x
  obtain ⟨s, hs⟩ := hranked.exists_root y
  rw [same_iff hr hs, same_iff hr (rootOf_self ha), same_iff hr (rootOf_self hb),
    same_iff hs (rootOf_self ha), same_iff hs (rootOf_self hb)]
  have hmoved : ∀ z t, RootOf p z t →
      RootOf (update p a b) z (if t = a then b else t) := by
    intro z t ht
    rw [rootOf_link ha hb hne]
    split
    · next heq => exact .inl ⟨heq ▸ ht, rfl⟩
    · next hta => exact .inr ⟨ht, hta⟩
  have hx := hmoved x r hr
  have hy := hmoved y s hs
  have hsame : Same (update p a b) x y ↔
      (if r = a then b else r) = if s = a then b else s := by
    constructor
    · rintro ⟨t, hxt, hyt⟩
      exact (hx.unique hxt).trans (hyt.unique hy)
    · intro heq
      exact ⟨_, hx, heq ▸ hy⟩
  rw [hsame]
  by_cases hra' : r = a
  · by_cases hsa' : s = a
    · simp [hra', hsa']
    · simp only [hra', hsa', if_true, if_false, hne, Ne.symm hsa', false_and, true_and, false_or,
        or_false]
      exact eq_comm
  · by_cases hsa' : s = a
    · simp [hra', hsa']
    · simp [hra', hsa']

theorem Ranked.link (hranked : Ranked p rank) (hlt : rank a < rank b) :
    Ranked (update p a b) rank where
  lt := by
    intro y hy
    rw [update_apply] at hy ⊢
    split at hy
    · next heq =>
      rw [if_pos heq, heq]
      exact hlt
    · next hne =>
      rw [if_neg hne]
      exact hranked.lt y hy
  bounded := hranked.bounded

theorem Ranked.raise (hranked : Ranked p rank) (hb : p b = b) :
    Ranked p (update rank b (rank b + 1)) where
  lt := by
    intro y hy
    have hlt := hranked.lt y hy
    have hyb : y ≠ b := fun heq => hy (by rw [heq, hb])
    rw [update_of_ne hyb, update_apply]
    split
    · next heq =>
      rw [heq] at hlt
      omega
    · exact hlt
  bounded := by
    obtain ⟨bound, hbound⟩ := hranked.bounded
    refine ⟨bound + 1, ?_⟩
    intro y
    rw [update_apply]
    have hy := hbound y
    have hb' := hbound b
    split <;> omega

theorem Weighted.link (h : Weighted p rank) (ha : p a = a) (hb : p b = b) (hne : a ≠ b) :
    Weighted (update p a b) rank := by
  intro r hr
  rw [update_apply] at hr
  split at hr
  · next heq => exact absurd (hr.trans heq).symm hne
  · next hra =>
    by_cases hrb : r = b
    · rw [hrb, tree_link ha hb hne]
      exact (h b hb).trans (Set.encard_le_encard Set.subset_union_right)
    · rw [tree_link_of_ne ha hb hne hra hrb]
      exact h r hr

theorem Weighted.link_raise (h : Weighted p rank) (ha : p a = a) (hb : p b = b) (hne : a ≠ b)
    (heq : rank a = rank b) :
    Weighted (update p a b) (update rank b (rank b + 1)) := by
  intro r hr
  by_cases hrb : r = b
  · rw [hrb, update_self, tree_link ha hb hne, Set.encard_union_eq (disjoint_tree hne),
      Nat.pow_succ, Nat.mul_two, Nat.cast_add]
    have hwa := h a ha
    rw [heq] at hwa
    exact add_le_add hwa (h b hb)
  · rw [update_of_ne hrb]
    exact h.link ha hb hne r hr

theorem Weighted.compress {x r : α} (h : Weighted p rank) (hx : RootOf p x r) :
    Weighted (update p x r) rank := by
  intro s hs
  rw [tree_compress hx]
  apply h
  exact ((rootOf_compress hx s s).mp (rootOf_self hs)).isRoot

end Link

end RankedForest
