import Mathlib.Algebra.Order.BigOperators.Group.Finset

/-!
# Pools of workers

Runs of a step relation in which one of finitely many workers changes its state at a time. What the
workers hold together, and the sum of what is left to do for each of them, change with the state of
that worker only.
-/

namespace WorkerPool

open Finset
open Function (update update_self update_of_ne update_eq_self)

/-! ## Runs -/

section Runs

variable {σ : Type*} {Step : σ → σ → Prop}

theorem run_invariant {Inv : σ → Prop} (hstep : ∀ p q, Inv p → Step p q → Inv q) {p q : σ}
    (hrun : Relation.ReflTransGen Step p q) (hp : Inv p) : Inv q := by
  induction hrun with
  | refl => exact hp
  | tail _ hlast ih => exact hstep _ _ ih hlast

end Runs

/-! ## Workers -/

section Workers

variable {α : Type*} {n w : Nat} {f : Nat → α} {a : α}

def Any (n : Nat) (P : α → Prop) (f : Nat → α) : Prop := ∃ v < n, P (f v)

variable {P : α → Prop}

theorem any_of_lt (hw : w < n) (h : P (f w)) : Any n P f := ⟨w, hw, h⟩

theorem any_update (hw : w < n) :
    Any n P (update f w a) ↔ P a ∨ ∃ v < n, v ≠ w ∧ P (f v) := by
  constructor
  · rintro ⟨v, hv, h⟩
    by_cases hvw : v = w
    · subst hvw
      rw [update_self] at h
      exact .inl h
    · rw [update_of_ne hvw] at h
      exact .inr ⟨v, hv, hvw, h⟩
  · rintro (h | ⟨v, hv, hvw, h⟩)
    · exact ⟨w, hw, by rwa [update_self]⟩
    · exact ⟨v, hv, by rwa [update_of_ne hvw]⟩

theorem any_iff (hw : w < n) : Any n P f ↔ P (f w) ∨ ∃ v < n, v ≠ w ∧ P (f v) := by
  have h := any_update (f := f) (a := f w) (P := P) hw
  rwa [update_eq_self] at h

theorem any_update_or_iff {Q R : Prop} (hw : w < n) (h : P a ∨ Q ↔ P (f w) ∨ R) :
    Any n P (update f w a) ∨ Q ↔ Any n P f ∨ R := by
  rw [any_update hw, any_iff hw, or_right_comm, h, or_right_comm]

theorem all_update (h : ∀ v < n, P (f v)) (ha : P a) : ∀ v < n, P (update f w a v) := by
  intro v hv
  by_cases hvw : v = w
  · subst hvw
    rwa [update_self]
  · rw [update_of_ne hvw]
    exact h v hv

theorem exists_update {old : α} (hold : f w = old) (hnot : ¬ P old) (h : ∃ v < n, P (f v)) :
    ∃ v < n, P (update f w a v) := by
  obtain ⟨v, hv, hp⟩ := h
  refine ⟨v, hv, ?_⟩
  by_cases hvw : v = w
  · subst hvw
    rw [hold] at hp
    exact absurd hp hnot
  · rwa [update_of_ne hvw]

def total (n : Nat) (μ : α → Nat) (f : Nat → α) : Nat := ∑ v ∈ range n, μ (f v)

theorem total_update (μ : α → Nat) (hw : w < n) (f : Nat → α) (a : α) :
    total n μ (update f w a) + μ (f w) = total n μ f + μ a := by
  have hmem : w ∈ range n := mem_range.mpr hw
  have hrest : ∑ v ∈ (range n).erase w, μ (update f w a v) =
      ∑ v ∈ (range n).erase w, μ (f v) := by
    refine sum_congr rfl fun v hv => ?_
    rw [update_of_ne (ne_of_mem_erase hv)]
  calc total n μ (update f w a) + μ (f w)
      = (∑ v ∈ (range n).erase w, μ (update f w a v) +
          μ (update f w a w)) + μ (f w) := by
        rw [total, sum_erase_add _ _ hmem]
    _ = (∑ v ∈ (range n).erase w, μ (f v) + μ (f w)) + μ a := by
        rw [hrest, update_self, Nat.add_right_comm]
    _ = total n μ f + μ a := by rw [sum_erase_add _ _ hmem, total]

theorem total_update_of_eq (μ : α → Nat) (hw : w < n) (h : μ a = μ (f w)) :
    total n μ (update f w a) = total n μ f := by
  have htotal := total_update μ hw f a
  omega

theorem total_succ_update (μ : α → Nat) (f : Nat → α) (a : α) :
    total (n + 1) μ (update f n a) = total n μ f + μ a := by
  have hrest : ∑ v ∈ range n, μ (update f n a v) = ∑ v ∈ range n, μ (f v) := by
    refine sum_congr rfl fun v hv => ?_
    rw [update_of_ne (Nat.ne_of_lt (mem_range.mp hv))]
  rw [total, sum_range_succ, hrest, update_self, total]

variable {μ : α → Nat}

theorem total_congr {g : Nat → α} (h : ∀ v < n, μ (g v) = μ (f v)) : total n μ g = total n μ f :=
  sum_congr rfl fun v hv => h v (mem_range.mp hv)

theorem total_le (h : ∀ a, μ a ≤ 1) (n : Nat) (f : Nat → α) : total n μ f ≤ n := by
  calc total n μ f ≤ ∑ _v ∈ range n, 1 := sum_le_sum fun v _ => h (f v)
    _ = n := by simp

theorem total_eq_zero_iff : total n μ f = 0 ↔ ∀ v < n, μ (f v) = 0 := by
  simp [total, sum_eq_zero_iff]

theorem total_eq_of_all {c : Nat} (h : ∀ v < n, μ (f v) = c) : total n μ f = n * c := by
  rw [total, sum_const_nat fun v hv => h v (mem_range.mp hv), card_range]

end Workers

end WorkerPool
