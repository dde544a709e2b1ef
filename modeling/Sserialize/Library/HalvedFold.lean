import Mathlib.Data.List.Basic

/-!
# Folding a list by halves

A list is cut in the middle, down to single elements, and the results of the halves are combined.
-/

namespace HalvedFold

variable {α : Type*}

def foldHalves (op : α → α → α) (none : α) : List α → α
  | [] => none
  | [a] => a
  | a :: b :: l =>
    let mid := (l.length + 1) / 2 + 1
    op (foldHalves op none ((a :: b :: l).take mid)) (foldHalves op none ((a :: b :: l).drop mid))
termination_by l => l.length
decreasing_by
  · simp only [List.length_take, List.length_cons]
    omega
  · simp only [List.length_drop, List.length_cons]
    omega

/-- What holds of a combination exactly if it holds of both parts holds of a whole list exactly if it
holds of all elements. -/
theorem foldHalves_iff {op : α → α → α} {p : α → Prop} (hop : ∀ a b, p (op a b) ↔ p a ∧ p b)
    (none : α) {l : List α} (hl : l ≠ []) : p (foldHalves op none l) ↔ ∀ a ∈ l, p a := by
  fun_induction foldHalves op none l with
  | case1 => exact absurd rfl hl
  | case2 a => simp
  | case3 a b l mid ihfirst ihsecond =>
    have hfirst : (a :: b :: l).take mid ≠ [] := by simp [mid]
    have hsecond : (a :: b :: l).drop mid ≠ [] := by
      rw [ne_eq, List.drop_eq_nil_iff, List.length_cons, List.length_cons]
      omega
    calc p (op (foldHalves op none ((a :: b :: l).take mid))
          (foldHalves op none ((a :: b :: l).drop mid)))
        ↔ (∀ x ∈ (a :: b :: l).take mid, p x) ∧ ∀ x ∈ (a :: b :: l).drop mid, p x := by
          rw [hop, ihfirst hfirst, ihsecond hsecond]
      _ ↔ ∀ x ∈ a :: b :: l, p x := by
          rw [← List.forall_mem_append, List.take_append_drop]

end HalvedFold
