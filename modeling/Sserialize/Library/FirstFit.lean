import Mathlib.Data.List.Infix

/-!
# First fit

Lists of choices are served one after the other, and each takes its first choice that no earlier one
took.
-/

namespace FirstFit

variable {α : Type} [DecidableEq α]

def free (used choices : List α) : Option α := choices.find? (· ∉ used)

/-- What is used after all lists were served; `none` where one finds nothing. -/
def serve : List α → List (List α) → Option (List α)
  | used, [] => some used
  | used, choices :: rest =>
    match free used choices with
    | none => none
    | some a => serve (a :: used) rest

theorem free_eq_none {used choices : List α} : free used choices = none ↔ choices ⊆ used := by
  simp [free, List.subset_def]

theorem free_eq_some {used choices : List α} {a : α} :
    free used choices = some a ↔
      a ∉ used ∧ ∃ before after, choices = before ++ a :: after ∧ before ⊆ used := by
  simp [free, List.find?_eq_some_iff_append, List.subset_def]

theorem serve_append (used : List α) (front back : List (List α)) :
    serve used (front ++ back) = (serve used front).bind fun used => serve used back := by
  induction front generalizing used with
  | nil => rfl
  | cons choices front ih =>
    rw [List.cons_append, serve, serve]
    cases free used choices with
    | none => rfl
    | some a => exact ih (a :: used)

theorem serve_of_isPrefix {used : List α} {front all : List (List α)} (h : front <+: all)
    (hserve : (serve used all).isSome = true) : (serve used front).isSome = true := by
  obtain ⟨back, rfl⟩ := h
  rw [serve_append] at hserve
  cases hfront : serve used front with
  | none =>
    rw [hfront] at hserve
    cases hserve
  | some used' => rfl

theorem serve_singleton (used choices : List α) :
    serve used [choices] = (free used choices).map (· :: used) := by
  rw [serve]
  cases free used choices with
  | none => rfl
  | some a => rfl

end FirstFit
