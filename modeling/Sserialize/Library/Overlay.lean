import Mathlib.Data.List.Basic

/-!
# Two lists laid over each other

Where both lists have an element the two are combined, what is left of the longer list is kept or
dropped.
-/

namespace Sserialize.Overlay

variable {α : Type*}

def overlay (f : α → α → α) (first second : Bool) : List α → List α → List α
  | x :: xs, y :: ys => f x y :: overlay f first second xs ys
  | [], ys => if second then ys else []
  | xs, [] => if first then xs else []

variable {f : α → α → α} {first second : Bool}

theorem overlay_nil_left (ys : List α) :
    overlay f first second [] ys = if second then ys else [] := by
  rw [overlay]

theorem overlay_cons (x y : α) (xs ys : List α) :
    overlay f first second (x :: xs) (y :: ys) = f x y :: overlay f first second xs ys := rfl

theorem overlay_nil_right (xs : List α) :
    overlay f first second xs [] = if first then xs else [] := by
  cases xs with
  | nil =>
    rw [overlay]
    cases first <;> cases second <;> rfl
  | cons x xs => rw [overlay]; simp

theorem overlay_append {xs ys : List α} (h : xs.length = ys.length) (xs' ys' : List α) :
    overlay f first second (xs ++ xs') (ys ++ ys') =
      List.zipWith f xs ys ++ overlay f first second xs' ys' := by
  induction xs generalizing ys with
  | nil =>
    rw [List.eq_nil_of_length_eq_zero h.symm]
    rfl
  | cons x xs ih =>
    cases ys with
    | nil => cases h
    | cons y ys =>
      rw [List.cons_append, List.cons_append, overlay_cons, ih (Nat.succ.inj h)]
      rfl

theorem getD_overlay {d : α} (hfirst : ∀ x, f x d = if first then x else d)
    (hsecond : ∀ y, f d y = if second then y else d) (xs ys : List α) (i : Nat) :
    (overlay f first second xs ys).getD i d = f (xs.getD i d) (ys.getD i d) := by
  induction xs generalizing ys i with
  | nil =>
    rw [overlay_nil_left, List.getD_nil, hsecond]
    cases second <;> rfl
  | cons x xs ih =>
    cases ys with
    | nil =>
      rw [overlay_nil_right, List.getD_nil, hfirst]
      cases first <;> rfl
    | cons y ys =>
      rw [overlay_cons]
      cases i with
      | zero => rfl
      | succ i =>
        rw [List.getD_cons_succ, List.getD_cons_succ, List.getD_cons_succ]
        exact ih ys i

variable (xs ys : List α)

theorem overlay_take :
    overlay f first second (xs.take ys.length) ys = overlay f false second xs ys := by
  induction xs generalizing ys with
  | nil => rw [List.take_nil, overlay_nil_left, overlay_nil_left]
  | cons x xs ih =>
    cases ys with
    | nil => rw [List.length_nil, List.take_zero, overlay_nil_right, overlay_nil_right]; simp
    | cons y ys => rw [List.length_cons, List.take_succ_cons, overlay_cons, overlay_cons, ih]

theorem overlay_eq_append :
    overlay f first second xs ys = List.zipWith f xs ys ++
      ((if first then xs.drop ys.length else []) ++
        (if second then ys.drop xs.length else [])) := by
  induction xs generalizing ys with
  | nil =>
    rw [overlay_nil_left]
    simp
  | cons x xs ih =>
    cases ys with
    | nil =>
      rw [overlay_nil_right]
      simp
    | cons y ys =>
      rw [overlay_cons, ih]
      rfl

theorem length_overlay :
    (overlay f first second xs ys).length =
      max (min xs.length ys.length)
        (max (if first then xs.length else 0) (if second then ys.length else 0)) := by
  induction xs generalizing ys with
  | nil =>
    rw [overlay_nil_left]
    cases first <;> cases second <;> simp
  | cons x xs ih =>
    cases ys with
    | nil =>
      rw [overlay_nil_right]
      cases first <;> cases second <;> simp
    | cons y ys =>
      rw [overlay_cons, List.length_cons, ih, List.length_cons, List.length_cons]
      cases first <;> cases second <;> simp only [if_true, if_false, Bool.false_eq_true] <;> omega

end Sserialize.Overlay
