import Mathlib.Algebra.BigOperators.Group.List.Basic
import Mathlib.Algebra.GroupWithZero.Nat

/-!
# Ascending lists and their differences

A strictly ascending list is determined by the differences of its neighbours.
-/

namespace Ascending

/-- The differences to the element before; the element before the first is `prev`. -/
def deltas : Nat → List Nat → List Nat
  | _, [] => []
  | prev, x :: xs => (x - prev) :: deltas x xs

def sums : Nat → List Nat → List Nat
  | _, [] => []
  | acc, d :: ds => (acc + d) :: sums (acc + d) ds

theorem deltas_nil (prev : Nat) : deltas prev [] = [] := rfl

theorem deltas_cons (prev x : Nat) (xs : List Nat) :
    deltas prev (x :: xs) = (x - prev) :: deltas x xs := rfl

variable (acc : Nat)

theorem sums_nil : sums acc [] = [] := rfl

theorem sums_cons (acc d : Nat) (ds : List Nat) :
    sums acc (d :: ds) = (acc + d) :: sums (acc + d) ds := rfl

@[simp] theorem length_deltas (prev : Nat) (l : List Nat) : (deltas prev l).length = l.length := by
  induction l generalizing prev with
  | nil => rfl
  | cons x xs ih => simp [deltas_cons, ih]

@[simp] theorem length_sums (acc : Nat) (ds : List Nat) : (sums acc ds).length = ds.length := by
  induction ds generalizing acc with
  | nil => rfl
  | cons d ds ih => simp [sums_cons, ih]

theorem deltas_append (prev : Nat) (l m : List Nat) :
    deltas prev (l ++ m) = deltas prev l ++ deltas (l.getLastD prev) m := by
  induction l generalizing prev with
  | nil => rfl
  | cons x xs ih => simp only [List.cons_append, deltas_cons, ih, List.getLastD_cons]

theorem sums_append (ds es : List Nat) :
    sums acc (ds ++ es) = sums acc ds ++ sums (acc + ds.sum) es := by
  induction ds generalizing acc with
  | nil => simp [sums_nil]
  | cons d ds ih => simp [sums_cons, ih, Nat.add_assoc]

theorem getLastD_sums (ds : List Nat) : (sums acc ds).getLastD acc = acc + ds.sum := by
  induction ds generalizing acc with
  | nil => simp [sums_nil]
  | cons d ds ih =>
    rw [sums_cons, List.getLastD_cons, ih, List.sum_cons]
    omega

/-- The elements of `l` are strictly ascending and not below `prev`. -/
def From (prev : Nat) (l : List Nat) : Prop := l.Pairwise (· < ·) ∧ ∀ x ∈ l, prev ≤ x

theorem From.tail {prev x : Nat} {xs : List Nat} (h : From prev (x :: xs)) : From (x + 1) xs := by
  obtain ⟨hpair, -⟩ := h
  rw [List.pairwise_cons] at hpair
  exact ⟨hpair.2, fun y hy => hpair.1 y hy⟩

variable {l : List Nat}

theorem From.mono {prev prev' : Nat} (h : From prev l) (hle : prev' ≤ prev) : From prev' l :=
  ⟨h.1, fun x hx => Nat.le_trans hle (h.2 x hx)⟩

variable {prev : Nat}

theorem sums_deltas_of_le (hmono : l.Pairwise (· ≤ ·)) (hprev : ∀ x ∈ l, prev ≤ x) :
    sums prev (deltas prev l) = l := by
  induction l generalizing prev with
  | nil => rfl
  | cons x xs ih =>
    have hx : prev ≤ x := hprev x (by simp)
    rw [List.pairwise_cons] at hmono
    rw [deltas_cons, sums_cons, Nat.add_sub_cancel' hx, ih hmono.2 hmono.1]

theorem sums_deltas (h : From prev l) : sums prev (deltas prev l) = l :=
  sums_deltas_of_le (h.1.imp Nat.le_of_lt) h.2

theorem deltas_sums (ds : List Nat) : deltas acc (sums acc ds) = ds := by
  induction ds generalizing acc with
  | nil => rfl
  | cons d ds ih => rw [sums_cons, deltas_cons, ih, Nat.add_sub_cancel_left]

theorem deltas_pos (h : From (prev + 1) l) : ∀ d ∈ deltas prev l, 0 < d := by
  induction l generalizing prev with
  | nil => simp [deltas_nil]
  | cons x xs ih =>
    have hx : prev + 1 ≤ x := h.2 x (by simp)
    intro d hd
    rcases List.mem_cons.mp hd with rfl | hd
    · omega
    · exact ih h.tail d hd

theorem deltas_tail_pos (h : From 0 l) : ∀ d ∈ (deltas 0 l).tail, 0 < d := by
  cases l with
  | nil => simp [deltas_nil]
  | cons x xs => exact deltas_pos h.tail

variable {ds : List Nat}

theorem from_sums (h : ∀ d ∈ ds, 0 < d) : From (acc + 1) (sums acc ds) := by
  induction ds generalizing acc with
  | nil => exact ⟨List.Pairwise.nil, by simp [sums_nil]⟩
  | cons d ds ih =>
    have hd : 0 < d := h d (by simp)
    have hrec := ih (acc + d) fun e he => h e (List.mem_cons_of_mem _ he)
    refine ⟨List.pairwise_cons.mpr ⟨fun y hy => hrec.2 y hy, hrec.1⟩, ?_⟩
    intro y hy
    rcases List.mem_cons.mp hy with rfl | hy
    · omega
    · have := hrec.2 y hy
      omega

theorem sum_deltas (h : From prev l) : prev + (deltas prev l).sum = l.getLastD prev := by
  rw [← getLastD_sums, sums_deltas h]

theorem le_getLastD_of_from {prev x : Nat} (h : From prev l) (hx : x ∈ l) : x ≤ l.getLastD prev := by
  induction l generalizing prev with
  | nil => cases hx
  | cons y ys ih =>
    rw [List.getLastD_cons]
    have hfrom := h.tail.mono (Nat.le_succ y)
    rcases List.mem_cons.mp hx with rfl | hx
    · have hsum := sum_deltas hfrom
      omega
    · exact ih hfrom hx

theorem length_le_of_from {prev bound : Nat} (h : From prev l) (hlt : ∀ x ∈ l, x < bound) :
    prev + l.length ≤ max prev bound := by
  induction l generalizing prev with
  | nil => exact Nat.le_max_left prev bound
  | cons x xs ih =>
    have hx : prev ≤ x := h.2 x (by simp)
    have hbound : x < bound := hlt x (by simp)
    have hrec := ih h.tail fun y hy => hlt y (List.mem_cons_of_mem _ hy)
    rw [List.length_cons]
    omega

theorem length_le_sum (h : ∀ d ∈ ds, 0 < d) : ds.length ≤ ds.sum := by
  induction ds with
  | nil => exact Nat.le_refl 0
  | cons d ds ih =>
    have hd : 0 < d := h d (by simp)
    have hrec := ih fun e he => h e (List.mem_cons_of_mem _ he)
    rw [List.length_cons, List.sum_cons]
    omega

theorem length_le_sum_succ (h : ∀ d ∈ ds.tail, 0 < d) : ds.length ≤ ds.sum + 1 := by
  cases ds with
  | nil => exact Nat.zero_le _
  | cons d ds =>
    have hpos : ∀ e ∈ ds, 0 < e := h
    have hle := length_le_sum hpos
    rw [List.length_cons, List.sum_cons]
    omega

end Ascending
