import Mathlib.Algebra.Group.Nat.Defs
import Mathlib.Data.List.Nodup
import Mathlib.Order.Lattice

/-!
# Search by halving

The search of `std::upper_bound` for a position from which on a predicate holds. The predicate need
not be monotone: the search ends behind a position where it does not hold.
-/

namespace HalvingSearch

def search (p : Nat → Bool) : Nat → Nat → Nat → Nat
  | 0, first, _ => first
  | rounds + 1, first, len =>
    if 0 < len then
      let half := len / 2
      if p (first + half) then search p rounds first half
      else search p rounds (first + half + 1) (len - half - 1)
    else first

variable {p : Nat → Bool}

theorem search_succ (rounds first len : Nat) : search p (rounds + 1) first len =
    if 0 < len then
      let half := len / 2
      if p (first + half) then search p rounds first half
      else search p rounds (first + half + 1) (len - half - 1)
    else first := rfl

theorem le_search (p : Nat → Bool) (rounds first len : Nat) : first ≤ search p rounds first len := by
  induction rounds generalizing first len with
  | zero => exact Nat.le_refl _
  | succ rounds ih =>
    rw [search_succ]
    split
    · dsimp only
      split
      · exact ih first (len / 2)
      · have hle := ih (first + len / 2 + 1) (len - len / 2 - 1)
        omega
    · exact Nat.le_refl _

theorem search_le (p : Nat → Bool) (rounds first len : Nat) :
    search p rounds first len ≤ first + len := by
  induction rounds generalizing first len with
  | zero => exact Nat.le_add_right _ _
  | succ rounds ih =>
    rw [search_succ]
    split
    · dsimp only
      split
      · have hle := ih first (len / 2)
        omega
      · have hle := ih (first + len / 2 + 1) (len - len / 2 - 1)
        omega
    · exact Nat.le_add_right _ _

variable {rounds first len : Nat}

theorem holds_at_search (hrounds : len ≤ rounds) (h : search p rounds first len < first + len) :
    p (search p rounds first len) = true := by
  induction rounds generalizing first len with
  | zero =>
    rw [Nat.le_zero.mp hrounds] at h
    exact absurd h (Nat.lt_irrefl _)
  | succ rounds ih =>
    rw [search_succ] at h ⊢
    by_cases hlen : 0 < len
    · rw [if_pos hlen] at h ⊢
      dsimp only at h ⊢
      by_cases hp : p (first + len / 2) = true
      · rw [if_pos hp]
        rcases Nat.eq_or_lt_of_le (search_le p rounds first (len / 2)) with heq | hlt
        · rw [heq]
          exact hp
        · exact ih (by omega) hlt
      · rw [if_neg hp] at h ⊢
        exact ih (by omega) (by omega)
    · rw [if_neg hlen] at h
      omega

theorem not_before_search (h : first < search p rounds first len) :
    p (search p rounds first len - 1) = false := by
  induction rounds generalizing first len with
  | zero => exact absurd h (Nat.lt_irrefl _)
  | succ rounds ih =>
    rw [search_succ] at h ⊢
    by_cases hlen : 0 < len
    · rw [if_pos hlen] at h ⊢
      dsimp only at h ⊢
      by_cases hp : p (first + len / 2) = true
      · rw [if_pos hp] at h ⊢
        exact ih h
      · rw [if_neg hp]
        rcases Nat.eq_or_lt_of_le (le_search p rounds (first + len / 2 + 1) (len - len / 2 - 1))
          with heq | hlt
        · rw [← heq, Nat.add_sub_cancel]
          exact Bool.eq_false_iff.mpr hp
        · exact ih hlt
    · rw [if_neg hlen] at h
      exact absurd h (Nat.lt_irrefl _)

theorem holds_iff_search_le (hrounds : len ≤ rounds)
    (hmono : ∀ i j, first ≤ i → i ≤ j → j < first + len → p i = true → p j = true) {i : Nat}
    (hfirst : first ≤ i) (hi : i < first + len) : p i = true ↔ search p rounds first len ≤ i := by
  constructor
  · intro h
    by_contra hlt
    have hfalse : p (search p rounds first len - 1) = false := not_before_search (by omega)
    have hle := search_le p rounds first len
    rw [hmono i _ hfirst (by omega) (by omega) h] at hfalse
    cases hfalse
  · intro h
    have hle := le_search p rounds first len
    exact hmono _ i hle h hi (holds_at_search hrounds (by omega))

theorem lt_search (hlen : 0 < len) (hrounds : len ≤ rounds) (hfirst : p first = false) :
    first < search p rounds first len := by
  induction rounds generalizing len with
  | zero => omega
  | succ rounds ih =>
    rw [search_succ, if_pos hlen]
    dsimp only
    by_cases hp : p (first + len / 2) = true
    · have hhalf : 0 < len / 2 := by
        by_contra hzero
        rw [Nat.eq_zero_of_not_pos hzero, Nat.add_zero, hfirst] at hp
        exact Bool.false_ne_true hp
      rw [if_pos hp]
      exact ih hhalf (by omega)
    · rw [if_neg hp]
      have hle := le_search p rounds (first + len / 2 + 1) (len - len / 2 - 1)
      omega

theorem search_eq_succ_iff (hlen : 0 < len) (hrounds : len ≤ rounds) (hfirst : p first = false) :
    search p rounds first len = first + 1 ↔
      ∀ j, 0 < j → 0 < len / 2 ^ j → p (first + len / 2 ^ j) = true := by
  induction rounds generalizing len with
  | zero => omega
  | succ rounds ih =>
    rw [search_succ, if_pos hlen]
    dsimp only
    by_cases hhalf : 0 < len / 2
    · by_cases hp : p (first + len / 2) = true
      · rw [if_pos hp, ih hhalf (by omega)]
        have hshift : ∀ j, len / 2 ^ (j + 1) = len / 2 / 2 ^ j := by
          intro j
          rw [Nat.div_div_eq_div_mul, Nat.pow_succ, Nat.mul_comm]
        constructor
        · intro h j hj hpos
          obtain ⟨j, rfl⟩ := Nat.exists_eq_succ_of_ne_zero (Nat.ne_of_gt hj)
          rw [hshift] at hpos ⊢
          rcases Nat.eq_zero_or_pos j with rfl | hj
          · rwa [Nat.pow_zero, Nat.div_one]
          · exact h j hj hpos
        · intro h j _ hpos
          rw [← hshift] at hpos ⊢
          exact h (j + 1) (Nat.succ_pos j) hpos
      · rw [if_neg hp]
        have hle := le_search p rounds (first + len / 2 + 1) (len - len / 2 - 1)
        refine iff_of_false (by omega) ?_
        intro h
        apply hp
        simpa using h 1 Nat.one_pos (by simpa using hhalf)
    · have hone : len = 1 := by omega
      have hnone : ¬ p (first + 1 / 2) = true := by
        rw [Nat.add_zero, hfirst]
        exact Bool.false_ne_true
      subst hone
      rw [if_neg hnone]
      refine iff_of_true ?_ ?_
      · cases rounds with
        | zero => rfl
        | succ rounds => rfl
      · intro j hj hpos
        have hlt : 1 < 2 ^ j := Nat.one_lt_two_pow (Nat.ne_of_gt hj)
        rw [Nat.div_eq_of_lt hlt] at hpos
        exact absurd hpos (Nat.lt_irrefl 0)

end HalvingSearch

/-!
## Bisection with signed bounds

The bounds are both inside the list, and the upper one may pass below the lower one, also in front
of the first position. The division cuts towards zero, so that the middle of an empty interval is
its lower bound.
-/

namespace SignedBisection

variable {α : Type*} [LinearOrder α]

def middle (left right : Int) : Int := (right - left).tdiv 2 + left

/-- What is in front of the interval is too small, what is behind it too large. -/
structure Window (values : List α) (key : α) (left right : Int) : Prop where
  left_nonneg : 0 ≤ left
  left_lt : left < values.length
  right_lt : right < values.length
  left_le : left ≤ right + 1
  front : ∀ i (h : i < values.length), (i : Int) < left → values[i] < key
  behind : ∀ i (h : i < values.length), right < (i : Int) → key < values[i]

variable {left right : Int}

theorem middle_eq_of_le (h : left ≤ right) : middle left right = (right - left) / 2 + left := by
  rw [middle, Int.tdiv_eq_ediv_of_nonneg (by omega)]

theorem middle_of_empty (h : left = right + 1) : middle left right = left := by
  have hwidth : right - left = -1 := by omega
  rw [middle, hwidth]
  exact Int.zero_add left

theorem left_le_middle (h : left ≤ right + 1) : left ≤ middle left right := by
  rcases Int.lt_or_eq_of_le h with hle | hempty
  · rw [middle_eq_of_le (by omega)]
    omega
  · exact Int.le_of_eq (middle_of_empty hempty).symm

theorem middle_lt_right (h : left < right) : middle left right < right := by
  rw [middle_eq_of_le (by omega)]
  omega

theorem middle_eq_left (hle : left ≤ right + 1) (h : ¬ left < right) : middle left right = left := by
  rcases Int.lt_or_eq_of_le hle with hlt | hempty
  · rw [middle_eq_of_le (by omega)]
    omega
  · exact middle_of_empty hempty

namespace Window

variable {values : List α} {key : α} {left right : Int}

theorem whole (h : 0 < values.length) : Window values key 0 (values.length - 1) where
  left_nonneg := Int.le_refl _
  left_lt := by omega
  right_lt := by omega
  left_le := by omega
  front i hi hlt := by omega
  behind i hi hlt := by omega

theorem exists_middle (h : Window values key left right) :
    ∃ m : Nat, m < values.length ∧ middle left right = m := by
  have hleft := h.left_nonneg
  have hle := left_le_middle h.left_le
  refine ⟨(middle left right).toNat, ?_, by omega⟩
  have hlt : middle left right < values.length := by
    by_cases hlr : left < right
    · exact Int.lt_trans (middle_lt_right hlr) h.right_lt
    · rw [middle_eq_left h.left_le hlr]
      exact h.left_lt
  omega

theorem toRight (h : Window values key left right) (hsorted : values.Pairwise (· ≤ ·))
    (hlr : left < right) {m : Nat} (hm : m < values.length) (hmiddle : middle left right = m)
    (hlt : values[m] < key) : Window values key (m + 1) right where
  left_nonneg := by omega
  left_lt := by
    have hright := h.right_lt
    have hmid := middle_lt_right hlr
    omega
  right_lt := h.right_lt
  left_le := by
    have hmid := middle_lt_right hlr
    omega
  front i hi hfront := by
    have him : i ≤ m := by omega
    rcases Nat.eq_or_lt_of_le him with rfl | hbefore
    · exact hlt
    · exact (List.pairwise_iff_getElem.mp hsorted i m hi hm hbefore).trans_lt hlt
  behind := h.behind

theorem toLeft (h : Window values key left right) (hsorted : values.Pairwise (· ≤ ·))
    {m : Nat} (hm : m < values.length) (hmiddle : middle left right = m)
    (hlt : key < values[m]) : Window values key left (m - 1) where
  left_nonneg := h.left_nonneg
  left_lt := h.left_lt
  right_lt := by omega
  left_le := by
    have hle := left_le_middle h.left_le
    omega
  front := h.front
  behind i hi hbehind := by
    have hmi : m ≤ i := by omega
    rcases Nat.eq_or_lt_of_le hmi with rfl | hafter
    · exact hlt
    · exact hlt.trans_le (List.pairwise_iff_getElem.mp hsorted m i hm hi hafter)

theorem not_mem (h : Window values key left right) (hlr : ¬ left < right) {m : Nat}
    (hm : m < values.length) (hmiddle : middle left right = m) (hne : values[m] ≠ key) :
    key ∉ values := by
  intro hmem
  obtain ⟨i, hi, rfl⟩ := List.mem_iff_getElem.mp hmem
  have hleft := middle_eq_left h.left_le hlr
  rcases Nat.lt_trichotomy i m with hfront | rfl | hbehind
  · exact absurd (h.front i hi (by omega)) (lt_irrefl _)
  · exact hne rfl
  · exact absurd (h.behind i hi (by omega)) (lt_irrefl _)

end Window

def Found (values : List α) (key : α) (npos r : Nat) : Prop :=
  (∃ h : r < values.length, values[r] = key) ∨ (key ∉ values ∧ r = npos)

theorem Found.eq_idxOf {values : List α} {key : α} {npos r : Nat} (hnodup : values.Nodup)
    (h : Found values key npos r) : r = if key ∈ values then values.idxOf key else npos := by
  rcases h with ⟨hr, rfl⟩ | ⟨hmem, rfl⟩
  · rw [if_pos (List.getElem_mem hr), hnodup.idxOf_getElem r hr]
  · rw [if_neg hmem]

end SignedBisection
