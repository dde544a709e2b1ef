import Sserialize.Library.Ascending
import Sserialize.Library.BitString

/-!
# Sets of numbers as bit lists

The positions of the set bits of a list, in ascending order, and the bits of a number from the
lowest one on.
-/

namespace SetBits

open BitString

/-! ## Positions -/

/-- The positions of the set bits, counted from `base`. -/
def positions : Nat → List Bool → List Nat
  | _, [] => []
  | base, b :: bs => if b then base :: positions (base + 1) bs else positions (base + 1) bs

variable (base : Nat)

theorem positions_nil : positions base [] = [] := rfl

theorem positions_cons (b : Bool) (bs : List Bool) :
    positions base (b :: bs) =
      if b then base :: positions (base + 1) bs else positions (base + 1) bs := rfl

theorem positions_append (bs cs : List Bool) :
    positions base (bs ++ cs) = positions base bs ++ positions (base + bs.length) cs := by
  induction bs generalizing base with
  | nil => rfl
  | cons b bs ih =>
    have hlen : base + (b :: bs).length = base + 1 + bs.length := by
      rw [List.length_cons]
      omega
    rw [List.cons_append, positions_cons, positions_cons, ih, hlen]
    split
    · rfl
    · rfl

@[simp] theorem positions_replicate_false (base n : Nat) :
    positions base (List.replicate n false) = [] := by
  induction n generalizing base with
  | zero => rfl
  | succ n ih => simp [List.replicate_succ, positions_cons, ih]

theorem positions_replicate_true (base n : Nat) :
    positions base (List.replicate n true) = List.range' base n := by
  induction n generalizing base with
  | zero => rfl
  | succ n ih => rw [List.replicate_succ, positions_cons, if_pos rfl, ih, List.range'_succ]

theorem mem_positions {i base : Nat} {bs : List Bool} :
    i ∈ positions base bs ↔ base ≤ i ∧ bs.getD (i - base) false = true := by
  induction bs generalizing base with
  | nil => simp [positions_nil]
  | cons b bs ih =>
    have htail : i ∈ positions (base + 1) bs ↔
        base < i ∧ (b :: bs).getD (i - base) false = true := by
      rw [ih, Nat.succ_le_iff]
      refine and_congr_right fun hlt => ?_
      obtain ⟨j, rfl⟩ : ∃ j, i = base + (j + 1) := ⟨i - base - 1, by omega⟩
      have hpred : base + (j + 1) - (base + 1) = j := by omega
      rw [hpred, Nat.add_sub_cancel_left, List.getD_cons_succ]
    have hhead : i = base → (b :: bs).getD (i - base) false = b := by
      rintro rfl
      rw [Nat.sub_self, List.getD_cons_zero]
    rw [positions_cons]
    rcases Nat.lt_trichotomy i base with hlt | rfl | hgt
    · have hnot : ¬ base ≤ i := by omega
      have hnot' : ¬ base < i := by omega
      have hne : i ≠ base := by omega
      split <;> simp [htail, hnot, hnot', hne]
    · rw [hhead rfl]
      cases b <;> simp [htail]
    · have hle : base ≤ i := by omega
      have hne : i ≠ base := by omega
      split <;> simp [htail, hgt, hle, hne]

theorem from_positions (bs : List Bool) : Ascending.From base (positions base bs) := by
  induction bs generalizing base with
  | nil => exact ⟨List.Pairwise.nil, by simp [positions_nil]⟩
  | cons b bs ih =>
    have htail := ih (base + 1)
    rw [positions_cons]
    split
    · refine ⟨List.pairwise_cons.mpr ⟨fun y hy => htail.2 y hy, htail.1⟩, ?_⟩
      intro x hx
      rcases List.mem_cons.mp hx with rfl | hx
      · exact Nat.le_refl _
      · exact (Nat.le_succ base).trans (htail.2 x hx)
    · exact htail.mono (Nat.le_succ base)

@[simp] theorem positions_append_replicate (base n : Nat) (bs : List Bool) :
    positions base (bs ++ List.replicate n false) = positions base bs := by
  rw [positions_append, positions_replicate_false, List.append_nil]

/-- How many numbers are missing between the elements of a list from `lo` on. -/
def gaps : Nat → List Nat → List Nat
  | _, [] => []
  | lo, x :: xs => (x - lo) :: gaps (x + 1) xs

def lowFirst : Nat → Nat → List Bool
  | 0, _ => []
  | k + 1, n => n.testBit 0 :: lowFirst k (n >>> 1)

@[simp] theorem lowFirst_none (n : Nat) : lowFirst 0 n = [] := rfl

theorem lowFirst_succ (k n : Nat) :
    lowFirst (k + 1) n = n.testBit 0 :: lowFirst k (n >>> 1) := rfl

@[simp] theorem length_lowFirst (k n : Nat) : (lowFirst k n).length = k := by
  induction k generalizing n with
  | zero => rfl
  | succ k ih => rw [lowFirst_succ, List.length_cons, ih]

theorem getD_lowFirst (k n i : Nat) :
    (lowFirst k n).getD i false = (decide (i < k) && n.testBit i) := by
  induction k generalizing n i with
  | zero => simp
  | succ k ih =>
    cases i with
    | zero => simp [lowFirst_succ]
    | succ i =>
      rw [lowFirst_succ, List.getD_cons_succ, ih, Nat.testBit_shiftRight, Nat.add_comm 1 i]
      simp

theorem lowFirst_zero (k : Nat) : lowFirst k 0 = List.replicate k false := by
  induction k with
  | zero => rfl
  | succ k ih => rw [lowFirst_succ, Nat.zero_testBit, Nat.zero_shiftRight, ih, List.replicate_succ]

theorem lowFirst_add (k m n : Nat) :
    lowFirst (k + m) n = lowFirst k n ++ lowFirst m (n >>> k) := by
  induction k generalizing n with
  | zero => simp
  | succ k ih =>
    rw [Nat.succ_add, lowFirst_succ, ih, lowFirst_succ, List.cons_append, ← Nat.shiftRight_add,
      Nat.add_comm 1 k]

theorem lowFirst_congr {k m n : Nat} (h : ∀ i < k, m.testBit i = n.testBit i) :
    lowFirst k m = lowFirst k n := by
  induction k generalizing m n with
  | zero => rfl
  | succ k ih =>
    have htail : lowFirst k (m >>> 1) = lowFirst k (n >>> 1) := by
      refine ih fun i hi => ?_
      rw [Nat.testBit_shiftRight, Nat.testBit_shiftRight]
      exact h _ (by omega)
    rw [lowFirst_succ, lowFirst_succ, h 0 (Nat.succ_pos k), htail]

theorem lowFirst_ones (k : Nat) : lowFirst k (2 ^ k - 1) = List.replicate k true := by
  refine List.ext_getElem (by simp) fun i hi hi' => ?_
  have hget := getD_lowFirst k (2 ^ k - 1) i
  rw [length_lowFirst] at hi
  rw [List.getD_eq_getElem _ _ (by simpa using hi), Nat.testBit_two_pow_sub_one] at hget
  rw [hget]
  simp [hi]

theorem lowBits_eq_reverse (k n : Nat) : lowBits k n = (lowFirst k n).reverse := by
  induction k with
  | zero => rfl
  | succ k ih =>
    rw [lowBits, lowFirst_add, List.reverse_append, ← ih, lowFirst, lowFirst, List.reverse_singleton,
      Nat.testBit_shiftRight, Nat.add_zero]
    rfl

theorem positions_lowFirst_odd (base k : Nat) {n : Nat} (hodd : n &&& 1 ≠ 0) :
    positions base (lowFirst (k + 1) n) = base :: positions (base + 1) (lowFirst k (n >>> 1)) := by
  have hbit : n.testBit 0 = true := by
    rw [Nat.testBit_zero, decide_eq_true_eq]
    rw [Nat.and_one_is_mod] at hodd
    omega
  rw [lowFirst_succ, positions_cons, if_pos hbit]

theorem positions_lowFirst_even (base k : Nat) {n : Nat} (heven : n &&& 1 = 0) :
    positions base (lowFirst (k + 1) n) = positions (base + 1) (lowFirst k (n >>> 1)) := by
  have hbit : n.testBit 0 = false := by
    rw [Nat.testBit_zero, decide_eq_false_iff_not]
    rw [Nat.and_one_is_mod] at heven
    omega
  rw [lowFirst_succ, positions_cons, if_neg (by rw [hbit]; exact Bool.false_ne_true)]

theorem length_positions (bs : List Bool) : (positions base bs).length = bs.count true := by
  induction bs generalizing base with
  | nil => rfl
  | cons b bs ih => cases b <;> simp [positions_cons, ih]

theorem eq_lowFirst {k n : Nat} {bs : List Bool} (hlen : bs.length = k)
    (h : ∀ i < k, bs.getD i false = n.testBit i) : bs = lowFirst k n := by
  refine List.ext_getElem (by simp [hlen]) fun i hi hi' => ?_
  have hget := getD_lowFirst k n i
  rw [List.getD_eq_getElem _ _ hi'] at hget
  have hbit := h i (by omega)
  rw [List.getD_eq_getElem _ _ hi] at hbit
  have hik : i < k := by omega
  rw [hbit, hget]
  simp [hik]

/-! ## The bits of bytes, lowest first -/

def byteBits (data : List UInt8) : List Bool := data.flatMap fun b => lowFirst 8 b.toNat

@[simp] theorem byteBits_nil : byteBits [] = [] := rfl

theorem byteBits_cons (b : UInt8) (data : List UInt8) :
    byteBits (b :: data) = lowFirst 8 b.toNat ++ byteBits data := by
  simp [byteBits]

variable (data : List UInt8)

theorem length_byteBits : (byteBits data).length = 8 * data.length := by
  induction data with
  | nil => rfl
  | cons b data ih =>
    rw [byteBits_cons, List.length_append, length_lowFirst, ih, List.length_cons]
    omega

theorem getD_byteBits (i : Nat) : (byteBits data).getD i false = bit data i := by
  induction data generalizing i with
  | nil => simp
  | cons b data ih =>
    rw [byteBits_cons]
    by_cases hi : i < 8
    · have hdiv : i / 8 = 0 := Nat.div_eq_of_lt hi
      rw [List.getD_append _ _ _ _ (by rwa [length_lowFirst]), getD_lowFirst, decide_eq_true hi,
        Bool.true_and, bit, hdiv, Nat.mod_eq_of_lt hi]
      rfl
    · obtain ⟨j, rfl⟩ := Nat.exists_eq_add_of_le (Nat.le_of_not_lt hi)
      rw [List.getD_append_right _ _ _ _ (by rw [length_lowFirst]; omega), length_lowFirst,
        Nat.add_sub_cancel_left, ih]
      exact (bit_append_right [b] data j).symm

theorem count_byteBits : (byteBits data).count true = (bits data).count true := by
  induction data with
  | nil => rfl
  | cons b data ih =>
    rw [byteBits_cons, bits_cons, List.count_append, List.count_append, ih, lowBits_eq_reverse,
      List.count_reverse]

end SetBits
