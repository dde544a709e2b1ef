import Mathlib.Analysis.SpecialFunctions.Log.Base
import Sserialize.Storage.Bytes

/-!
# Position of the highest set bit

`msb` fills the bits below the highest one and looks the result up in a table. The logarithms of
`logTo2` are real numbers here: the rounding of `double` is not modelled.
-/

namespace Sserialize

def multiplyDeBruijnBitPosition : List Nat :=
  [0, 9, 1, 10, 13, 21, 2, 29, 11, 14, 16, 18, 22, 25, 3, 30,
    8, 12, 20, 28, 15, 17, 24, 7, 19, 27, 23, 6, 26, 5, 4, 31]

def msb (v : Nat) : Nat :=
  let v := v ||| v >>> 1
  let v := v ||| v >>> 2
  let v := v ||| v >>> 4
  let v := v ||| v >>> 8
  let v := v ||| v >>> 16
  multiplyDeBruijnBitPosition.getD (u32 (v * 0x07C4ACDD) >>> 27) 0

/-- Bit `i` of `s` tells whether `v` has one of the `k` bits from `i` on. -/
def Spread (v s k : Nat) : Prop :=
  ∀ i, s.testBit i = true ↔ ∃ j < k, v.testBit (i + j) = true

theorem spread_one (v : Nat) : Spread v v 1 := by
  intro i
  constructor
  · intro h
    exact ⟨0, Nat.one_pos, h⟩
  · rintro ⟨j, hj, h⟩
    obtain rfl : j = 0 := by omega
    exact h

theorem Spread.double {v s k : Nat} (h : Spread v s k) : Spread v (s ||| s >>> k) (2 * k) := by
  intro i
  rw [Nat.testBit_or, Nat.testBit_shiftRight, Bool.or_eq_true, h i, h (k + i)]
  constructor
  · rintro (⟨j, hj, hbit⟩ | ⟨j, hj, hbit⟩)
    · exact ⟨j, by omega, hbit⟩
    · refine ⟨k + j, by omega, ?_⟩
      rw [← Nat.add_assoc, Nat.add_comm i k]
      exact hbit
  · rintro ⟨j, hj, hbit⟩
    by_cases hlow : j < k
    · exact .inl ⟨j, hlow, hbit⟩
    · refine .inr ⟨j - k, by omega, ?_⟩
      have hpos : k + i + (j - k) = i + j := by omega
      rw [hpos]
      exact hbit

theorem Spread.eq {v s : Nat} (h : Spread v s 32) (hv : v ≠ 0) (hlt : v < 2 ^ 32) :
    s = 2 ^ (Nat.log2 v + 1) - 1 := by
  have hlog : Nat.log2 v < 32 := (Nat.log2_lt hv).mpr hlt
  apply Nat.eq_of_testBit_eq
  intro i
  rw [Nat.testBit_two_pow_sub_one, Bool.eq_iff_iff, decide_eq_true_iff, h i]
  constructor
  · rintro ⟨j, -, hbit⟩
    by_contra hout
    have hpow : v < 2 ^ (i + j) := by
      have hself := (Nat.log2_lt hv).mp (Nat.lt_succ_self (Nat.log2 v))
      exact hself.trans_le (Nat.pow_le_pow_right (by decide) (by omega))
    rw [Nat.testBit_lt_two_pow hpow] at hbit
    cases hbit
  · intro hi
    refine ⟨Nat.log2 v - i, by omega, ?_⟩
    have hpos : i + (Nat.log2 v - i) = Nat.log2 v := by omega
    rw [hpos]
    exact Nat.testBit_log2 hv

theorem multiplyDeBruijnBitPosition_spec : ∀ k < 32,
    multiplyDeBruijnBitPosition.getD (u32 ((2 ^ (k + 1) - 1) * 0x07C4ACDD) >>> 27) 0 = k := by
  decide +kernel

theorem msb_eq_log2 {v : Nat} (hv : v ≠ 0) (hlt : v < 2 ^ 32) : msb v = Nat.log2 v := by
  have hspread := (((((spread_one v).double).double).double).double).double
  have hfilled := hspread.eq hv hlt
  unfold msb
  simp only [Nat.mul_one, Nat.reduceMul] at hfilled
  simp only [hfilled]
  exact multiplyDeBruijnBitPosition_spec _ ((Nat.log2_lt hv).mpr hlt)

theorem msb_zero : msb 0 = 0 := by decide

theorem msb_two_pow {k : Nat} (hk : k < 32) : msb (2 ^ k) = k := by
  rw [msb_eq_log2 (Nat.two_pow_pos k).ne' (Nat.pow_lt_pow_right (by decide) hk), Nat.log2_two_pow]

/-- `msb(uint64_t)`. -/
def msb64 (v : Nat) : Nat :=
  if v >>> 32 ≠ 0 then msb (u32 (v >>> 32)) + 32 else msb (u32 v)

theorem lt_two_pow_msb64 {v : Nat} (hv : v < 2 ^ 64) : v < 2 ^ (msb64 v + 1) := by
  unfold msb64
  rw [Nat.shiftRight_eq_div_pow]
  by_cases hhigh : v / 2 ^ 32 = 0
  · rw [if_neg (not_not_intro hhigh), u32_of_lt (by omega)]
    by_cases hzero : v = 0
    · rw [hzero, msb_zero]
      decide
    · rw [msb_eq_log2 hzero (by omega)]
      exact Nat.lt_log2_self
  · have hlt : v / 2 ^ 32 < 2 ^ 32 := by omega
    rw [if_pos hhigh, u32_of_lt hlt, msb_eq_log2 hhigh hlt]
    have hself := Nat.lt_log2_self (n := v / 2 ^ 32)
    have hpow : 2 ^ (Nat.log2 (v / 2 ^ 32) + 32 + 1) =
        2 ^ 32 * 2 ^ (Nat.log2 (v / 2 ^ 32) + 1) := by
      rw [← Nat.pow_add]
      congr 1
      omega
    rw [hpow]
    exact (Nat.div_lt_iff_lt_mul (Nat.two_pow_pos 32)).mp hself |>.trans_eq (Nat.mul_comm _ _)

theorem msb64_lt (v : Nat) : msb64 v < 64 := by
  have hmsb : ∀ n, n < 2 ^ 32 → msb n < 32 := by
    intro n hn
    by_cases hzero : n = 0
    · rw [hzero, msb_zero]
      decide
    · rw [msb_eq_log2 hzero hn]
      exact (Nat.log2_lt hzero).mpr hn
  have hhigh := hmsb (u32 (v >>> 32)) (u32_lt _)
  have hlow := hmsb (u32 v) (u32_lt _)
  unfold msb64
  split <;> omega

end Sserialize
