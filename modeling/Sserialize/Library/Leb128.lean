import Mathlib.Algebra.Group.Nat.Defs
import Mathlib.Data.Nat.Basic

/-!
# Base-128 groups

The little-endian base-128 code of a natural number: seven value bits in a byte, the top bit set
on every byte but the last. A code word is at most `groups` bytes long.
-/

namespace Leb128

def encode : Nat → Nat → List UInt8
  | 0, _ => []
  | groups + 1, n =>
    if n / 128 = 0 then [UInt8.ofNat n]
    else UInt8.ofNat (n % 128 + 128) :: encode groups (n / 128)

/-- Reads one code word and returns its value with the unread bytes. The top bit of the last
group is ignored, as it is by a reader that only counts groups. -/
def decode : Nat → List UInt8 → Option (Nat × List UInt8)
  | 0, bytes => some (0, bytes)
  | _ + 1, [] => none
  | groups + 1, b :: bytes =>
    if b.toNat < 128 then some (b.toNat, bytes)
    else (decode groups bytes).map fun (v, rest) => (b.toNat % 128 + 128 * v, rest)

/-- The number of base-128 digits of `n`. -/
def size : Nat → Nat → Nat
  | 0, _ => 0
  | groups + 1, n => if n / 128 = 0 then 1 else 1 + size groups (n / 128)

variable (groups n : Nat)

theorem length_encode : (encode groups n).length = size groups n := by
  induction groups generalizing n with
  | zero => rfl
  | succ groups ih =>
    unfold encode size
    split
    · rfl
    · rw [List.length_cons, ih, Nat.add_comm]

theorem size_le : size groups n ≤ groups := by
  induction groups generalizing n with
  | zero => exact Nat.le_refl 0
  | succ groups ih =>
    unfold size
    split
    · omega
    · have hrec := ih (n / 128)
      omega

theorem size_pos : 0 < size (groups + 1) n := by
  unfold size
  split <;> omega

theorem encode_ne_nil : encode (groups + 1) n ≠ [] := by
  intro hnil
  have hlen := length_encode (groups + 1) n
  have hpos := size_pos groups n
  rw [hnil, List.length_nil] at hlen
  omega

theorem size_mono (groups : Nat) {m n : Nat} (h : m ≤ n) : size groups m ≤ size groups n := by
  induction groups generalizing m n with
  | zero => exact Nat.le_refl 0
  | succ groups ih =>
    have hdiv : m / 128 ≤ n / 128 := Nat.div_le_div_right h
    have hrec := ih hdiv
    unfold size
    split <;> split <;> omega

theorem size_le_of_lt {n k : Nat} (groups : Nat) (h : n < 128 ^ (k + 1)) :
    size groups n ≤ k + 1 := by
  induction k generalizing groups n with
  | zero =>
    cases groups with
    | zero => exact Nat.zero_le _
    | succ groups =>
      have hzero : n / 128 = 0 := by omega
      simp [size, hzero]
  | succ k ih =>
    cases groups with
    | zero => exact Nat.zero_le _
    | succ groups =>
      have hlt : n / 128 < 128 ^ (k + 1) := by
        rw [Nat.pow_succ] at h
        omega
      have hrec := ih groups hlt
      unfold size
      split <;> omega

theorem decode_encode {groups n : Nat} (hgroups : 0 < groups) (hn : n < 128 ^ groups)
    (rest : List UInt8) : decode groups (encode groups n ++ rest) = some (n, rest) := by
  induction groups generalizing n with
  | zero => omega
  | succ groups ih =>
    unfold encode
    by_cases hlast : n / 128 = 0
    · have hbyte : (UInt8.ofNat n).toNat = n := by
        rw [UInt8.toNat_ofNat']
        omega
      have hsmall : n < 128 := by omega
      simp only [hlast, if_true, List.singleton_append, decode, hbyte, hsmall]
    · have hbyte : (UInt8.ofNat (n % 128 + 128)).toNat = n % 128 + 128 := by
        rw [UInt8.toNat_ofNat']
        omega
      have hmore : ¬ n % 128 + 128 < 128 := by omega
      have hpos : 0 < groups := by
        by_contra hzero
        have : groups = 0 := by omega
        subst this
        omega
      have hdiv : n / 128 < 128 ^ groups := by
        rw [Nat.pow_succ] at hn
        omega
      simp only [hlast, if_false, List.cons_append, decode, hbyte, hmore, ih hpos hdiv,
        Option.map_some]
      have hvalue : (n % 128 + 128) % 128 + 128 * (n / 128) = n := by omega
      rw [hvalue]

theorem decode_take {groups n k : Nat} (hk : k < (encode groups n).length) :
    decode groups ((encode groups n).take k) = none := by
  induction groups generalizing n k with
  | zero => cases hk
  | succ groups ih =>
    cases k with
    | zero => rfl
    | succ k =>
      unfold encode at hk ⊢
      by_cases hlast : n / 128 = 0
      · rw [if_pos hlast, List.length_singleton] at hk
        omega
      · have hbyte : (UInt8.ofNat (n % 128 + 128)).toNat = n % 128 + 128 := by
          rw [UInt8.toNat_ofNat']
          omega
        have hmore : ¬ n % 128 + 128 < 128 := by omega
        rw [if_neg hlast, List.length_cons] at hk
        have hrec := ih (Nat.lt_of_succ_lt_succ hk)
        rw [if_neg hlast, List.take_succ_cons, decode, hbyte, if_neg hmore, hrec]
        rfl

theorem length_rest_le {groups : Nat} {bytes rest : List UInt8} {n : Nat}
    (h : decode groups bytes = some (n, rest)) : rest.length ≤ bytes.length := by
  induction groups generalizing bytes n with
  | zero =>
    obtain ⟨rfl, rfl⟩ : 0 = n ∧ bytes = rest := by simpa [decode] using h
    exact Nat.le_refl _
  | succ groups ih =>
    cases bytes with
    | nil => simp [decode] at h
    | cons b bytes =>
      rw [decode] at h
      split at h
      · obtain ⟨-, rfl⟩ : b.toNat = n ∧ bytes = rest := by simpa using h
        simp
      · obtain ⟨⟨v, rest'⟩, hdec, heq⟩ := Option.map_eq_some_iff.mp h
        obtain ⟨-, rfl⟩ : b.toNat % 128 + 128 * v = n ∧ rest' = rest := by simpa using heq
        have hrec := ih hdec
        rw [List.length_cons]
        omega

end Leb128
