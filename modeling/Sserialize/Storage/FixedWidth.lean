import Sserialize.Library.BitString
import Sserialize.Storage.Bytes

/-! # Access to single bytes and to fixed width integers, little endian -/

namespace Sserialize

def byteAt (data : Bytes) (pos : Nat) : Except Fault UInt8 :=
  if pos + 1 ≤ data.length then .ok (data.getD pos 0) else .error .outOfBounds

def modifyByte (data : Bytes) (pos : Nat) (f : UInt8 → UInt8) : Except Fault Bytes :=
  if pos + 1 ≤ data.length then .ok (data.modify pos f) else .error .outOfBounds

def leValue : Bytes → Nat
  | [] => 0
  | b :: bs => b.toNat + 256 * leValue bs

def leBytes : Nat → Nat → Bytes
  | 0, _ => []
  | width + 1, value => UInt8.ofNat value :: leBytes width (value / 256)

/-- `getUint8`, `getUint16`, `getUint24` and `getUint32` for widths of one to four bytes. -/
def getUint (width : Nat) (data : Bytes) (pos : Nat) : Except Fault Nat :=
  if pos + width ≤ data.length then .ok (leValue ((data.drop pos).take width))
  else .error .outOfBounds

/-- `putUint8`, `putUint16`, `putUint24` and `putUint32` at a position. -/
def putUint (width : Nat) (data : Bytes) (pos value : Nat) : Except Fault Bytes :=
  if pos + width ≤ data.length then
    .ok (data.take pos ++ leBytes width value ++ data.drop (pos + width))
  else .error .outOfBounds

@[simp] theorem length_leBytes (width value : Nat) : (leBytes width value).length = width := by
  induction width generalizing value with
  | zero => rfl
  | succ width ih => rw [leBytes, List.length_cons, ih]

open BitString

theorem bit_leBytes {width value i : Nat} (hi : i < 8 * width) :
    bit (leBytes width value) i = value.testBit i := by
  induction width generalizing value i with
  | zero => omega
  | succ width ih =>
    by_cases hfirst : i < 8
    · have hdiv : i / 8 = 0 := by omega
      have hmod : i % 8 = i := by omega
      rw [bit, hdiv, hmod, leBytes, List.getD_cons_zero, UInt8.toNat_ofNat', Nat.testBit_mod_two_pow]
      simp [hfirst]
    · obtain ⟨j, rfl⟩ : ∃ j, i = 8 + j := ⟨i - 8, by omega⟩
      have hcons : leBytes (width + 1) value =
          [UInt8.ofNat value] ++ leBytes width (value / 256) := rfl
      have hshift : (8 + j : Nat) = 8 * [UInt8.ofNat value].length + j := rfl
      rw [hcons, hshift, bit_append_right, ih (by omega)]
      have hdiv : value / 256 = value >>> 8 := by rw [Nat.shiftRight_eq_div_pow]
      rw [hdiv, Nat.testBit_shiftRight]
      rfl

theorem leValue_lt (data : Bytes) : leValue data < 2 ^ (8 * data.length) := by
  induction data with
  | nil => exact Nat.one_pos
  | cons b bs ih =>
    have hb := b.toNat_lt
    rw [leValue, List.length_cons, Nat.mul_add, Nat.pow_add]
    omega

theorem testBit_leValue (data : Bytes) (i : Nat) : (leValue data).testBit i = bit data i := by
  induction data generalizing i with
  | nil => simp [leValue]
  | cons b bs ih =>
    have hb := b.toNat_lt
    have hvalue : leValue (b :: bs) = 2 ^ 8 * leValue bs + b.toNat := by
      rw [leValue]
      omega
    rw [hvalue, Nat.testBit_two_pow_mul_add _ hb]
    by_cases hfirst : i < 8
    · have hdiv : i / 8 = 0 := by omega
      have hmod : i % 8 = i := by omega
      rw [if_pos hfirst, bit, hdiv, hmod]
      rfl
    · obtain ⟨j, rfl⟩ : ∃ j, i = 8 + j := ⟨i - 8, by omega⟩
      have hshift : (8 + j : Nat) = 8 * [b].length + j := rfl
      rw [if_neg hfirst, ih, Nat.add_sub_cancel_left, ← List.singleton_append, hshift,
        bit_append_right]

theorem bit_take_drop (data : Bytes) (pos width i : Nat) (hi : i < 8 * width) :
    bit ((data.drop pos).take width) i = bit data (8 * pos + i) := by
  have hdiv : (8 * pos + i) / 8 = pos + i / 8 := by omega
  have hmod : (8 * pos + i) % 8 = i % 8 := by omega
  have hlt : i / 8 < width := by omega
  rw [bit, bit, hdiv, hmod]
  simp [List.getD, hlt]

theorem leValue_leBytes {width value : Nat} (h : value < 2 ^ (8 * width)) :
    leValue (leBytes width value) = value := by
  induction width generalizing value with
  | zero =>
    have hzero : value = 0 := by simpa using h
    rw [hzero]
    rfl
  | succ width ih =>
    have hdiv : value / 256 < 2 ^ (8 * width) := by
      rw [Nat.mul_succ, Nat.pow_add] at h
      exact Nat.div_lt_of_lt_mul (by omega)
    rw [leBytes, leValue, ih hdiv, UInt8.toNat_ofNat']
    omega

theorem getUint_of_drop {width value pos : Nat} {data rest : Bytes} (h : value < 2 ^ (8 * width))
    (hwidth : 0 < width) (hdrop : data.drop pos = leBytes width value ++ rest) :
    getUint width data pos = .ok value := by
  have hlen := congrArg List.length hdrop
  rw [List.length_drop, List.length_append, length_leBytes] at hlen
  have htake : (leBytes width value ++ rest).take width = leBytes width value :=
    List.take_left' (length_leBytes width value)
  rw [getUint, if_pos (by omega), hdrop, htake, leValue_leBytes h]

theorem getUint_spec {width pos : Nat} {data : Bytes} (hpos : pos + width ≤ data.length) :
    ∃ v, getUint width data pos = .ok v ∧ v < 2 ^ (8 * width) ∧
      ∀ i < 8 * width, v.testBit i = bit data (8 * pos + i) := by
  refine ⟨_, if_pos hpos, ?_, ?_⟩
  · have hlt := leValue_lt ((data.drop pos).take width)
    have hlen : ((data.drop pos).take width).length = width := by
      rw [List.length_take, List.length_drop]
      omega
    rwa [hlen] at hlt
  · intro i hi
    rw [testBit_leValue, bit_take_drop _ _ _ _ hi]

theorem putUint_spec {width pos : Nat} {data : Bytes} (value : Nat)
    (hpos : pos + width ≤ data.length) :
    ∃ data', putUint width data pos value = .ok data' ∧ data'.length = data.length ∧
      ∀ i, bit data' i = if 8 * pos ≤ i ∧ i < 8 * pos + 8 * width then value.testBit (i - 8 * pos)
        else bit data i := by
  have htake : (data.take pos).length = pos := by
    rw [List.length_take]
    omega
  refine ⟨_, if_pos hpos, ?_, ?_⟩
  · simp only [List.length_append, htake, length_leBytes, List.length_drop]
    omega
  · intro i
    rw [List.append_assoc]
    by_cases hlow : i < 8 * pos
    · rw [if_neg (by omega), bit_append_left (by omega), bit, bit]
      have hlt : i / 8 < pos := by omega
      simp [List.getD, hlt]
    · obtain ⟨j, rfl⟩ : ∃ j, i = 8 * pos + j := ⟨i - 8 * pos, by omega⟩
      have hfront := bit_append_right (data.take pos) (leBytes width value ++
        data.drop (pos + width)) j
      rw [htake] at hfront
      rw [hfront, Nat.add_sub_cancel_left]
      by_cases hmid : j < 8 * width
      · rw [if_pos (by omega), bit_append_left (by rw [length_leBytes]; omega), bit_leBytes hmid]
      · obtain ⟨k, rfl⟩ : ∃ k, j = 8 * width + k := ⟨j - 8 * width, by omega⟩
        have hback := bit_append_right (leBytes width value) (data.drop (pos + width)) k
        rw [length_leBytes] at hback
        rw [if_neg (by omega), hback]
        have hdiv : (8 * pos + (8 * width + k)) / 8 = pos + width + k / 8 := by omega
        have hmod : (8 * pos + (8 * width + k)) % 8 = k % 8 := by omega
        rw [bit, bit, hdiv, hmod]
        simp [List.getD]

end Sserialize

/-! ## Big endian integers in a buffer, as `memmove` and `betoh` access them -/

namespace Sserialize

open BitString

def beValue : Bytes → Nat
  | [] => 0
  | b :: bs => b.toNat <<< (8 * bs.length) ||| beValue bs

def beBytes : Nat → Nat → Bytes
  | 0, _ => []
  | width + 1, value => UInt8.ofNat (value >>> (8 * width)) :: beBytes width value

/-- `memmove` of `width` bytes into an integer and `betoh`. -/
def loadBe (width : Nat) (src : Bytes) (pos : Nat) : Except Fault Nat :=
  if pos + width ≤ src.length then .ok (beValue ((src.drop pos).take width))
  else .error .undefinedBehaviour

def storeBe (width : Nat) (dest : Bytes) (pos value : Nat) : Except Fault Bytes :=
  if pos + width ≤ dest.length then
    .ok (dest.take pos ++ beBytes width value ++ dest.drop (pos + width))
  else .error .undefinedBehaviour

@[simp] theorem length_beBytes (width value : Nat) : (beBytes width value).length = width := by
  induction width with
  | zero => rfl
  | succ width ih => rw [beBytes, List.length_cons, ih]

theorem beValue_lt (data : Bytes) : beValue data < 2 ^ (8 * data.length) := by
  induction data with
  | nil => exact Nat.one_pos
  | cons b bs ih =>
    have hb : b.toNat <<< (8 * bs.length) < 2 ^ (8 * (bs.length + 1)) := by
      have hlt := b.toNat_lt
      rw [Nat.shiftLeft_eq, Nat.mul_succ, Nat.add_comm, Nat.pow_add]
      exact Nat.mul_lt_mul_of_pos_right hlt (Nat.two_pow_pos _)
    have hle : 2 ^ (8 * bs.length) ≤ 2 ^ (8 * (bs.length + 1)) :=
      Nat.pow_le_pow_right (by decide) (by omega)
    rw [beValue, List.length_cons]
    exact Nat.or_lt_two_pow hb (by omega)

theorem lowBits_beValue (data : Bytes) : lowBits (8 * data.length) (beValue data) = bits data := by
  induction data with
  | nil => rfl
  | cons b bs ih =>
    have hzero : beValue bs >>> (8 * bs.length) = 0 := by
      rw [Nat.shiftRight_eq_div_pow, Nat.div_eq_of_lt (beValue_lt bs)]
    have hwidth : 8 * (bs.length + 1) = 8 + 8 * bs.length := by omega
    rw [beValue, List.length_cons, bits_cons, ← ih, hwidth]
    refine lowBits_or (lowBits_shiftLeft _ _ _) ?_
    rw [lowBits_add, hzero, lowBits_zero]

theorem bits_beBytes (width value : Nat) : bits (beBytes width value) = lowBits (8 * width) value := by
  induction width with
  | zero => rfl
  | succ width ih =>
    have hwidth : 8 * (width + 1) = 8 + 8 * width := by omega
    rw [beBytes, bits_cons, ih, hwidth, lowBits_add, UInt8.toNat_ofNat', lowBits_mod]

theorem loadBe_spec (width pos : Nat) (src : Bytes) (h : pos + width ≤ src.length) :
    ∃ v, loadBe width src pos = .ok v ∧
      lowBits (8 * width) v = ((bits src).drop (8 * pos)).take (8 * width) := by
  refine ⟨_, if_pos h, ?_⟩
  have hlen : ((src.drop pos).take width).length = width := by
    rw [List.length_take, List.length_drop]
    omega
  have hbits := lowBits_beValue ((src.drop pos).take width)
  rw [hlen] at hbits
  rw [hbits, bits_take, bits_drop]

theorem storeBe_spec (width pos : Nat) (dest : Bytes) (value : Nat)
    (h : pos + width ≤ dest.length) :
    ∃ dest', storeBe width dest pos value = .ok dest' ∧ dest'.length = dest.length ∧
      bits dest' = (bits dest).take (8 * pos) ++ lowBits (8 * width) value ++
        (bits dest).drop (8 * (pos + width)) ∧
      ∀ k, pos + width ≤ k → dest'.drop k = dest.drop k := by
  have hfront : (dest.take pos ++ beBytes width value).length = pos + width := by
    rw [List.length_append, List.length_take, length_beBytes]
    omega
  refine ⟨_, if_pos h, ?_, ?_, ?_⟩
  · rw [List.length_append, hfront, List.length_drop]
    omega
  · rw [bits_append, bits_append, bits_take, bits_beBytes, bits_drop]
  · intro k hk
    obtain ⟨j, rfl⟩ : ∃ j, k = (pos + width) + j := ⟨k - (pos + width), by omega⟩
    rw [← List.drop_drop, List.drop_left' hfront, List.drop_drop]

end Sserialize
