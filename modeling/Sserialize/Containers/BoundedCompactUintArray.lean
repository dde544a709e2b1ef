import Sserialize.Containers.SortedOffsetIndexCreate

/-!
# `BoundedCompactUintArray`

The number of entries and the width share one varint of 64 bits in front of a `CompactUintArray`.
-/

namespace Sserialize

open BitString

/-- `CompactUintArray::minStorageBytes`, with a product of 64 bits. -/
def CompactUintArray.minStorageBytes64 (bpn count : Nat) : Nat :=
  let bits := u64 (count * bpn : Nat)
  bits / 8 + if bits % 8 > 0 then 1 else 0

structure BoundedCompactUintArray where
  store : CompactUintArray
  size : Nat
  deriving Repr, DecidableEq

namespace BoundedCompactUintArray

/-- `std::max_element` of a list that is not empty. -/
def maxElem (src : List Nat) : Nat := src.foldr max 0

def header (size bits : Nat) : Nat := u64 (size <<< 6 : Nat) ||| sub32 bits 1

/-- The bytes behind the put pointer after `reserveFromPutPtr`. -/
def reserve (old : Bytes) (need : Nat) : Bytes := old ++ List.replicate (need - old.length) 0

/-- `create` into a destination with the bytes `old` behind the put pointer: the bytes behind the
old put pointer afterwards, and by how much the put pointer moves. -/
def create (src : List Nat) (old : Bytes) : Except Fault (Bytes × Nat) :=
  if src.length ≠ 0 then do
    let bits := CompactUintArray.minStorageBits (maxElem src)
    let front := putVlPackedUint64 (header src.length bits)
    let spaceNeed := CompactUintArray.minStorageBytes64 bits src.length
    let data ← CompactUintArray.createOver (reserve (old.drop front.length) spaceNeed) src bits
    return (front ++ data, front.length + spaceNeed)
  else
    let front := putVlPackedUint64 0
    return (front ++ old.drop front.length, front.length)

def ofData (d : Bytes) : Except Fault BoundedCompactUintArray := do
  let (sizeBits, len) ← getVlPacked (upV 64) d
  let size := sizeBits >>> 6
  let bits := (sizeBits &&& 0x3F) + 1
  let dSize := CompactUintArray.minStorageBytes64 bits size
  if size ≠ 0 then
    return { store := .ofData ((d.drop len).take dSize) bits, size := size }
  else return { store := .new, size := size }

def «at» (c : BoundedCompactUintArray) (pos : Nat) : Except Fault Nat := c.store.at pos

def getSizeInBytes (c : BoundedCompactUintArray) : Nat :=
  let bits := c.store.bpn
  psizeVu64 (header c.size bits) + CompactUintArray.minStorageBytes64 bits c.size

def consume (d : Bytes) : Except Fault (BoundedCompactUintArray × Bytes) := do
  let c ← ofData d
  return (c, d.drop c.getSizeInBytes)

/-- What is read from `written`, whatever is behind it: the list, the number of bytes, and a source
behind them. -/
def ReadsAs (written : Bytes) (src : List Nat) : Prop :=
  ∀ tail, ∃ c, ofData (written ++ tail) = .ok c ∧ c.size = src.length ∧
    (∀ i, ∀ h : i < src.length, c.at i = .ok src[i]) ∧ c.getSizeInBytes = written.length ∧
    consume (written ++ tail) = .ok (c, tail)

def RoundTrips (src : List Nat) (old : Bytes) : Prop :=
  ∃ bytes written, create src old = .ok (bytes, written) ∧ written ≤ bytes.length ∧
    ReadsAs (bytes.take written) src

/-! ## The header -/

variable {src : List Nat}

theorem le_maxElem {v : Nat} (hv : v ∈ src) : v ≤ maxElem src := by
  induction src with
  | nil => cases hv
  | cons w src ih =>
    rw [maxElem, List.foldr_cons]
    rcases List.mem_cons.mp hv with rfl | hv
    · exact Nat.le_max_left v _
    · exact (ih hv).trans (Nat.le_max_right w _)

theorem maxElem_lt {bound : Nat} (hbound : 0 < bound) (hsrc : ∀ v ∈ src, v < bound) :
    maxElem src < bound := by
  induction src with
  | nil => exact hbound
  | cons w src ih =>
    rw [maxElem, List.foldr_cons]
    apply max_lt
    · exact hsrc w List.mem_cons_self
    · exact ih fun v hv => hsrc v (List.mem_cons_of_mem w hv)

variable {bits : Nat} (size : Nat)

theorem header_eq (hpos : 0 < bits) (hle : bits ≤ 64) :
    header size bits = 64 * (size % 2 ^ 58) + (bits - 1) := by
  have hcut : u64 (size <<< 6 : Nat) = (size % 2 ^ 58) <<< 6 := by
    rw [u64, Nat.shiftLeft_eq, Nat.shiftLeft_eq]
    omega
  rw [header, hcut, sub32_of_le hpos (by omega)]
  exact SortedOffsetIndex.countTypeHeader_eq _ hpos hle

theorem header_lt (hpos : 0 < bits) (hle : bits ≤ 64) : header size bits < 2 ^ 64 := by
  have hmod := Nat.mod_lt size (Nat.two_pow_pos 58)
  rw [header_eq size hpos hle]
  omega

theorem header_shiftRight (hpos : 0 < bits) (hle : bits ≤ 64) :
    header size bits >>> 6 = size % 2 ^ 58 := by
  rw [header_eq size hpos hle, Nat.shiftRight_eq_div_pow]
  omega

theorem header_and (hpos : 0 < bits) (hle : bits ≤ 64) : (header size bits &&& 0x3F) + 1 = bits := by
  have hmod : header size bits % 2 ^ 6 = bits - 1 := by
    rw [header_eq size hpos hle]
    omega
  rw [(Nat.and_two_pow_sub_one_eq_mod _ 6).trans hmod]
  exact Nat.sub_add_cancel hpos

theorem minStorageBytes64_eq {bpn count : Nat} (h : count * bpn < 2 ^ 64) :
    CompactUintArray.minStorageBytes64 bpn count = CompactUintArray.minStorageBytes bpn count := by
  rw [CompactUintArray.minStorageBytes64, u64_of_lt h]
  rfl

/-! ## Reading -/

theorem ofData_header (hpos : 0 < bits) (hle : bits ≤ 64) (data : Bytes) :
    ofData (putVlPackedUint64 (header size bits) ++ data) =
      if size % 2 ^ 58 ≠ 0 then
        .ok { store := .ofData (data.take (CompactUintArray.minStorageBytes64 bits (size % 2 ^ 58))) bits
              size := size % 2 ^ 58 }
      else .ok { store := .new, size := 0 } := by
  rw [ofData, getVlPackedUint64_append (header_lt size hpos hle), ok_bind]
  simp only [header_shiftRight size hpos hle, header_and size hpos hle, List.drop_left]
  split
  · rfl
  · next hzero =>
    rw [not_not.mp hzero]
    rfl

theorem size_ofData {size : Nat} (hpos : 0 < bits) (hle : bits ≤ 64) {data : Bytes}
    {c : BoundedCompactUintArray}
    (h : ofData (putVlPackedUint64 (header size bits) ++ data) = .ok c) : c.size = size % 2 ^ 58 := by
  rw [ofData_header size hpos hle] at h
  split at h
  · obtain rfl := Except.ok.inj h
    rfl
  · next hzero =>
    obtain rfl := Except.ok.inj h
    exact (not_not.mp hzero).symm

theorem le_length_reserve (old : Bytes) (need : Nat) :
    need ≤ (reserve old need).length := by
  rw [reserve, List.length_append, List.length_replicate]
  omega

theorem readsAs_of_bits (hpos : 0 < bits) (hle : bits ≤ 64) (hlen : 0 < src.length)
    (hsize : src.length < 2 ^ 58) (hsrc : ∀ v ∈ src, v < 2 ^ bits) {data : Bytes}
    (hdata : data.length = CompactUintArray.minStorageBytes bits src.length)
    (hbits : ∀ i < src.length, ∀ t < bits, bit data (i * bits + t) = (src.getD i 0).testBit t) :
    ReadsAs (putVlPackedUint64 (header src.length bits) ++ data) src := by
  have hproduct : src.length * bits < 2 ^ 64 := by
    have hmul := Nat.mul_le_mul_left src.length hle
    omega
  have hneed := minStorageBytes64_eq hproduct
  have hmod : src.length % 2 ^ 58 = src.length := Nat.mod_eq_of_lt hsize
  have hspace := CompactUintArray.le_minStorageBytes bits src.length
  have hclamp := CompactUintArray.clampBits_eq hpos hle
  intro tail
  let store : CompactUintArray := { data := data, bpn := bits, maxCount := data.length * 8 / bits }
  have hstore : ofData (putVlPackedUint64 (header src.length bits) ++ data ++ tail) =
      .ok { store := store, size := src.length } := by
    rw [List.append_assoc, ofData_header src.length hpos hle, hmod, if_pos (Nat.ne_of_gt hlen), hneed,
      ← hdata, List.take_left, CompactUintArray.ofData, hclamp]
  have hgetSize : getSizeInBytes { store := store, size := src.length } =
      (putVlPackedUint64 (header src.length bits) ++ data).length := by
    rw [List.length_append, length_putVlPackedUint64 (header_lt src.length hpos hle), hdata, ← hneed]
    rfl
  refine ⟨{ store := store, size := src.length }, hstore, rfl, ?_, hgetSize, ?_⟩
  · intro i hi
    have hcount : src.length ≤ data.length * 8 / bits := by
      rw [Nat.le_div_iff_mul_le hpos]
      omega
    have hat := CompactUintArray.at_of_bits hpos hle hsrc (Nat.le_of_eq hdata.symm) hbits
      (data.length * 8 / bits) hcount hi
    rw [List.getD_eq_getElem _ _ hi] at hat
    exact hat
  · rw [consume, hstore, ok_bind, hgetSize, List.drop_left]
    rfl

/-! ## When the list is read back -/

theorem roundTrips_of_length (hsrc : ∀ v ∈ src, v < 2 ^ 64) (hlen : 0 < src.length)
    (hsize : src.length < 2 ^ 58) (old : Bytes) : RoundTrips src old := by
  let bits := CompactUintArray.minStorageBits (maxElem src)
  have hpos : 0 < bits := CompactUintArray.minStorageBits_pos _
  have hle : bits ≤ 64 := CompactUintArray.minStorageBits_le _
  have hfits : ∀ v ∈ src, v < 2 ^ bits := fun v hv =>
    (le_maxElem hv).trans_lt
      (CompactUintArray.lt_two_pow_minStorageBits (maxElem_lt (Nat.two_pow_pos 64) hsrc))
  have hproduct : src.length * bits < 2 ^ 64 := by
    have hmul := Nat.mul_le_mul_left src.length hle
    omega
  let need := CompactUintArray.minStorageBytes bits src.length
  have hneed : CompactUintArray.minStorageBytes64 bits src.length = need :=
    minStorageBytes64_eq hproduct
  let front := putVlPackedUint64 (header src.length bits)
  let space := reserve (old.drop front.length) need
  have hspace : need ≤ space.length := le_length_reserve _ _
  obtain ⟨data, hcreate, hlength, hbits⟩ := CompactUintArray.createOver_bits src hpos hle hspace
  refine ⟨front ++ data, front.length + need, ?_, ?_, ?_⟩
  · rw [create, if_pos (Nat.ne_of_gt hlen)]
    change (CompactUintArray.createOver (reserve (old.drop front.length)
      (CompactUintArray.minStorageBytes64 bits src.length)) src bits >>= _) = _
    rw [hneed, hcreate, ok_bind]
    rfl
  · rw [List.length_append, hlength]
    exact Nat.add_le_add_left hspace _
  · rw [List.take_length_add_append]
    have htake : (data.take need).length = need := by
      rw [List.length_take, hlength]
      exact Nat.min_eq_left hspace
    apply readsAs_of_bits hpos hle hlen hsize hfits htake
    intro i hi t ht
    have hentry := CompactUintArray.mul_le_of_lt bits hi
    have hfull := CompactUintArray.le_minStorageBytes bits src.length
    rw [bit_take, decide_eq_true (by omega), Bool.true_and]
    exact hbits i hi t ht

theorem not_roundTrips_nil (old : Bytes) : ¬ RoundTrips [] old := by
  rintro ⟨bytes, written, hcreate, -, hreads⟩
  obtain ⟨rfl, rfl⟩ := Prod.mk.inj (Except.ok.inj hcreate)
  obtain ⟨c, hofData, -, -, hgetSize, -⟩ := hreads []
  have hzero : putVlPackedUint64 0 = putVlPackedUint64 (header 0 1) := rfl
  rw [List.take_left, List.append_nil, hzero, ← List.append_nil (putVlPackedUint64 (header 0 1)),
    ofData_header 0 (by decide) (by decide)] at hofData
  obtain rfl := Except.ok.inj hofData
  rw [List.take_left] at hgetSize
  revert hgetSize
  decide

theorem length_lt_of_roundTrips {old : Bytes} (h : RoundTrips src old) : src.length < 2 ^ 58 := by
  obtain ⟨bytes, written, hcreate, -, hreads⟩ := h
  rcases Nat.eq_zero_or_pos src.length with hzero | hlen
  · rw [hzero]
    decide
  · have hpos := CompactUintArray.minStorageBits_pos (maxElem src)
    have hle := CompactUintArray.minStorageBits_le (maxElem src)
    rw [create, if_pos (Nat.ne_of_gt hlen)] at hcreate
    obtain ⟨data, -, hpair⟩ := bind_eq_ok hcreate
    obtain ⟨rfl, rfl⟩ := Prod.mk.inj (Except.ok.inj hpair)
    obtain ⟨c, hofData, hsize, -⟩ := hreads []
    rw [List.take_length_add_append, List.append_assoc] at hofData
    rw [← hsize, size_ofData hpos hle hofData]
    exact Nat.mod_lt _ (Nat.two_pow_pos 58)

/-- Everything but the empty list and a size that does not fit is read back. -/
theorem boundedCompactUintArray_roundTrips_iff (src : List Nat) (hsrc : ∀ v ∈ src, v < 2 ^ 64)
    (old : Bytes) : RoundTrips src old ↔ 0 < src.length ∧ src.length < 2 ^ 58 := by
  constructor
  · intro h
    refine ⟨?_, length_lt_of_roundTrips h⟩
    apply Nat.pos_of_ne_zero
    intro hzero
    rw [List.length_eq_zero_iff.mp hzero] at h
    exact not_roundTrips_nil old h
  · rintro ⟨hlen, hsize⟩
    exact roundTrips_of_length hsrc hlen hsize old

theorem boundedCompactUintArray_roundTrips_iff_two :
    RoundTrips [3, 256] [1] ↔ 0 < [3, 256].length ∧ [3, 256].length < 2 ^ 58 :=
  boundedCompactUintArray_roundTrips_iff [3, 256] (by decide) [1]

/-- One byte is written for the empty list, and five are claimed. -/
theorem boundedCompactUintArray_not_roundTrips :
    ¬ ∀ (src : List Nat) (old : Bytes), (∀ v ∈ src, v < 2 ^ 64) → RoundTrips src old := by
  intro h
  exact not_roundTrips_nil [] (h [] [] (by simp))

end BoundedCompactUintArray

end Sserialize
