import Sserialize.Containers.CompactUintArray

namespace Sserialize.CompactUintArray

open BitString

def set64 (c : CompactUintArray) (pos value : Nat) : Except Fault (Nat × CompactUintArray) :=
  if pos ≥ c.maxCount then .error .outOfBounds
  else do
    let (value, data) ← privSet c.data c.bpn pos value
    return (value, { c with data := data })

/-- `create` into the bytes `old` behind the put pointer. -/
def createOver (old : Bytes) (src : List Nat) (bits : Nat) : Except Fault Bytes := do
  let c ← setAll src 0 (ofData old bits)
  return c.data

/-- What the constructors establish: a width of 1 to 64 bits and space for all entries. -/
structure Valid (c : CompactUintArray) : Prop where
  bpn_pos : 0 < c.bpn
  bpn_le : c.bpn ≤ 64
  space : c.maxCount * c.bpn ≤ 8 * c.data.length

theorem clampBits_pos (bits : Nat) : 0 < clampBits bits := by
  unfold clampBits
  split <;> [exact Nat.one_pos; split <;> omega]

theorem clampBits_le (bits : Nat) : clampBits bits ≤ 64 := by
  unfold clampBits
  split <;> [decide; split <;> omega]

theorem valid_ofData (array : Bytes) (bits : Nat) : Valid (ofData array bits) := by
  refine ⟨clampBits_pos bits, clampBits_le bits, ?_⟩
  have hle := Nat.div_mul_le_self (array.length * 8) (clampBits bits)
  simp only [ofData]
  omega

theorem Valid.entry {c : CompactUintArray} (h : c.Valid) {pos : Nat} (hpos : pos < c.maxCount) :
    pos * c.bpn + c.bpn ≤ 8 * c.data.length :=
  (mul_le_of_lt c.bpn hpos).trans h.space

theorem returned_eq_iff {bpn value : Nat} :
    returned bpn value = value &&& createMask bpn ↔
      (bpn = 8 ∨ bpn = 24 ∨ bpn = 32 → value < 2 ^ bpn) := by
  unfold returned
  have hmask : value &&& createMask bpn = value % 2 ^ bpn := Nat.and_two_pow_sub_one_eq_mod _ _
  by_cases hwhole : bpn = 8 ∨ bpn = 24 ∨ bpn = 32
  · rw [if_pos hwhole, hmask]
    constructor
    · intro h _
      rw [h]
      exact Nat.mod_lt _ (Nat.two_pow_pos bpn)
    · intro h
      exact (Nat.mod_eq_of_lt (h hwhole)).symm
  · rw [if_neg hwhole]
    exact ⟨fun _ h => absurd h hwhole, fun _ => rfl⟩

theorem set64_spec {c : CompactUintArray} (h : c.Valid) {pos : Nat} (hpos : pos < c.maxCount)
    (value : Nat) :
    ∃ c', c.set64 pos value = .ok (returned c.bpn value, c') ∧ c'.bpn = c.bpn ∧
      c'.maxCount = c.maxCount ∧ c'.Valid ∧ c'.at pos = .ok (value &&& createMask c.bpn) ∧
      ∀ p < c.maxCount, p ≠ pos → c'.at p = c.at p := by
  obtain ⟨data, hset, hlength, hbits⟩ := privSet_spec value h.bpn_pos (h.entry hpos)
  have hvalid : Valid { c with data := data } := by
    refine ⟨h.bpn_pos, h.bpn_le, ?_⟩
    simp only [hlength]
    exact h.space
  unfold set64
  rw [if_neg (Nat.not_le_of_lt hpos), hset]
  refine ⟨{ c with data := data }, rfl, rfl, rfl, hvalid, ?_, ?_⟩
  · refine at_spec h.bpn_pos h.bpn_le hpos (hvalid.entry hpos) (and_createMask_lt _ _) ?_
    intro t ht
    rw [hbits, if_pos (by simp only at ht ⊢; omega), Nat.add_sub_cancel_left, Nat.testBit_and,
      testBit_createMask, decide_eq_true ht, Bool.and_true]
  · intro p hp hne
    obtain ⟨v, hv, hlt, hvbits⟩ := privAt_spec h.bpn_pos h.bpn_le (h.entry hp)
    have hold : c.at p = .ok v := by
      rw [CompactUintArray.at, if_neg (Nat.not_le_of_lt hp), hv]
    rw [hold]
    refine at_spec h.bpn_pos h.bpn_le hp (hvalid.entry hp) hlt ?_
    intro t ht
    -- the fields of two positions do not overlap
    have hother : ¬ (pos * c.bpn ≤ p * c.bpn + t ∧ p * c.bpn + t < pos * c.bpn + c.bpn) := by
      rcases Nat.lt_or_gt_of_ne hne with hlow | hhigh
      · have hmul := mul_le_of_lt c.bpn hlow
        simp only at ht
        omega
      · have hmul := mul_le_of_lt c.bpn hhigh
        omega
    rw [hbits, if_neg hother, hvbits t ht]

theorem createOver_bits (src : List Nat) {bits : Nat} (hpos : 0 < bits) (hle : bits ≤ 64)
    {old : Bytes} (hold : minStorageBytes bits src.length ≤ old.length) :
    ∃ data, createOver old src bits = .ok data ∧ data.length = old.length ∧
      ∀ i < src.length, ∀ t < bits, bit data (i * bits + t) = (src.getD i 0).testBit t := by
  have hclamp := clampBits_eq hpos hle
  have hspace := le_minStorageBytes bits src.length
  have hcount : src.length ≤ old.length * 8 / bits := by
    rw [Nat.le_div_iff_mul_le hpos]
    omega
  obtain ⟨c', hall, hlength, -, hbits⟩ := setAll_spec src 0 (ofData old bits)
    (by simp only [ofData, hclamp]; exact hpos)
    (show 0 + src.length ≤ _ by simp only [ofData, hclamp]; omega)
    (by simp only [ofData, hclamp, Nat.zero_add]; omega)
  simp only [ofData, hclamp, Nat.zero_add] at hlength hbits
  refine ⟨c'.data, ?_, hlength, hbits⟩
  unfold createOver
  rw [hall]
  rfl

theorem at_of_bits {src : List Nat} {bits : Nat} (hpos : 0 < bits) (hle : bits ≤ 64)
    (hsrc : ∀ v ∈ src, v < 2 ^ bits) {data : Bytes}
    (hdata : minStorageBytes bits src.length ≤ data.length)
    (hbits : ∀ i < src.length, ∀ t < bits, bit data (i * bits + t) = (src.getD i 0).testBit t)
    (maxCount : Nat) (hcount : src.length ≤ maxCount) {i : Nat} (hi : i < src.length) :
    CompactUintArray.at { data := data, bpn := bits, maxCount := maxCount } i =
      .ok (src.getD i 0) := by
  have hspace := le_minStorageBytes bits src.length
  have hentry := mul_le_of_lt bits hi
  refine at_spec hpos hle (Nat.lt_of_lt_of_le hi hcount) (by simp only; omega) ?_ (hbits i hi)
  rw [List.getD_eq_getElem _ _ hi]
  exact hsrc _ (List.getElem_mem hi)

theorem createOver_spec (src : List Nat) {bits : Nat} (hpos : 0 < bits) (hle : bits ≤ 64)
    (hsrc : ∀ v ∈ src, v < 2 ^ bits) {old : Bytes}
    (hold : minStorageBytes bits src.length ≤ old.length) :
    ∃ data c, createOver old src bits = .ok data ∧ data.length = old.length ∧
      ofDataWithSize data bits src.length = .ok c ∧
      ∀ i < src.length, c.at i = .ok (src.getD i 0) := by
  obtain ⟨data, hcreate, hlength, hbits⟩ := createOver_bits src hpos hle hold
  have hdata : minStorageBytes bits src.length ≤ data.length := by rwa [hlength]
  have hopen : ofDataWithSize data bits src.length =
      .ok { data := data, bpn := bits, maxCount := src.length } := by
    unfold ofDataWithSize
    rw [if_neg (Nat.not_lt_of_le hdata), clampBits_eq hpos hle]
  exact ⟨data, _, hcreate, hlength, hopen,
    fun i hi => at_of_bits hpos hle hsrc hdata hbits _ (Nat.le_refl _) hi⟩

/-- The laws of `set` and `at` for one value: it is stored cut to the width, the stored value is
returned, and all other positions keep their values. -/
def SetSpec (c : CompactUintArray) (pos value : Nat) : Prop :=
  ∃ c', c.set64 pos value = .ok (value &&& createMask c.bpn, c') ∧
    c'.at pos = .ok (value &&& createMask c.bpn) ∧
    ∀ p < c.maxCount, p ≠ pos → c'.at p = c.at p

def CreateSpec (bits : Nat) : Prop :=
  ∀ (src : List Nat) (old : Bytes), (∀ v ∈ src, v < 2 ^ bits) →
    minStorageBytes bits src.length ≤ old.length →
    ∃ data c, createOver old src bits = .ok data ∧ data.length = old.length ∧
      ofDataWithSize data bits src.length = .ok c ∧
      ∀ i < src.length, c.at i = .ok (src.getD i 0)

/-- All laws hold, but widths of 8, 24 and 32 bits return the value as it was given. -/
theorem compactUintArray_laws_iff (c : CompactUintArray) (h : c.Valid) (pos value : Nat)
    (hpos : pos < c.maxCount) :
    (SetSpec c pos value ∧ CreateSpec c.bpn) ↔
      (c.bpn = 8 ∨ c.bpn = 24 ∨ c.bpn = 32 → value < 2 ^ c.bpn) := by
  obtain ⟨c', hset, -, -, -, hat, hothers⟩ := set64_spec h hpos value
  rw [← returned_eq_iff]
  constructor
  · rintro ⟨⟨c'', hset', -⟩, -⟩
    rw [hset] at hset'
    exact (Prod.mk.inj (Except.ok.inj hset')).1
  · intro hreturned
    refine ⟨⟨c', by rw [hset, hreturned], hat, hothers⟩, ?_⟩
    intro src old hsrc hold
    exact createOver_spec src h.bpn_pos h.bpn_le hsrc hold

/-- The third of four elements of 12 bits. -/
theorem compactUintArray_laws_twelve :
    SetSpec (ofData [1, 2, 3, 4, 5, 6] 12) 2 5000 ∧ CreateSpec (ofData [1, 2, 3, 4, 5, 6] 12).bpn :=
  (compactUintArray_laws_iff (ofData [1, 2, 3, 4, 5, 6] 12) (valid_ofData [1, 2, 3, 4, 5, 6] 12) 2
    5000 (by decide)).mpr (by decide)

/-- 256 is stored as 0, and 256 is returned. -/
theorem compactUintArray_not_laws : ¬ (SetSpec (ofData [0] 8) 0 256) := by
  rintro ⟨c', hset, -⟩
  cases hset

end Sserialize.CompactUintArray
