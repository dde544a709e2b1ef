import Sserialize.Storage.FixedWidth

/-!
# `CompactUintArray`

Numbers of a fixed bit width packed into bytes, low bits first. Widths of whole bytes up to 32
bits are stored as fixed width integers, the others bit by bit.
-/

namespace Sserialize

def createMask (bpn : Nat) : Nat := 2 ^ bpn - 1

namespace CompactUintArray

def minStorageBytes (bpn count : Nat) : Nat :=
  let bits := count * bpn
  bits / 8 + if bits % 8 > 0 then 1 else 0

/-! ## `CompactUintArrayPrivateVarBits` and `CompactUintArrayPrivateVarBits64` -/

/-- The loop of `at`: the bytes behind the first one. The bits below `bitsRead` are in `res`;
`digits` is the width of the accumulator. -/
def varBitsAtLoop (digits : Nat) (data : Bytes) (bpn byteShift posStart : Nat) :
    Nat → Nat → Nat → Except Fault Nat
  | 0, _, res => .ok res
  | rounds + 1, i, res =>
    if byteShift + 8 * i < bpn then do
      let newByte ← byteAt data (posStart + i)
      varBitsAtLoop digits data bpn byteShift posStart rounds (i + 1)
        (res ||| (newByte.toNat <<< (8 * i + byteShift)) % 2 ^ digits)
    else .ok res

def varBitsAt (digits : Nat) (data : Bytes) (bpn pos : Nat) : Except Fault Nat := do
  let posStart := pos * bpn / 8
  let initShift := pos * bpn % 8
  let first ← byteAt data posStart
  let res ← varBitsAtLoop digits data bpn (8 - initShift) (posStart + 1) bpn 0
    (first.toNat >>> initShift)
  return res &&& createMask bpn

/-- The loop of `set` over the bytes that are overwritten as a whole. -/
def varBitsSetLoop (value bpn startPos lastByteBitCount : Nat) :
    Nat → Nat → Nat → Bytes → Except Fault (Nat × Bytes)
  | 0, _, count, data => .ok (count, data)
  | rounds + 1, curShift, count, data =>
    if curShift + lastByteBitCount < bpn then do
      let data ← modifyByte data (startPos + count) fun _ => byte ((value >>> curShift) &&& 0xFF)
      varBitsSetLoop value bpn startPos lastByteBitCount rounds (curShift + 8) (count + 1) data
    else .ok (count, data)

def varBitsSet (data : Bytes) (bpn pos value : Nat) : Except Fault (Nat × Bytes) := do
  let value := value &&& createMask bpn
  let startPos := pos * bpn / 8
  let initShift := pos * bpn % 8
  if initShift + bpn ≤ 8 then
    -- the complement of a mask, as the byte it is cut to
    let mask := createMask initShift ||| (0xFF - createMask (initShift + bpn))
    let data ← modifyByte data startPos fun d =>
      byte ((d.toNat &&& mask) ||| (value <<< initShift))
    return (value, data)
  else
    let mask := createMask initShift
    let data ← modifyByte data startPos fun d =>
      byte ((d.toNat &&& mask) ||| ((value <<< initShift) &&& 0xFF))
    let bitsSet := 8 - initShift
    let lastByteBitCount := (bpn + initShift) % 8
    let (count, data) ← varBitsSetLoop value bpn startPos lastByteBitCount bpn bitsSet 1 data
    if lastByteBitCount > 0 then
      let data ← modifyByte data (startPos + count) fun d =>
        byte ((d.toNat &&& (0xFF - createMask lastByteBitCount)) |||
          (value >>> (bpn - lastByteBitCount)))
      return (value, data)
    else return (value, data)

/-! The same code serves fields of any position in `MultiVarBitArray`: what follows is about the
field of `bpn` bits from the bit `begin` on. -/

def fieldAt (digits : Nat) (data : Bytes) (bpn begin : Nat) : Except Fault Nat := do
  let posStart := begin / 8
  let initShift := begin % 8
  let first ← byteAt data posStart
  let res ← varBitsAtLoop digits data bpn (8 - initShift) (posStart + 1) bpn 0
    (first.toNat >>> initShift)
  return res &&& createMask bpn

def fieldSet (data : Bytes) (bpn begin value : Nat) : Except Fault (Nat × Bytes) := do
  let value := value &&& createMask bpn
  let startPos := begin / 8
  let initShift := begin % 8
  if initShift + bpn ≤ 8 then
    let mask := createMask initShift ||| (0xFF - createMask (initShift + bpn))
    let data ← modifyByte data startPos fun d =>
      byte ((d.toNat &&& mask) ||| (value <<< initShift))
    return (value, data)
  else
    let mask := createMask initShift
    let data ← modifyByte data startPos fun d =>
      byte ((d.toNat &&& mask) ||| ((value <<< initShift) &&& 0xFF))
    let bitsSet := 8 - initShift
    let lastByteBitCount := (bpn + initShift) % 8
    let (count, data) ← varBitsSetLoop value bpn startPos lastByteBitCount bpn bitsSet 1 data
    if lastByteBitCount > 0 then
      let data ← modifyByte data (startPos + count) fun d =>
        byte ((d.toNat &&& (0xFF - createMask lastByteBitCount)) |||
          (value >>> (bpn - lastByteBitCount)))
      return (value, data)
    else return (value, data)

def clampBits (bitsPerNumber : Nat) : Nat :=
  if bitsPerNumber = 0 then 1 else if bitsPerNumber > 64 then 64 else bitsPerNumber

def privAt (data : Bytes) (bpn pos : Nat) : Except Fault Nat :=
  if bpn = 8 ∨ bpn = 16 ∨ bpn = 24 ∨ bpn = 32 then getUint (bpn / 8) data (bpn / 8 * pos)
  else varBitsAt (if bpn ≤ 32 then 32 else 64) data bpn pos

/-- `set` of the private class that `setPrivate` chooses, with the value it returns. -/
def privSet (data : Bytes) (bpn pos value : Nat) : Except Fault (Nat × Bytes) :=
  if bpn = 8 ∨ bpn = 16 ∨ bpn = 24 ∨ bpn = 32 then do
    let data ← putUint (bpn / 8) data (bpn / 8 * pos) value
    return (if bpn = 16 then value % 2 ^ 16 else value, data)
  else varBitsSet data bpn pos value

end CompactUintArray

structure CompactUintArray where
  data : Bytes
  bpn : Nat
  maxCount : Nat
  deriving Repr, DecidableEq

namespace CompactUintArray

def new : CompactUintArray := { data := [], bpn := 0, maxCount := 0 }

def ofData (array : Bytes) (bitsPerNumber : Nat) : CompactUintArray :=
  let bpn := clampBits bitsPerNumber
  { data := array, bpn := bpn, maxCount := array.length * 8 / bpn }

def ofDataWithSize (array : Bytes) (bitsPerNumber maxSize : Nat) :
    Except Fault CompactUintArray :=
  if array.length < minStorageBytes bitsPerNumber maxSize then .error .outOfBounds
  else .ok { data := array, bpn := clampBits bitsPerNumber, maxCount := maxSize }

def «at» (c : CompactUintArray) (pos : Nat) : Except Fault Nat :=
  if pos ≥ c.maxCount then .error .outOfBounds else privAt c.data c.bpn pos

def set (c : CompactUintArray) (pos value : Nat) : Except Fault CompactUintArray :=
  if pos ≥ c.maxCount then .error .outOfBounds
  else do
    let (_, data) ← privSet c.data c.bpn pos value
    return { c with data := data }

def setAll : List Nat → Nat → CompactUintArray → Except Fault CompactUintArray
  | [], _, c => .ok c
  | v :: src, pos, c => do
    let c ← c.set pos v
    setAll src (pos + 1) c

/-- The bytes that `create` writes behind the put pointer. -/
def create (src : List Nat) (bits : Nat) : Except Fault Bytes := do
  let spaceNeed := minStorageBytes bits src.length
  let c ← setAll src 0 (ofData (List.replicate spaceNeed 0) bits)
  return c.data

/-! ## What `set` and `at` do to the bits -/

open BitString

theorem testBit_createMask (bpn i : Nat) : (createMask bpn).testBit i = decide (i < bpn) :=
  Nat.testBit_two_pow_sub_one bpn i

theorem and_createMask_lt (n bpn : Nat) : n &&& createMask bpn < 2 ^ bpn := by
  rw [createMask, Nat.and_two_pow_sub_one_eq_mod]
  exact Nat.mod_lt _ (Nat.two_pow_pos bpn)

theorem testBit_ff_sub (k i : Nat) (hk : k ≤ 8) :
    (0xFF - createMask k).testBit i = (decide (k ≤ i) && decide (i < 8)) := by
  have hsub : 0xFF - createMask k = 2 ^ 8 - (createMask k + 1) := by
    unfold createMask
    omega
  have hlt : createMask k < 2 ^ 8 := by
    have hle : 2 ^ k ≤ 2 ^ 8 := Nat.pow_le_pow_right (by decide) hk
    have hpos := Nat.two_pow_pos k
    unfold createMask
    omega
  rw [hsub, Nat.testBit_two_pow_sub_succ hlt, testBit_createMask]
  by_cases hi : i < 8
  · by_cases hki : i < k
    · simp [hki, Nat.not_le.mpr hki]
    · simp [hi, hki, Nat.not_lt.mp hki]
  · simp [hi]

variable {data : Bytes}

theorem byteAt_eq {pos : Nat} (hpos : pos < data.length) :
    byteAt data pos = .ok (data.getD pos 0) := if_pos hpos

theorem modifyByte_eq {pos : Nat} (f : UInt8 → UInt8) (hpos : pos < data.length) :
    modifyByte data pos f = .ok (data.modify pos f) := if_pos hpos

theorem testBit_getD (data : Bytes) (pos i : Nat) (hi : i < 8) :
    (data.getD pos 0).toNat.testBit i = bit data (8 * pos + i) := by
  have hdiv : (8 * pos + i) / 8 = pos := by omega
  have hmod : (8 * pos + i) % 8 = i := by omega
  rw [bit, hdiv, hmod]

theorem testBit_toNat_of_le (b : UInt8) {i : Nat} (hi : 8 ≤ i) : b.toNat.testBit i = false :=
  Nat.testBit_lt_two_pow (Nat.lt_of_lt_of_le b.toNat_lt (Nat.pow_le_pow_right (by decide) hi))

theorem testBit_byte (n i : Nat) : (byte n).toNat.testBit i = (decide (i < 8) && n.testBit i) := by
  rw [byte, UInt8.toNat_ofNat', Nat.testBit_mod_two_pow]

theorem varBitsAtLoop_spec (posStart begin rounds : Nat) {digits bpn byteShift i res : Nat}
    (hdigits : bpn ≤ digits) (hbegin : 8 * posStart = begin + byteShift)
    (hlen : begin + bpn ≤ 8 * data.length)
    (hres : ∀ t < bpn, res.testBit t = (decide (t < byteShift + 8 * i) && bit data (begin + t)))
    (hrounds : bpn ≤ byteShift + 8 * i + 8 * rounds) :
    ∃ v, varBitsAtLoop digits data bpn byteShift posStart rounds i res = .ok v ∧
      ∀ t < bpn, v.testBit t = bit data (begin + t) := by
  induction rounds generalizing i res with
  | zero =>
    refine ⟨res, rfl, ?_⟩
    intro t ht
    have hdone : t < byteShift + 8 * i := by omega
    rw [hres t ht]
    simp [hdone]
  | succ rounds ih =>
    unfold varBitsAtLoop
    by_cases hmore : byteShift + 8 * i < bpn
    · rw [if_pos hmore, byteAt_eq (by omega), ok_bind]
      refine ih ?_ (by omega)
      intro t ht
      rw [Nat.testBit_or, hres t ht, Nat.testBit_mod_two_pow, Nat.testBit_shiftLeft]
      have htd : t < digits := by omega
      by_cases hold : t < byteShift + 8 * i
      · have hbelow : ¬ 8 * i + byteShift ≤ t := by omega
        have hnew : t < byteShift + 8 * (i + 1) := by omega
        simp [hold, hbelow, hnew]
      · have habove : 8 * i + byteShift ≤ t := by omega
        by_cases hnew : t < byteShift + 8 * (i + 1)
        · have hbit := testBit_getD data (posStart + i) (t - (8 * i + byteShift)) (by omega)
          have hpos : 8 * (posStart + i) + (t - (8 * i + byteShift)) = begin + t := by omega
          rw [hpos] at hbit
          rw [hbit]
          simp [hold, habove, hnew, htd]
        · rw [testBit_toNat_of_le _ (by omega)]
          simp [hold, hnew]
    · rw [if_neg hmore]
      refine ⟨res, rfl, ?_⟩
      intro t ht
      have hdone : t < byteShift + 8 * i := by omega
      rw [hres t ht]
      simp [hdone]

theorem fieldAt_spec (digits : Nat) {bpn begin : Nat} (hbpn : 0 < bpn) (hdigits : bpn ≤ digits)
    (hlen : begin + bpn ≤ 8 * data.length) :
    ∃ v, fieldAt digits data bpn begin = .ok v ∧ v < 2 ^ bpn ∧
      ∀ t < bpn, v.testBit t = bit data (begin + t) := by
  have hfirst : ∀ t < bpn, ((data.getD (begin / 8) 0).toNat >>> (begin % 8)).testBit t =
      (decide (t < 8 - begin % 8 + 8 * 0) && bit data (begin + t)) := by
    intro t _
    rw [Nat.testBit_shiftRight]
    by_cases hin : t < 8 - begin % 8
    · have hbit := testBit_getD data (begin / 8) (begin % 8 + t) (by omega)
      have hpos : 8 * (begin / 8) + (begin % 8 + t) = begin + t := by omega
      rw [hbit, hpos]
      simp [hin]
    · rw [testBit_toNat_of_le _ (by omega)]
      simp [hin]
  obtain ⟨v, hloop, hbits⟩ := varBitsAtLoop_spec (begin / 8 + 1) (begin) bpn
    hdigits (by omega) hlen hfirst (by omega)
  unfold fieldAt
  simp only [byteAt_eq (show begin / 8 < data.length by omega), ok_bind, hloop, except_pure]
  refine ⟨_, rfl, and_createMask_lt _ _, ?_⟩
  intro t ht
  rw [Nat.testBit_and, testBit_createMask, hbits t ht]
  simp [ht]

theorem varBitsAt_spec {digits bpn pos : Nat} (hbpn : 0 < bpn) (hdigits : bpn ≤ digits)
    (hlen : pos * bpn + bpn ≤ 8 * data.length) :
    ∃ v, varBitsAt digits data bpn pos = .ok v ∧ v < 2 ^ bpn ∧
      ∀ t < bpn, v.testBit t = bit data (pos * bpn + t) :=
  fieldAt_spec _ hbpn hdigits hlen

/-! ### `set` -/

/-- The bits from `begin` on are those of `value`, up to the bit `stop` of the data. -/
def Written (old data : Bytes) (begin stop value : Nat) : Prop :=
  data.length = old.length ∧ ∀ i, bit data i =
    if begin ≤ i ∧ i < stop then value.testBit (i - begin) else bit old i

theorem Written.modify {old data : Bytes} {begin stop stop' value k : Nat} {f : UInt8 → UInt8}
    (h : Written old data begin stop value) (hk : k < data.length)
    (hf : ∀ i < 8, (f (data.getD k 0)).toNat.testBit i =
      if begin ≤ 8 * k + i ∧ 8 * k + i < stop' then value.testBit (8 * k + i - begin)
      else bit data (8 * k + i))
    (hstop : stop ≤ stop') (hbegin : 8 * k ≤ stop) (hend : stop' ≤ 8 * (k + 1)) :
    Written old (data.modify k f) begin stop' value := by
  refine ⟨by rw [List.length_modify, h.1], ?_⟩
  intro i
  rw [bit_modify data f hk]
  by_cases hi : i / 8 = k
  · have hsplit : 8 * k + i % 8 = i := by omega
    rw [if_pos hi, hf _ (by omega), hsplit, h.2]
    by_cases hnew : begin ≤ i ∧ i < stop'
    · rw [if_pos hnew, if_pos hnew]
    · rw [if_neg hnew, if_neg hnew, if_neg (by omega)]
  · rw [if_neg hi, h.2]
    by_cases hnew : begin ≤ i ∧ i < stop
    · rw [if_pos hnew, if_pos (by omega)]
    · rw [if_neg hnew, if_neg (by omega)]

theorem varBitsSetLoop_spec (begin startPos rounds : Nat) {old data : Bytes}
    {value bpn last curShift count : Nat} (hbegin : begin + curShift = 8 * (startPos + count))
    (hlast : (begin + bpn) % 8 = last) (hend : begin + bpn ≤ 8 * data.length)
    (hshift : curShift ≤ bpn - last) (hle : last ≤ bpn)
    (hw : Written old data begin (begin + curShift) value)
    (hrounds : bpn ≤ curShift + 8 * rounds) :
    ∃ count' data', varBitsSetLoop value bpn startPos last rounds curShift count data =
        .ok (count', data') ∧ begin + (bpn - last) = 8 * (startPos + count') ∧
      Written old data' begin (begin + (bpn - last)) value := by
  induction rounds generalizing data curShift count with
  | zero =>
    have hdone : curShift = bpn - last := by omega
    refine ⟨count, data, rfl, by omega, ?_⟩
    rw [← hdone]
    exact hw
  | succ rounds ih =>
    unfold varBitsSetLoop
    by_cases hmore : curShift + last < bpn
    · have hbyte : startPos + count < data.length := by omega
      rw [if_pos hmore, modifyByte_eq _ hbyte, ok_bind]
      apply ih (by omega) (by rw [List.length_modify]; exact hend) (by omega) ?_ (by omega)
      refine hw.modify hbyte ?_ (by omega) (by omega) (by omega)
      intro i hi
      have hff : (0xFF : Nat) = createMask 8 := rfl
      rw [if_pos (by omega), testBit_byte, Nat.testBit_and, Nat.testBit_shiftRight, hff,
        testBit_createMask]
      have hpos : 8 * (startPos + count) + i - begin = curShift + i := by omega
      rw [hpos]
      simp [hi]
    · have hdone : curShift = bpn - last := by omega
      rw [if_neg hmore]
      refine ⟨count, data, rfl, by omega, ?_⟩
      rw [← hdone]
      exact hw

theorem written_refl (data : Bytes) (begin value : Nat) : Written data data begin begin value := by
  refine ⟨rfl, ?_⟩
  intro i
  rw [if_neg (by omega)]

theorem fieldSet_spec {bpn begin : Nat} (value : Nat) (hbpn : 0 < bpn)
    (hlen : begin + bpn ≤ 8 * data.length) :
    ∃ data', fieldSet data bpn begin value = .ok (value &&& createMask bpn, data') ∧
      Written data data' (begin) (begin + bpn) value := by
  have hvalue : ∀ t, t < bpn → (value &&& createMask bpn).testBit t = value.testBit t := by
    intro t ht
    rw [Nat.testBit_and, testBit_createMask]
    simp [ht]
  have hhigh : ∀ t, bpn ≤ t → (value &&& createMask bpn).testBit t = false := by
    intro t ht
    rw [Nat.testBit_and, testBit_createMask]
    simp [Nat.not_lt.mpr ht]
  have hcongr : ∀ data', Written data data' (begin) (begin + bpn)
      (value &&& createMask bpn) → Written data data' (begin) (begin + bpn) value := by
    intro data' hw
    refine ⟨hw.1, ?_⟩
    intro i
    rw [hw.2]
    split
    · exact hvalue _ (by omega)
    · rfl
  have hstart : begin / 8 < data.length := by omega
  generalize hv : value &&& createMask bpn = v at *
  unfold fieldSet
  simp only [hv]
  by_cases hone : begin % 8 + bpn ≤ 8
  · simp only [if_pos hone, modifyByte_eq _ hstart, ok_bind, except_pure]
    refine ⟨_, rfl, hcongr _ ?_⟩
    refine (written_refl data (begin) v).modify hstart ?_ (by omega) (by omega) (by omega)
    intro i hi
    rw [testBit_byte, Nat.testBit_or, Nat.testBit_and, Nat.testBit_or, testBit_createMask,
      testBit_ff_sub _ _ hone, testBit_getD _ _ _ hi, Nat.testBit_shiftLeft]
    by_cases hbelow : i < begin % 8
    · have hnot : ¬ (begin ≤ 8 * (begin / 8) + i ∧
          8 * (begin / 8) + i < begin + bpn) := by omega
      have hnot' : ¬ begin % 8 ≤ i := by omega
      rw [if_neg hnot]
      simp [hi, hbelow, hnot']
    · have hge : begin % 8 ≤ i := by omega
      by_cases hin : i < begin % 8 + bpn
      · have hpos : 8 * (begin / 8) + i - begin = i - begin % 8 := by omega
        have hnot : ¬ begin % 8 + bpn ≤ i := by omega
        rw [if_pos (by omega), hpos]
        simp [hi, hbelow, hge, hnot]
      · have hout : begin % 8 + bpn ≤ i := by omega
        rw [if_neg (by omega), hhigh (i - begin % 8) (by omega)]
        simp [hi, hbelow, hout]
  · have hfirst : Written data (data.modify (begin / 8) fun d =>
        byte ((d.toNat &&& createMask (begin % 8)) ||| ((v <<< (begin % 8)) &&& 0xFF)))
        (begin) (begin + (8 - begin % 8)) v := by
      refine (written_refl data (begin) v).modify hstart ?_ (by omega) (by omega) (by omega)
      intro i hi
      have hff : (0xFF : Nat) = createMask 8 := rfl
      rw [testBit_byte, Nat.testBit_or, Nat.testBit_and, Nat.testBit_and, hff, testBit_createMask,
        testBit_createMask, testBit_getD _ _ _ hi, Nat.testBit_shiftLeft]
      by_cases hbelow : i < begin % 8
      · have hnot' : ¬ begin % 8 ≤ i := by omega
        rw [if_neg (by omega)]
        simp [hi, hbelow, hnot']
      · have hge : begin % 8 ≤ i := by omega
        have hpos : 8 * (begin / 8) + i - begin = i - begin % 8 := by omega
        rw [if_pos (by omega), hpos]
        simp [hi, hbelow, hge]
    have hnext : begin + (8 - begin % 8) = 8 * (begin / 8 + 1) := by omega
    have hrest : (begin + bpn) % 8 = (bpn + begin % 8) % 8 := by omega
    simp only [if_neg hone, modifyByte_eq _ hstart, ok_bind]
    generalize (bpn + begin % 8) % 8 = last at *
    obtain ⟨count, data', hloop, hcount, hw⟩ := varBitsSetLoop_spec (begin) (begin / 8) bpn
      hnext hrest (by rw [List.length_modify]; exact hlen) (by omega) (by omega) hfirst (by omega)
    simp only [hloop, ok_bind]
    by_cases hlast : last > 0
    · have hlen' := hw.1
      have hbyte : begin / 8 + count < data'.length := by omega
      simp only [if_pos hlast, modifyByte_eq _ hbyte, ok_bind, except_pure]
      refine ⟨_, rfl, hcongr _ ?_⟩
      refine hw.modify hbyte ?_ (by omega) (by omega) (by omega)
      intro i hi
      rw [testBit_byte, Nat.testBit_or, Nat.testBit_and, testBit_ff_sub _ _ (by omega),
        testBit_getD _ _ _ hi, Nat.testBit_shiftRight]
      have hpos : 8 * (begin / 8 + count) + i - begin = bpn - last + i := by omega
      by_cases hin : i < last
      · rw [if_pos (by omega), hpos]
        simp [hi, Nat.not_le.mpr hin]
      · rw [if_neg (by omega), hhigh _ (by omega)]
        simp [hi, Nat.not_lt.mp hin]
    · have hzero : last = 0 := by omega
      simp only [if_neg hlast, except_pure]
      refine ⟨_, rfl, hcongr _ ?_⟩
      rw [hzero] at hw
      exact hw

theorem varBitsSet_spec {bpn pos : Nat} (value : Nat) (hbpn : 0 < bpn)
    (hlen : pos * bpn + bpn ≤ 8 * data.length) :
    ∃ data', varBitsSet data bpn pos value = .ok (value &&& createMask bpn, data') ∧
      Written data data' (pos * bpn) (pos * bpn + bpn) value :=
  fieldSet_spec value hbpn hlen

/-! ### All widths -/

theorem mul_le_of_lt (bpn : Nat) {pos count : Nat} (h : pos < count) : pos * bpn + bpn ≤ count * bpn := by
  have hmul := Nat.mul_le_mul_right bpn (Nat.succ_le_of_lt h)
  rw [Nat.succ_mul] at hmul
  exact hmul

variable {bpn : Nat}

theorem whole_bytes (h : bpn = 8 ∨ bpn = 16 ∨ bpn = 24 ∨ bpn = 32) : 8 * (bpn / 8) = bpn := by
  rcases h with rfl | rfl | rfl | rfl <;> rfl

theorem mul_whole_bytes (pos : Nat) (h : 8 * (bpn / 8) = bpn) : 8 * (bpn / 8 * pos) = pos * bpn := by
  rw [← Nat.mul_assoc, h, Nat.mul_comm]

theorem privAt_spec {bpn pos : Nat} (hbpn : 0 < bpn) (hle : bpn ≤ 64)
    (hlen : pos * bpn + bpn ≤ 8 * data.length) :
    ∃ v, privAt data bpn pos = .ok v ∧ v < 2 ^ bpn ∧
      ∀ t < bpn, v.testBit t = bit data (pos * bpn + t) := by
  unfold privAt
  by_cases hwhole : bpn = 8 ∨ bpn = 16 ∨ bpn = 24 ∨ bpn = 32
  · have hbytes := whole_bytes hwhole
    have hpos := mul_whole_bytes pos hbytes
    obtain ⟨v, hget, hlt, hbits⟩ := getUint_spec
      (show bpn / 8 * pos + bpn / 8 ≤ data.length by omega)
    rw [hbytes] at hlt hbits
    rw [hpos] at hbits
    rw [if_pos hwhole]
    exact ⟨v, hget, hlt, hbits⟩
  · rw [if_neg hwhole]
    refine varBitsAt_spec hbpn ?_ hlen
    split <;> omega

def returned (bpn value : Nat) : Nat :=
  if bpn = 8 ∨ bpn = 24 ∨ bpn = 32 then value else value &&& createMask bpn

theorem privSet_spec {bpn pos : Nat} (value : Nat) (hbpn : 0 < bpn)
    (hlen : pos * bpn + bpn ≤ 8 * data.length) :
    ∃ data', privSet data bpn pos value = .ok (returned bpn value, data') ∧
      Written data data' (pos * bpn) (pos * bpn + bpn) value := by
  unfold privSet
  by_cases hwhole : bpn = 8 ∨ bpn = 16 ∨ bpn = 24 ∨ bpn = 32
  · have hbytes := whole_bytes hwhole
    have hpos := mul_whole_bytes pos hbytes
    obtain ⟨data', hput, hlength, hbits⟩ := putUint_spec value
      (show bpn / 8 * pos + bpn / 8 ≤ data.length by omega)
    have hresult : (if bpn = 16 then value % 2 ^ 16 else value) = returned bpn value := by
      unfold returned
      by_cases hmid : bpn = 16
      · rw [if_pos hmid, if_neg (by omega), hmid, createMask, Nat.and_two_pow_sub_one_eq_mod]
      · rw [if_neg hmid, if_pos (by omega)]
    rw [hbytes, hpos] at hbits
    rw [if_pos hwhole, hput, ← hresult]
    exact ⟨data', rfl, hlength, hbits⟩
  · have hresult : returned bpn value = value &&& createMask bpn := if_neg (by omega)
    obtain ⟨data', hset, hw⟩ := varBitsSet_spec value hbpn hlen
    rw [if_neg hwhole, hresult]
    exact ⟨data', hset, hw⟩

theorem at_spec {c : CompactUintArray} {pos value : Nat} (hbpn : 0 < c.bpn) (hle : c.bpn ≤ 64)
    (hpos : pos < c.maxCount) (hlen : pos * c.bpn + c.bpn ≤ 8 * c.data.length)
    (hvalue : value < 2 ^ c.bpn)
    (hbits : ∀ t < c.bpn, bit c.data (pos * c.bpn + t) = value.testBit t) :
    c.at pos = .ok value := by
  obtain ⟨v, hget, hlt, hv⟩ := privAt_spec hbpn hle hlen
  have hsame : v = value := eq_of_testBit hlt hvalue fun t ht => by rw [hv t ht, hbits t ht]
  unfold «at»
  rw [if_neg (by omega), hget, hsame]

theorem setAll_spec (src : List Nat) (pos : Nat) (c : CompactUintArray) (hbpn : 0 < c.bpn)
    (hcount : pos + src.length ≤ c.maxCount)
    (hlen : (pos + src.length) * c.bpn ≤ 8 * c.data.length) :
    ∃ c', setAll src pos c = .ok c' ∧ c'.data.length = c.data.length ∧
      (∀ i, i < pos * c.bpn ∨ (pos + src.length) * c.bpn ≤ i → bit c'.data i = bit c.data i) ∧
      ∀ i < src.length, ∀ t < c.bpn,
        bit c'.data ((pos + i) * c.bpn + t) = (src.getD i 0).testBit t := by
  induction src generalizing pos c with
  | nil => exact ⟨c, rfl, rfl, fun _ _ => rfl, by simp⟩
  | cons v src ih =>
    rw [List.length_cons] at hcount hlen
    have hentry := mul_le_of_lt c.bpn (show pos < pos + (src.length + 1) by omega)
    obtain ⟨data, hset, hlength, hbits⟩ := privSet_spec v hbpn (hentry.trans hlen)
    have hrest : pos + 1 + src.length = pos + (src.length + 1) := by omega
    obtain ⟨c', hall, hlength', hbefore, hafter⟩ := ih (pos + 1)
      { c with data := data } hbpn (show pos + 1 + src.length ≤ c.maxCount by omega)
      (by simp only [hlength, hrest]; exact hlen)
    have hnext : (pos + 1) * c.bpn = pos * c.bpn + c.bpn := Nat.succ_mul pos c.bpn
    unfold setAll CompactUintArray.set
    rw [if_neg (by omega), hset]
    simp only [ok_bind, except_pure, hall]
    refine ⟨c', rfl, by rw [hlength', hlength], ?_, ?_⟩
    · intro i hi
      rw [List.length_cons] at hi
      rw [hbefore i (by simp only [hrest]; omega), hbits, if_neg (by omega)]
    · intro i hi t ht
      cases i with
      | zero =>
        rw [Nat.add_zero, List.getD_cons_zero, hbefore _ (.inl (by simp only; omega)), hbits,
          if_pos (by omega), Nat.add_sub_cancel_left]
      | succ i =>
        have hshift : pos + (i + 1) = pos + 1 + i := by omega
        rw [hshift, List.getD_cons_succ]
        exact hafter i (by rw [List.length_cons] at hi; omega) t ht

theorem le_minStorageBytes (bpn count : Nat) : count * bpn ≤ 8 * minStorageBytes bpn count := by
  unfold minStorageBytes
  simp only
  split <;> omega

theorem clampBits_eq (hbpn : 0 < bpn) (hle : bpn ≤ 64) : clampBits bpn = bpn := by
  unfold clampBits
  rw [if_neg (by omega), if_neg (by omega)]

theorem create_spec (src : List Nat) (hbpn : 0 < bpn) (hle : bpn ≤ 64) :
    ∃ data, create src bpn = .ok data ∧ data.length = minStorageBytes bpn src.length ∧
      ∀ i < src.length, ∀ t < bpn, bit data (i * bpn + t) = (src.getD i 0).testBit t := by
  have hclamp := clampBits_eq hbpn hle
  have hspace := le_minStorageBytes bpn src.length
  have hcount : src.length ≤ minStorageBytes bpn src.length * 8 / bpn := by
    rw [Nat.le_div_iff_mul_le hbpn]
    omega
  obtain ⟨c', hall, hlength, -, hbits⟩ := setAll_spec src 0
    (ofData (List.replicate (minStorageBytes bpn src.length) 0) bpn)
    (by simp only [ofData, hclamp]; exact hbpn)
    (show 0 + src.length ≤ _ by simp only [ofData, hclamp, List.length_replicate]; omega)
    (by simp only [ofData, hclamp, List.length_replicate, Nat.zero_add]; exact hspace)
  simp only [ofData, hclamp, List.length_replicate, Nat.zero_add] at hlength hbits
  unfold create
  simp only [hall, ok_bind, except_pure]
  exact ⟨c'.data, rfl, hlength, hbits⟩

end CompactUintArray

end Sserialize
