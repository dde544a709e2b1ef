import Sserialize.Containers.CompactUintArray
import Sserialize.Library.Ascending

/-!
# `MultiVarBitArray`

Rows of fields of different widths without any alignment, behind a header with the number of rows
and the widths. Offsets are 64 bit numbers of the source; none of them wraps below `2 ^ 40` rows,
the bound of the size in the header.
-/

namespace Sserialize

structure MultiVarBitArray where
  data : Bytes
  bitSums : List Nat
  size : Nat
  deriving Repr, DecidableEq

namespace MultiVarBitArray

def headerSize : Nat := 7

def bitConfigEntrySize : Nat := 6

def version : UInt8 := 2

def minStorageBytes (bitSum count : Nat) : Nat :=
  bitSum / 8 * count + bitSum % 8 * count / 8 + if bitSum % 8 * count % 8 > 0 then 1 else 0

def totalBitSum (a : MultiVarBitArray) : Nat := a.bitSums.getLastD 0

def bitConfigCount (a : MultiVarBitArray) : Nat := a.bitSums.length

/-- A position outside of `m_bitSums` is an access outside of a vector. -/
def bitSumAt (a : MultiVarBitArray) (pos : Nat) : Except Fault Nat :=
  match a.bitSums[pos]? with
  | some sum => .ok sum
  | none => .error .undefinedBehaviour

def bitCount (a : MultiVarBitArray) (pos : Nat) : Except Fault Nat :=
  if pos = 0 then do
    let sum ← a.bitSumAt 0
    return sum % 2 ^ 8
  else do
    let sum ← a.bitSumAt pos
    let before ← a.bitSumAt (pos - 1)
    return (sum - before) % 2 ^ 8

def bitShift (a : MultiVarBitArray) (pos subPos : Nat) : Except Fault Nat := do
  let before ← if subPos > 0 then a.bitSumAt (subPos - 1) else .ok 0
  return a.totalBitSum * pos + before

def getSizeInBytes (a : MultiVarBitArray) : Nat :=
  headerSize + CompactUintArray.minStorageBytes bitConfigEntrySize a.bitConfigCount +
    minStorageBytes a.totalBitSum a.size

def «at» (a : MultiVarBitArray) (pos subPos : Nat) : Except Fault Nat :=
  if pos ≥ a.size then .error .outOfBounds
  else do
    let bitCount ← a.bitCount subPos
    let initTotalBitShift ← a.bitShift pos subPos
    CompactUintArray.fieldAt 64 a.data bitCount initTotalBitShift

def set (a : MultiVarBitArray) (pos subPos value : Nat) : Except Fault (Nat × MultiVarBitArray) :=
  if pos ≥ a.size then .error .outOfBounds
  else do
    let bitCount ← a.bitCount subPos
    let initTotalBitShift ← a.bitShift pos subPos
    let (value, data) ← CompactUintArray.fieldSet a.data bitCount initTotalBitShift value
    return (value, { a with data := data })

/-- The loop of the constructor: the sums behind the sum `last`. -/
def bitSumsLoop (carr : CompactUintArray) : Nat → Nat → Nat → Except Fault (List Nat)
  | 0, _, _ => .ok []
  | rounds + 1, i, last => do
    let bits ← carr.at i
    let sum := (last + 1 + bits) % 2 ^ 16
    let sums ← bitSumsLoop carr rounds (i + 1) sum
    return sum :: sums

def ofData (data : Bytes) : Except Fault MultiVarBitArray := do
  let size ← getUint 5 data 1
  let storedVersion ← byteAt data 0
  if storedVersion ≠ version then .error .versionMissMatch
  else do
    let bitConfigCount ← byteAt data 6
    let carr := CompactUintArray.ofData (data.drop headerSize) bitConfigEntrySize
    let first ← carr.at 0
    let sums ← bitSumsLoop carr (bitConfigCount.toNat - 1) 1 (first + 1)
    let dataOffset := headerSize +
      CompactUintArray.minStorageBytes bitConfigEntrySize bitConfigCount.toNat
    return { data := data.drop dataOffset, bitSums := (first + 1) :: sums, size := size }

end MultiVarBitArray

/-! ## The creator -/

/-- `growStorage` up to `size` bytes. -/
def growTo (storage : Bytes) (size : Nat) : Bytes :=
  storage ++ List.replicate (size - storage.length) 0

/-- The storage from the put pointer on is `front ++ arr.data`. The array views it from the end of
`front` on; `m_header` views its first `headerLen` bytes, since growing one view does not grow the
other. -/
structure MultiVarBitArrayCreator where
  front : Bytes
  arr : MultiVarBitArray
  headerLen : Nat
  headerSize : Nat
  deriving Repr, DecidableEq

namespace MultiVarBitArrayCreator

def configLoop : List Nat → Nat → CompactUintArray → Except Fault CompactUintArray
  | [], _, carr => .ok carr
  | bits :: bitConfig, i, carr =>
    if bits = 0 ∨ bits > 64 then .error .outOfBounds
    else do
      let carr ← carr.set i (bits - 1)
      configLoop bitConfig (i + 1) carr

/-- The constructor for a destination with the bytes `old` behind its put pointer. -/
def new (bitConfig : List Nat) (old : Bytes) : Except Fault MultiVarBitArrayCreator := do
  let headerSize := MultiVarBitArray.headerSize +
    CompactUintArray.minStorageBytes MultiVarBitArray.bitConfigEntrySize bitConfig.length
  let header := growTo old headerSize
  let fields := [MultiVarBitArray.version] ++ leBytes 5 0 ++ [byte bitConfig.length]
  let carr ← configLoop bitConfig 0 (CompactUintArray.ofData
    (header.drop MultiVarBitArray.headerSize) MultiVarBitArray.bitConfigEntrySize)
  let header := fields ++ carr.data
  let arr ← MultiVarBitArray.ofData header
  return { front := header.take (header.length - arr.data.length), arr := arr,
           headerLen := header.length, headerSize := headerSize }

def reserve (c : MultiVarBitArrayCreator) (count : Nat) : MultiVarBitArrayCreator :=
  if c.arr.size ≥ count then c
  else
    let storageNeed := MultiVarBitArray.minStorageBytes c.arr.totalBitSum count
    { c with arr := { c.arr with data := growTo c.arr.data storageNeed, size := count } }

/-- `set`: the creator afterwards and how the call ends. The value is stored before it is
checked. -/
def set (c : MultiVarBitArrayCreator) (pos subPos value : Nat) :
    MultiVarBitArrayCreator × Except Fault Unit :=
  let c := if c.arr.size ≤ pos then c.reserve (pos + 1) else c
  match c.arr.set pos subPos value with
  | .error e => (c, .error e)
  | .ok (stored, arr) =>
    ({ c with arr := arr }, if value ≠ stored then .error .typeOverflow else .ok ())

def «at» (c : MultiVarBitArrayCreator) (pos subPos : Nat) : Except Fault Nat := c.arr.at pos subPos

/-- `flush`: the bytes of the returned view and how far the put pointer moves. -/
def flush (c : MultiVarBitArrayCreator) : Except Fault (Bytes × Nat) := do
  let storage ← putUint 5 (c.front ++ c.arr.data) 1 c.arr.size
  let storageNeed := MultiVarBitArray.minStorageBytes c.arr.totalBitSum c.arr.size
  let headerLen := max c.headerLen (c.headerSize + storageNeed)
  return ((growTo storage headerLen).take headerLen, c.headerSize + storageNeed)

end MultiVarBitArrayCreator

open BitString

/-! ## The layout of a row -/

namespace MultiVarBitArray

def fieldOffset (bitConfig : List Nat) (subPos : Nat) : Nat := (bitConfig.take subPos).sum

def fieldBegin (bitConfig : List Nat) (pos subPos : Nat) : Nat :=
  bitConfig.sum * pos + fieldOffset bitConfig subPos

variable {bitConfig : List Nat} {subPos : Nat}

theorem fieldOffset_succ (h : subPos < bitConfig.length) :
    fieldOffset bitConfig (subPos + 1) = fieldOffset bitConfig subPos + bitConfig[subPos] := by
  rw [fieldOffset, List.take_add_one, List.getElem?_eq_getElem h, List.sum_append]
  simp [fieldOffset]

theorem fieldOffset_mono (bitConfig : List Nat) {subPos subPos' : Nat} (h : subPos ≤ subPos') :
    fieldOffset bitConfig subPos ≤ fieldOffset bitConfig subPos' := by
  obtain ⟨k, rfl⟩ : ∃ k, subPos' = subPos + k := ⟨subPos' - subPos, by omega⟩
  rw [fieldOffset, fieldOffset, List.take_add, List.sum_append]
  exact Nat.le_add_right _ _

theorem fieldOffset_le_sum (bitConfig : List Nat) (subPos : Nat) :
    fieldOffset bitConfig subPos ≤ bitConfig.sum := by
  have hsum := congrArg List.sum (List.take_append_drop subPos bitConfig)
  rw [List.sum_append] at hsum
  rw [fieldOffset]
  omega

theorem fieldBegin_add_le (pos : Nat) (h : subPos < bitConfig.length) :
    fieldBegin bitConfig pos subPos + bitConfig[subPos] ≤ bitConfig.sum * (pos + 1) := by
  have hle := fieldOffset_le_sum bitConfig (subPos + 1)
  rw [fieldOffset_succ h] at hle
  rw [fieldBegin, Nat.mul_succ]
  omega

theorem fields_disjoint {pos subPos pos' subPos' t : Nat} (h : subPos < bitConfig.length)
    (h' : subPos' < bitConfig.length) (ht : t < bitConfig[subPos'])
    (hne : ¬ (pos' = pos ∧ subPos' = subPos)) :
    ¬ (fieldBegin bitConfig pos subPos ≤ fieldBegin bitConfig pos' subPos' + t ∧
      fieldBegin bitConfig pos' subPos' + t <
        fieldBegin bitConfig pos subPos + bitConfig[subPos]) := by
  have hend := fieldBegin_add_le pos h
  have hend' := fieldBegin_add_le pos' h'
  rcases Nat.lt_trichotomy pos' pos with hlt | heq | hgt
  · have hrow : bitConfig.sum * (pos' + 1) ≤ bitConfig.sum * pos := Nat.mul_le_mul_left _ hlt
    have hstart : bitConfig.sum * pos ≤ fieldBegin bitConfig pos subPos := Nat.le_add_right _ _
    omega
  · subst heq
    rw [fieldBegin, fieldBegin]
    rcases Nat.lt_trichotomy subPos' subPos with hlt | heq | hgt
    · have hmono := fieldOffset_mono bitConfig (Nat.succ_le_of_lt hlt)
      rw [Nat.succ_eq_add_one, fieldOffset_succ h'] at hmono
      omega
    · exact absurd ⟨rfl, heq⟩ hne
    · have hmono := fieldOffset_mono bitConfig (Nat.succ_le_of_lt hgt)
      rw [Nat.succ_eq_add_one, fieldOffset_succ h] at hmono
      omega
  · have hrow : bitConfig.sum * (pos + 1) ≤ bitConfig.sum * pos' := Nat.mul_le_mul_left _ hgt
    have hstart : bitConfig.sum * pos' ≤ fieldBegin bitConfig pos' subPos' := Nat.le_add_right _ _
    omega

theorem le_minStorageBytes (bitSum count : Nat) : bitSum * count ≤ 8 * minStorageBytes bitSum count := by
  have hsplit : bitSum * count = 8 * (bitSum / 8 * count) + bitSum % 8 * count := by
    calc bitSum * count = (8 * (bitSum / 8) + bitSum % 8) * count := by rw [Nat.div_add_mod]
      _ = 8 * (bitSum / 8 * count) + bitSum % 8 * count := by rw [Nat.add_mul, Nat.mul_assoc]
  unfold minStorageBytes
  split <;> omega

variable {a : MultiVarBitArray}

theorem bitSumAt_sums (h : a.bitSums = Ascending.sums 0 bitConfig) {pos : Nat}
    (hpos : pos < bitConfig.length) : a.bitSumAt pos = .ok (fieldOffset bitConfig (pos + 1)) := by
  have hget : ∀ (ds : List Nat) (acc pos : Nat), pos < ds.length →
      (Ascending.sums acc ds)[pos]? = some (acc + (ds.take (pos + 1)).sum) := by
    intro ds
    induction ds with
    | nil =>
      intro acc pos hlt
      cases hlt
    | cons d ds ih =>
      intro acc pos hlt
      cases pos with
      | zero => simp [Ascending.sums]
      | succ pos =>
        rw [Ascending.sums, List.getElem?_cons_succ, ih (acc + d) pos (Nat.lt_of_succ_lt_succ hlt),
          List.take_succ_cons, List.sum_cons, Nat.add_assoc]
  rw [bitSumAt, h, hget bitConfig 0 pos hpos, Nat.zero_add]
  rfl

theorem totalBitSum_sums (h : a.bitSums = Ascending.sums 0 bitConfig) :
    a.totalBitSum = bitConfig.sum := by
  rw [totalBitSum, h, Ascending.getLastD_sums, Nat.zero_add]

theorem bitShift_sums (h : a.bitSums = Ascending.sums 0 bitConfig) (pos : Nat)
    (hsub : subPos < bitConfig.length) :
    a.bitShift pos subPos = .ok (fieldBegin bitConfig pos subPos) := by
  unfold bitShift
  rw [totalBitSum_sums h]
  cases subPos with
  | zero => rfl
  | succ subPos =>
    rw [if_pos (Nat.succ_pos subPos), Nat.add_sub_cancel, bitSumAt_sums h (by omega)]
    rfl

theorem bitCount_sums (h : a.bitSums = Ascending.sums 0 bitConfig)
    (hsub : subPos < bitConfig.length) (hwidth : bitConfig[subPos] ≤ 64) :
    a.bitCount subPos = .ok bitConfig[subPos] := by
  have hsmall : bitConfig[subPos] % 2 ^ 8 = bitConfig[subPos] := Nat.mod_eq_of_lt (by omega)
  unfold bitCount
  cases subPos with
  | zero =>
    have hfirst : fieldOffset bitConfig (0 + 1) = bitConfig[0] := by
      rw [fieldOffset_succ hsub]
      simp [fieldOffset]
    rw [if_pos rfl, bitSumAt_sums h hsub, hfirst, ok_bind, hsmall]
    rfl
  | succ subPos =>
    have hdiff : fieldOffset bitConfig (subPos + 1 + 1) - fieldOffset bitConfig (subPos + 1) =
        bitConfig[subPos + 1] := by
      rw [fieldOffset_succ hsub]
      omega
    rw [if_neg (by omega), bitSumAt_sums h hsub, ok_bind, Nat.add_sub_cancel,
      bitSumAt_sums h (by omega), ok_bind, hdiff, hsmall]
    rfl

end MultiVarBitArray

end Sserialize
