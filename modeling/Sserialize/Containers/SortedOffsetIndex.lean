import Sserialize.Algorithm.UtilMath
import Sserialize.Containers.CompactUintArraySet
import Sserialize.Storage.PackUnpack

/-!
# `SortedOffsetIndex`

A sorted list of 64 bit offsets, stored as residuals of a line. The line comes from a linear
regression over `double`, which is not modelled: `RegLine` is any line that it may choose. Signed
values are integers, and signed arithmetic is reduced to `int64_t` after each operation; where the
parameters fit in the sense of `ParamsFit` the residuals do not depend on it.
-/

namespace Sserialize

/-- Conversion to `int64_t`. -/
def s64 (z : Int) : Int := (z + 2 ^ 63) % 2 ^ 64 - 2 ^ 63

/-- Conversion to `uint64_t`. -/
def u64 (z : Int) : Nat := (z % 2 ^ 64).toNat

/-- `narrow_check<uint64_t>` of an `int64_t`. -/
def narrowCheckU64 (z : Int) : Except Fault Nat :=
  if z < 0 then .error .typeOverflow else .ok z.toNat

def CompactUintArray.minStorageBits (number : Nat) : Nat := max 1 (msb64 number + 1)

structure RegLine where
  slopenom : Nat
  yintercept : Int
  slopenom_lt : slopenom < 2 ^ 64
  yintercept_ge : -2 ^ 63 ≤ yintercept
  yintercept_lt : yintercept < 2 ^ 63

structure SortedOffsetIndex where
  idStore : CompactUintArray
  size : Nat
  slopenom : Nat
  yintercept : Int
  idOffset : Int
  deriving Repr, DecidableEq

namespace SortedOffsetIndex

def idBits : Nat := 6

def maxSize : Nat := createMask (64 - idBits)

/-- `getRegLineSlopeCorrectionValue`. A product that overflows is computed with 128 bits, and the
quotient is at most `pos` then. -/
def getRegLineSlopeCorrectionValue (slopenom size pos : Nat) : Nat :=
  let intPart := u64 (slopenom / (size - 1) * pos : Nat)
  let fracPart := slopenom % (size - 1) * pos / (size - 1)
  u64 (intPart + fracPart : Nat)

/-! ## `create` -/

def curDiff (slopenom : Nat) (yintercept : Int) (size count id : Nat) : Int :=
  let curOffSetCorrection :=
    s64 (s64 (getRegLineSlopeCorrectionValue slopenom size count) + yintercept)
  s64 (s64 id - curOffSetCorrection)

def diffRange (slopenom : Nat) (yintercept : Int) (size : Nat) :
    List Nat → Nat → Int → Int → Int × Int
  | [], _, maxPositive, minNegative => (maxPositive, minNegative)
  | id :: ids, count, maxPositive, minNegative =>
    let diff := curDiff slopenom yintercept size count id
    diffRange slopenom yintercept size ids (count + 1)
      (if diff > maxPositive then diff else maxPositive)
      (if diff < minNegative then diff else minNegative)

def getNeededBitsForLinearRegression (ids : List Nat) (slopenom : Nat) (yintercept : Int) :
    Except Fault (Nat × Nat) := do
  let (maxPositive, minNegative) := diffRange slopenom yintercept ids.length ids 0 0 0
  let range ← narrowCheckU64 (s64 (s64 (maxPositive - minNegative) + 1))
  return (CompactUintArray.minStorageBits range, minNegative.natAbs)

structure Params where
  bitsForIds : Nat
  slopenom : Nat
  yintercept : Int
  idOffset : Nat
  deriving Repr, DecidableEq

def chooseParams (line : RegLine) (ids : List Nat) : Except Fault Params := do
  let (bitsForIds, idOffset) ←
    getNeededBitsForLinearRegression ids line.slopenom line.yintercept
  let plainBits := CompactUintArray.minStorageBits (ids.getLastD 0)
  if bitsForIds ≥ plainBits then
    return { bitsForIds := plainBits, slopenom := 0, yintercept := 0, idOffset := 0 }
  else
    return { bitsForIds := bitsForIds, slopenom := line.slopenom,
             yintercept := line.yintercept, idOffset := idOffset }

def offSetCorrectedId (p : Params) (size count id : Nat) : Nat :=
  let curOffSetCorrection :=
    s64 (p.yintercept + s64 (getRegLineSlopeCorrectionValue p.slopenom size count))
  u64 (s64 (s64 (s64 id - curOffSetCorrection) + s64 p.idOffset))

def offSetCorrectedIds (p : Params) (size : Nat) : List Nat → Nat → List Nat
  | [], _ => []
  | id :: ids, count =>
    offSetCorrectedId p size count id :: offSetCorrectedIds p size ids (count + 1)

def header (p : Params) (size : Nat) : Bytes :=
  putVlPackedUint64 (size <<< idBits ||| (p.bitsForIds - 1)) ++ putVlPackedInt64 p.yintercept ++
    putVlPackedUint64 p.slopenom ++ putVlPackedUint64 p.idOffset

/-- `create` into a destination with the bytes `old` behind the put pointer: the bytes behind the
old put pointer afterwards, and by how much the put pointer moves. -/
def create (line : RegLine) (ids : List Nat) (old : Bytes) : Except Fault (Bytes × Nat) :=
  if ids.length > maxSize then .error .outOfBounds
  else if ids.length > 1 then do
    let p ← chooseParams line ids
    let front := header p ids.length
    let idStorageNeed := CompactUintArray.minStorageBytes p.bitsForIds ids.length
    let space := old.drop front.length ++ List.replicate idStorageNeed 0
    let idStore ← CompactUintArray.createOver space (offSetCorrectedIds p ids.length ids 0)
      p.bitsForIds
    return (front ++ idStore, front.length + idStorageNeed)
  else
    match ids with
    | id :: _ =>
      let front := [0x40] ++ putVlPackedUint64 id
      .ok (front ++ old.drop front.length, front.length)
    | [] => .ok ([0] ++ old.drop 1, 1)

/-! ## `init` and the accessors -/

def init (data : Bytes) : Except Fault SortedOffsetIndex := do
  let (size, data) ← consumeVlPackedUint64 data
  let bpn := (size &&& 0x3F) + 1
  let size := size >>> 6
  if size > 1 then do
    let (yintercept, data) ← consumeVlPackedInt64 data
    let (slopenom, data) ← consumeVlPackedUint64 data
    let (idOffset, data) ← consumeVlPackedUint64 data
    let idStore := CompactUintArray.ofData data bpn
    if idStore.maxCount < size then .error .corruptData
    else return { idStore := idStore, size := size, slopenom := slopenom,
                  yintercept := yintercept, idOffset := s64 idOffset }
  else if size ≠ 0 then do
    let (yintercept, _) ← consumeVlPackedUint64 data
    return { idStore := .new, size := size, slopenom := 0, yintercept := s64 yintercept,
             idOffset := 0 }
  else return { idStore := .new, size := 0, slopenom := 0, yintercept := 0, idOffset := 0 }

def «at» (index : SortedOffsetIndex) (pos : Nat) : Except Fault Nat :=
  if pos ≥ index.size then .error .outOfBounds
  else if index.size > 1 then do
    let stored ← index.idStore.at pos
    let positive := u64
      (getRegLineSlopeCorrectionValue index.slopenom index.size pos + stored : Nat)
    let negative := s64 (index.yintercept - index.idOffset)
    if negative > 0 then return u64 (positive + u64 negative : Nat)
    else return u64 (positive - u64 (s64 (-negative)))
  else return u64 index.yintercept

def getSizeInBytes (index : SortedOffsetIndex) : Nat :=
  match index.size with
  | 0 => 1
  | 1 => 1 + psizeVu64 (u64 index.yintercept)
  | _ =>
    let idStoreBitCount := index.size * index.idStore.bpn
    psizeVu64 (index.size <<< 6) + psizeVu64 index.slopenom + psizeVs64 index.yintercept +
      psizeVu64 (u64 index.idOffset) +
      (idStoreBitCount / 8 + if idStoreBitCount % 8 > 0 then 1 else 0)

end SortedOffsetIndex

end Sserialize
