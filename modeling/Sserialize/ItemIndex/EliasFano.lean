import Sserialize.Algorithm.UtilMath
import Sserialize.Containers.CompactUintArray
import Sserialize.Iterator.UnaryCode

/-!
# `ItemIndexPrivateEliasFano`

Every id is reduced by its position and split: the lower bits are packed in a `CompactUintArray`,
the differences of the upper parts are written in unary code. The width of the lower bits is a
parameter, `numLowerBits` is what the library computes for it.
-/

namespace Sserialize

namespace ItemIndexPrivateEliasFano

/-- The difference of the logarithms, rounded down, see `floor_logb_sub_logb`. -/
def numLowerBits (count upperBound : Nat) : Nat :=
  if count = 0 then 0
  else if upperBound < count then 0
  else Nat.log 2 (upperBound / count)

def upperBound (count largestElement : Nat) : Except Fault Nat :=
  let largestElement := sub32 largestElement (sub32 count 1)
  let l2 := 1 <<< msb largestElement
  if l2 = largestElement then .ok l2
  else if u32 (l2 <<< 1) = 0 then .error .domainError
  else .ok (u32 (l2 <<< 1))

def upperBoundStorage (upperBound : Nat) : Nat := msb upperBound

/-! ## Writing -/

def reduced : Nat → List Nat → List Nat
  | _, [] => []
  | off, x :: src => sub32 x off :: reduced (u32 (off + 1)) src

def putGaps (lowerBits : Nat) : Nat → List Nat → UnaryCodeCreator → UnaryCodeCreator
  | _, [], ucc => ucc
  | lastUpper, v :: src, ucc =>
    let ub := v >>> lowerBits
    let gap := sub32 ub lastUpper
    putGaps lowerBits ub src (ucc.put gap)

def create (numLowerBits : Nat → Nat → Nat) (src : List Nat) (dest : Bytes) :
    Except Fault Unit × Bytes :=
  match narrowCheck32 src.length with
  | .error e => (.error e, dest)
  | .ok srcSize =>
    if srcSize = 0 then (.ok (), dest ++ pVu32 0)
    else
      match upperBound srcSize (src.getLastD 0) with
      | .error e => (.error e, dest)
      | .ok ub =>
        let lowerBits := numLowerBits srcSize ub
        let lbmask := createMask lowerBits
        let dest := dest ++ pVu32 srcSize ++ pVu32 (upperBoundStorage ub)
        let lower :=
          if lowerBits ≠ 0 then
            CompactUintArray.create ((reduced 0 src).map (· &&& lbmask)) lowerBits
          else .ok []
        match lower with
        | .error e => (.error e, dest)
        | .ok lower =>
          let dest := dest ++ lower
          let upperBitsData := (putGaps lowerBits 0 (reduced 0 src) (.new [])).flush.d
          match narrowCheck32 upperBitsData.length with
          | .error e => (.error e, dest)
          | .ok upperSize => (.ok (), dest ++ pVu32 upperSize ++ upperBitsData)

end ItemIndexPrivateEliasFano

/-! ## Reading -/

structure EliasFanoIterator where
  lb : CompactUintArray
  lbPos : Nat
  ub : UnaryCodeIterator
  lastUb : Nat
  baseValue : Nat
  numLowerBits : Nat
  deriving Repr, DecidableEq

namespace EliasFanoIterator

def get (it : EliasFanoIterator) : Except Fault Nat :=
  if it.numLowerBits ≠ 0 then do
    let lb ← it.lb.at it.lbPos
    return u32 ((u32 (u32 (it.lastUb + it.ub.last) <<< it.numLowerBits) ||| lb) + it.baseValue)
  else .ok (u32 (u32 (it.lastUb + it.ub.last) + it.baseValue))

def next (it : EliasFanoIterator) : EliasFanoIterator :=
  { it with
    lastUb := u32 (it.lastUb + it.ub.last)
    baseValue := u32 (it.baseValue + 1)
    ub := it.ub.next
    lbPos := it.lbPos + 1 }

end EliasFanoIterator

structure ItemIndexPrivateEliasFano where
  d : Bytes
  size : Nat
  lowerBits : CompactUintArray
  upperBits : UnaryCodeIterator
  deriving Repr, DecidableEq

namespace ItemIndexPrivateEliasFano

def upperBoundAt (d : Bytes) (upperBoundBegin : Nat) : Except Fault Nat := do
  let (l2, _) ← getVlPackedUint32At d upperBoundBegin
  if l2 ≥ 32 then throw .undefinedBehaviour
  return 1 <<< l2

def openLowerBits (nlb size : Nat) (d : Bytes) : Except Fault CompactUintArray :=
  if nlb ≠ 0 then CompactUintArray.ofDataWithSize d nlb size else .ok .new

def ofData (numLowerBits : Nat → Nat → Nat) (d : Bytes) :
    Except Fault ItemIndexPrivateEliasFano := do
  let (size, _) ← getVlPackedUint32At d 0
  let upperBoundBegin := psizeVu32 size
  if size ≠ 0 then
    let ub ← upperBoundAt d upperBoundBegin
    let lowerBitsBegin := upperBoundBegin + psizeVu32 (upperBoundStorage ub)
    let nlb := numLowerBits size ub
    let lowerBitsSize := CompactUintArray.minStorageBytes nlb size
    let (upperBitsDataSize, _) ← getVlPackedUint32At d (lowerBitsBegin + lowerBitsSize)
    let upperBitsBegin := psizeVu32 upperBitsDataSize
    let totalSize := lowerBitsBegin + lowerBitsSize + upperBitsBegin + upperBitsDataSize
    let d := UByteArrayAdapter.resize d totalSize
    let lowerBits ← openLowerBits nlb size (d.drop lowerBitsBegin)
    let upperBits :=
      UnaryCodeIterator.ofData (d.drop (lowerBitsBegin + lowerBitsSize + upperBitsBegin))
    return { d, size, lowerBits, upperBits }
  else
    return {
      d := UByteArrayAdapter.resize d upperBoundBegin
      size := 0
      lowerBits := .new
      upperBits := .new }

def cbegin (idx : ItemIndexPrivateEliasFano) : EliasFanoIterator :=
  { lb := idx.lowerBits, lbPos := 0, ub := idx.upperBits, lastUb := 0, baseValue := 0,
    numLowerBits := idx.lowerBits.bpn }

def cend (idx : ItemIndexPrivateEliasFano) : EliasFanoIterator :=
  { lb := idx.lowerBits, lbPos := idx.size, ub := .new, lastUb := 0, baseValue := 0,
    numLowerBits := idx.lowerBits.bpn }

/-- The ids from `it` up to `last`; `none` when `steps` were not enough to get there. -/
def idsFrom (last : EliasFanoIterator) :
    Nat → EliasFanoIterator → Except Fault (Option (List Nat))
  | 0, _ => .ok none
  | steps + 1, it =>
    if it.lbPos ≠ last.lbPos then do
      let id ← it.get
      let ids ← idsFrom last steps it.next
      return ids.map (id :: ·)
    else .ok (some [])

def iterate (idx : ItemIndexPrivateEliasFano) (steps : Nat) : Except Fault (Option (List Nat)) :=
  idsFrom idx.cend steps idx.cbegin

/-- The mutable members `m_it` and `m_cache`. -/
structure Cache where
  it : EliasFanoIterator
  cache : List Nat
  deriving Repr, DecidableEq

def Cache.new (idx : ItemIndexPrivateEliasFano) : Cache := { it := idx.cbegin, cache := [] }

/-- The loop of `at`. Every round adds an element to the cache. -/
def fillTo (pos : Nat) : Nat → Cache → Except Fault Cache
  | 0, c => .ok c
  | rounds + 1, c =>
    if c.cache.length ≤ pos then do
      let id ← c.it.get
      fillTo pos rounds { it := c.it.next, cache := c.cache ++ [id] }
    else .ok c

def «at» (idx : ItemIndexPrivateEliasFano) (c : Cache) (pos : Nat) : Except Fault (Nat × Cache) :=
  if pos ≥ idx.size then .error .outOfRange
  else do
    let c ← fillTo pos (pos + 1) c
    return (c.cache.getD pos 0, c)

def atEach (idx : ItemIndexPrivateEliasFano) : List Nat → Cache → Except Fault (List Nat)
  | [], _ => .ok []
  | pos :: rest, c => do
    let (id, c) ← idx.at c pos
    let ids ← atEach idx rest c
    return id :: ids

end ItemIndexPrivateEliasFano

end Sserialize
