import Sserialize.Containers.DynamicBitSet
import Sserialize.Library.Ascending

/-!
# `ItemIndexPrivateRleDE`

Deltas in run-length form: the varint `delta << 1`, or the varint `(count << 1) | 1` followed by
`delta << 1`. The payload is preceded by the number of ids and its size in bytes.
-/

namespace Sserialize

/-- Members of `ItemIndexPrivateRleDECreator` but the destination, which `flushData` writes once. -/
structure RleDECreator where
  data : Bytes
  rle : Nat
  lastDiff : Nat
  count : Nat
  prev : Nat
  deriving Repr, DecidableEq

namespace RleDECreator

def new : RleDECreator := { data := [], rle := 0, lastDiff := 0, count := 0, prev := 0 }

def runBytes (rle lastDiff : Nat) : Bytes :=
  if rle = 1 then pVu32 (u32 (lastDiff <<< 1))
  else pVu32 (u32 (rle <<< 1) ||| 0x1) ++ pVu32 (u32 (lastDiff <<< 1))

def flushRle (c : RleDECreator) : RleDECreator :=
  if c.rle ≠ 0 then { c with data := c.data ++ runBytes c.rle c.lastDiff, rle := 0 }
  else { c with rle := 0 }

def flushData (c : RleDECreator) : Bytes :=
  pVu32 c.count ++ pVu32 (u32 c.data.length) ++ c.data

def pushBack (c : RleDECreator) (id : Nat) : RleDECreator :=
  let diff := sub32 id c.prev
  let c :=
    if diff = c.lastDiff then { c with rle := u32 (c.rle + 1) }
    else { c.flushRle with rle := 1, lastDiff := diff }
  { c with prev := id, count := u32 (c.count + 1) }

def pushRle (c : RleDECreator) (nextId delta length : Nat) : RleDECreator :=
  let c := c.pushBack nextId
  if length ≠ 0 then
    let c := c.pushBack (u32 (nextId + delta))
    let length := length - 1
    { c with
      rle := u32 (c.rle + length)
      prev := u32 (c.prev + delta * length)
      count := u32 (c.count + length) }
  else c

def flushWithData (c : RleDECreator) (appendData : Bytes) (countInData : Nat) : Bytes :=
  let c := c.flushRle
  { c with data := c.data ++ appendData, count := u32 (c.count + countInData) }.flushData

def flush (c : RleDECreator) : Bytes := c.flushRle.flushData

end RleDECreator

structure ItemIndexPrivateRleDE where
  data : Bytes
  size : Nat
  deriving Repr, DecidableEq

namespace ItemIndexPrivateRleDE

def create (src : List Nat) : Bytes :=
  (src.foldl RleDECreator.pushBack RleDECreator.new).flush

def ofData (data : Bytes) : Except Fault ItemIndexPrivateRleDE := do
  let (size, d) ← (⟨data, 0⟩ : UByteArrayAdapter).getVlPackedUint32
  let (myDataSize, d) ← d.getVlPackedUint32
  let data := d.unread
  if data.length ≠ myDataSize then return ⟨UByteArrayAdapter.resize data myDataSize, size⟩
  else return ⟨data, size⟩

def getSizeInBytes (idx : ItemIndexPrivateRleDE) : Nat :=
  idx.data.length + psizeVu32 idx.size + psizeVu32 (u32 idx.data.length)

/-! ## Random access -/

/-- The mutable members `m_dataOffset`, `m_curId` and `m_cache`. -/
structure Cache where
  dataOffset : Nat
  curId : Nat
  cache : List Nat
  deriving Repr, DecidableEq

def Cache.new : Cache := { dataOffset := 0, curId := 0, cache := [] }

def Cache.pushBack (c : Cache) (value : Nat) : Cache :=
  { c with curId := u32 (c.curId + value), cache := c.cache ++ [u32 (c.curId + value)] }

def Cache.pushRun (value : Nat) : Nat → Cache → Cache
  | 0, c => c
  | rle + 1, c => pushRun value rle (c.pushBack value)

/-- One round of the loop in `at`. -/
def fill (idx : ItemIndexPrivateRleDE) (c : Cache) : Except Fault Cache := do
  let (value, len) ← getVlPackedUint32At idx.data c.dataOffset
  if value &&& 0x1 ≠ 0 then
    let rle := value >>> 1
    let c := { c with dataOffset := u32 (c.dataOffset + len) }
    let (value, len) ← getVlPackedUint32At idx.data c.dataOffset
    let c := Cache.pushRun (value >>> 1) rle c
    return { c with dataOffset := u32 (c.dataOffset + len) }
  else
    let c := c.pushBack (value >>> 1)
    return { c with dataOffset := u32 (c.dataOffset + len) }

/-- The loop of `at`. Every round reads a byte, so it fails before `rounds` are used up. -/
def fillTo (idx : ItemIndexPrivateRleDE) (pos : Nat) : Nat → Cache → Except Fault Cache
  | 0, _ => .error .outOfBounds
  | rounds + 1, c =>
    if c.cache.length ≤ pos then do
      let c ← idx.fill c
      fillTo idx pos rounds c
    else .ok c

def «at» (idx : ItemIndexPrivateRleDE) (c : Cache) (pos : Nat) : Except Fault (Nat × Cache) :=
  if idx.size = 0 ∨ idx.size ≤ pos then .ok (0, c)
  else do
    let c ← idx.fillTo pos (idx.data.length + 1) c
    return (c.cache.getD pos 0, c)

def atEach (idx : ItemIndexPrivateRleDE) : List Nat → Cache → Except Fault (List Nat)
  | [], _ => .ok []
  | pos :: rest, c => do
    let (id, c) ← idx.at c pos
    let ids ← atEach idx rest c
    return id :: ids

/-! ## The iterator -/

structure MyIterator where
  dataOffset : Nat
  curRleCount : Nat
  curRleDiff : Nat
  curId : Nat
  deriving Repr, DecidableEq

def next (idx : ItemIndexPrivateRleDE) (it : MyIterator) : Except Fault MyIterator :=
  if it.curRleCount ≠ 0 then
    .ok { it with curRleCount := it.curRleCount - 1, curId := u32 (it.curId + it.curRleDiff) }
  else if idx.data.length > it.dataOffset then do
    let (tmp, len) ← getVlPackedUint32At idx.data it.dataOffset
    let it := { it with dataOffset := it.dataOffset + len }
    if tmp &&& 0x1 ≠ 0 then
      let (diff, len) ← getVlPackedUint32At idx.data it.dataOffset
      return {
        dataOffset := it.dataOffset + len
        curRleCount := sub32 (tmp >>> 1) 1
        curRleDiff := diff >>> 1
        curId := u32 (it.curId + (diff >>> 1)) }
    else
      return { it with curId := u32 (it.curId + (tmp >>> 1)) }
  else .ok { it with curId := 2 ^ 32 - 1, dataOffset := 2 ^ 32 - 1 }

def iterator (idx : ItemIndexPrivateRleDE) (dataOffset : Nat) : Except Fault MyIterator :=
  idx.next { dataOffset, curRleCount := 0, curRleDiff := 0, curId := 0 }

def cbegin (idx : ItemIndexPrivateRleDE) : Except Fault MyIterator := idx.iterator 0

def cend (idx : ItemIndexPrivateRleDE) : Except Fault MyIterator := idx.iterator (2 ^ 32 - 1)

/-- The ids from `it` up to `last`; `none` when `steps` were not enough to get there. -/
def idsFrom (idx : ItemIndexPrivateRleDE) (last : MyIterator) :
    Nat → MyIterator → Except Fault (Option (List Nat))
  | 0, _ => .ok none
  | steps + 1, it =>
    if it.dataOffset ≠ last.dataOffset then do
      let it' ← idx.next it
      let ids ← idsFrom idx last steps it'
      return ids.map (it.curId :: ·)
    else .ok (some [])

def iterate (idx : ItemIndexPrivateRleDE) (steps : Nat) : Except Fault (Option (List Nat)) := do
  let first ← idx.cbegin
  let last ← idx.cend
  idx.idsFrom last steps first

/-! ## Bulk readers -/

/-- The inner loop of `putInto(uint32_t*)`; `room` elements are left up to `destEnd`. -/
def putRun (val : Nat) : Nat → Nat → Nat → List Nat → Except Fault (Nat × Nat × List Nat)
  | 0, prev, room, dest => .ok (prev, room, dest)
  | _ + 1, _, 0, _ => .error .undefinedBehaviour
  | rle + 1, prev, room + 1, dest =>
    putRun val rle (u32 (prev + val)) room (dest ++ [u32 (prev + val)])

/-- The loop of `putInto(uint32_t*)`. Every round reads a byte, so it fails before `rounds` are
used up. -/
def putIntoArrayLoop : Nat → UByteArrayAdapter → Nat → Nat → List Nat → Except Fault (List Nat)
  | 0, _, _, _, _ => .error .outOfBounds
  | rounds + 1, tmpData, prev, room, dest =>
    if room ≠ 0 then do
      let (val, tmpData) ← tmpData.getVlPackedUint32
      if val &&& 0x1 ≠ 0 then
        let rle := val >>> 1
        let (val, tmpData) ← tmpData.getVlPackedUint32
        let (prev, room, dest) ← putRun (val >>> 1) rle prev room dest
        putIntoArrayLoop rounds tmpData prev room dest
      else
        let prev := u32 (prev + (val >>> 1))
        putIntoArrayLoop rounds tmpData prev (room - 1) (dest ++ [prev])
    else .ok dest

/-- `putInto(uint32_t*)` into an array of `size()` elements. -/
def putIntoArray (idx : ItemIndexPrivateRleDE) : Except Fault (List Nat) :=
  putIntoArrayLoop (idx.data.length + 1) ⟨idx.data, 0⟩ 0 idx.size []

def setRun (val : Nat) : Nat → Nat → DynamicBitSet → Nat × DynamicBitSet
  | 0, prev, bitSet => (prev, bitSet)
  | rle + 1, prev, bitSet => setRun val rle (u32 (prev + val)) (bitSet.set (u32 (prev + val)))

/-- The loop of `putInto(DynamicBitSet)`. Every round reads a byte, so it fails before `rounds`
are used up. -/
def putIntoBitSetLoop (mySize : Nat) :
    Nat → UByteArrayAdapter → Nat → Nat → DynamicBitSet → Except Fault DynamicBitSet
  | 0, _, _, _, _ => .error .outOfBounds
  | rounds + 1, tmpData, count, prev, bitSet =>
    if count < mySize then do
      let (val, tmpData) ← tmpData.getVlPackedUint32
      if val &&& 0x1 ≠ 0 then
        let rle := val >>> 1
        let count := u32 (count + rle)
        let (val, tmpData) ← tmpData.getVlPackedUint32
        let val := val >>> 1
        -- the last id of the run comes first so that the storage grows once
        let bitSet := bitSet.set (u32 (prev + u32 (rle * val)))
        let (prev, bitSet) := setRun val (sub32 rle 1) prev bitSet
        putIntoBitSetLoop mySize rounds tmpData count (u32 (prev + val)) bitSet
      else
        let prev := u32 (prev + (val >>> 1))
        putIntoBitSetLoop mySize rounds tmpData (u32 (count + 1)) prev (bitSet.set prev)
    else .ok bitSet

def putIntoBitSet (idx : ItemIndexPrivateRleDE) (bitSet : DynamicBitSet) :
    Except Fault DynamicBitSet :=
  putIntoBitSetLoop idx.size (idx.data.length + 1) ⟨idx.data, 0⟩ 0 0 bitSet

end ItemIndexPrivateRleDE

end Sserialize
