import Sserialize.Containers.CompactUintArray
import Sserialize.Containers.DynamicBitSet
import Sserialize.ItemIndex.WAHWord
import Sserialize.Storage.UByteArrayAdapterFill

/-!
# `ItemIndexPrivateWAH`

The index is the size of its words in bytes, the number of ids and the words. The word iterators
are lists of the words that are left.
-/

namespace Sserialize

/-- `uint32_t` words in storage. -/
def wordBytes (ws : List Nat) : Bytes := ws.flatMap (leBytes 4)

/-! ## `create` -/

structure WahCreator where
  dest : List Nat
  prev : Nat
  curRleEncWord : Nat
  curEncWord : Nat
  curEncWordPos : Nat
  deriving Repr, DecidableEq

namespace WahCreator

def flushRle (c : WahCreator) : WahCreator :=
  if c.curRleEncWord ≠ 0 then
    { c with dest := c.dest ++ [u32 (c.curRleEncWord <<< 2) ||| 0x3], curRleEncWord := 0 }
  else c

def setBit (c : WahCreator) (curEncWordPos : Nat) : WahCreator :=
  { c with
    curEncWord := c.curEncWord ||| 1 <<< curEncWordPos
    curEncWordPos := curEncWordPos + 1 }

def putWord (c : WahCreator) : WahCreator :=
  { c with
    dest := c.dest ++ [u32 (c.curEncWord <<< 1)]
    curEncWord := 0
    curEncWordPos := 0 }

def first (prev : Nat) : WahCreator :=
  let c : WahCreator :=
    { dest := [], prev := prev, curRleEncWord := 0, curEncWord := 0, curEncWordPos := 0 }
  let c :=
    if prev > 30 then { c with dest := [u32 ((prev / 31) <<< 2) ||| 0x1] }.setBit (prev % 31)
    else c.setBit prev
  if c.curEncWordPos > 30 then c.putWord else c

def startWord (c : WahCreator) (bitOffsetToPrev : Nat) : WahCreator :=
  let bitOffsetToPrev := bitOffsetToPrev - 1
  let c := c.flushRle
  let (c, bitOffsetToPrev) :=
    if c.curEncWordPos ≠ 0 then
      (c.putWord, bitOffsetToPrev - (31 - c.curEncWordPos))
    else (c, bitOffsetToPrev)
  let (c, bitOffsetToPrev) :=
    if bitOffsetToPrev ≥ 31 then
      let rleCount := bitOffsetToPrev / 31
      ({ c with dest := c.dest ++ [u32 (rleCount <<< 2) ||| 0x1] }, bitOffsetToPrev - rleCount * 31)
    else (c, bitOffsetToPrev)
  c.setBit (bitOffsetToPrev % 31)

def endWord (c : WahCreator) : WahCreator :=
  if c.curEncWordPos > 30 then
    if c.curEncWord = 0x7FFFFFFF then
      { c with curRleEncWord := c.curRleEncWord + 1, curEncWord := 0, curEncWordPos := 0 }
    else c.flushRle.putWord
  else c

def push (c : WahCreator) (id : Nat) : WahCreator :=
  let bitOffsetToPrev := sub32 id c.prev
  let c := { c with prev := id }
  let c :=
    if bitOffsetToPrev > 31 - c.curEncWordPos then c.startWord bitOffsetToPrev
    else c.setBit (c.curEncWordPos + (bitOffsetToPrev - 1))
  c.endWord

def finish (c : WahCreator) : List Nat :=
  let c :=
    if c.curEncWord = 0x7FFFFFFF then
      { c with curRleEncWord := c.curRleEncWord + 1, curEncWord := 0 }
    else c
  let c := c.flushRle
  if c.curEncWord ≠ 0 then c.dest ++ [u32 (c.curEncWord <<< 1)] else c.dest

end WahCreator

structure ItemIndexPrivateWAH where
  words : List Nat
  size : Nat
  deriving Repr, DecidableEq

namespace ItemIndexPrivateWAH

/-- The words that `create` puts behind the header. -/
def createWords : List Nat → List Nat
  | [] => []
  | [val] =>
    if val > 30 then
      [u32 ((val / 31) <<< 2) ||| 0x1, u32 ((1 <<< (val % 31)) <<< 1)]
    else [1 <<< (val + 1)]
  | prev :: src => (src.foldl WahCreator.push (.first prev)).finish

def create (src : List Nat) : Except Fault Bytes := do
  let count ← narrowCheck32 src.length
  let words := createWords src
  let dataSize ← narrowCheck32 (4 * words.length)
  return leBytes 4 dataSize ++ leBytes 4 count ++ wordBytes words

/-! ## Reading -/

def readWords (data : Bytes) : Nat → Nat → Except Fault (List Nat)
  | 0, _ => .ok []
  | count + 1, pos => do
    let w ← getUint 4 data pos
    let ws ← readWords data count (pos + 4)
    return w :: ws

def ofData (data : Bytes) : Except Fault ItemIndexPrivateWAH := do
  let dataSize ← getUint 4 data 0
  let size ← getUint 4 data 4
  let words ← readWords data (dataSize / 4) 8
  return { words, size }

def literalIds : Nat → Nat → Nat → List Nat
  | 0, _, _ => []
  | rounds + 1, val, curId =>
    if val ≠ 0 then
      let ids := literalIds rounds (val >>> 1) (u32 (curId + 1))
      if val &&& 0x1 ≠ 0 then curId :: ids else ids
    else []

/-- The loop body of `at`: the next `m_curId`, and the ids that are put into the cache. -/
def wordIds (val curId : Nat) : Nat × List Nat :=
  if val &&& 0x1 ≠ 0 then
    let val := val >>> 1
    let ids :=
      if val &&& 0x1 ≠ 0 then
        let count := u32 ((val >>> 1) * 31)
        (List.range count).map fun i => u32 (curId + i)
      else []
    let val := val >>> 1
    (u32 (curId + u32 (val * 31)), ids)
  else (u32 (curId + 31), literalIds 32 (val >>> 1) curId)

/-- The mutable members `m_curData`, `m_curId` and `m_cache`. -/
structure Cache where
  curData : List Nat
  curId : Nat
  cache : List Nat
  deriving Repr, DecidableEq

def Cache.new (idx : ItemIndexPrivateWAH) : Cache :=
  { curData := idx.words, curId := 0, cache := [] }

def fillTo (pos : Nat) : List Nat → Nat → List Nat → Except Fault Cache
  | [], curId, cache =>
    if cache.length ≤ pos then .error .outOfBounds else .ok { curData := [], curId, cache }
  | val :: curData, curId, cache =>
    if cache.length ≤ pos then
      let (nextId, ids) := wordIds val curId
      fillTo pos curData nextId (cache ++ ids)
    else .ok { curData := val :: curData, curId, cache }

def «at» (idx : ItemIndexPrivateWAH) (c : Cache) (pos : Nat) : Except Fault (Nat × Cache) :=
  if idx.size = 0 ∨ idx.size ≤ pos then .ok (0, c)
  else do
    let c ← fillTo pos c.curData c.curId c.cache
    return (c.cache.getD pos 0, c)

def atEach (idx : ItemIndexPrivateWAH) : List Nat → Cache → Except Fault (List Nat)
  | [], _ => .ok []
  | pos :: rest, c => do
    let (id, c) ← idx.at c pos
    let ids ← atEach idx rest c
    return id :: ids

/-! ## `putInto(DynamicBitSet)` -/

/-- Storage that has the byte behind the bits up to `fdestBitPos`. -/
def growFor (data : Bytes) (fdestBitPos : Nat) : Bytes :=
  let fdestMaxBytePos := fdestBitPos / 8 + if fdestBitPos % 8 > 0 then 1 else 0
  if data.length ≤ fdestMaxBytePos then UByteArrayAdapter.resize data (fdestMaxBytePos + 1) else data

/-- `fill` of storage that is `contiguous` or not. Its loop ends after a round for every byte, or never:
where `length` is 0 and the storage is not contiguous. -/
def fill (contiguous : Bool) (data : Bytes) (value : UInt8) (begin length : Nat) :
    Except Fault Bytes :=
  match (UByteArrayAdapter.Region.whole data).fill contiguous (data.length + 1) value begin length with
  | none => .error .undefinedBehaviour
  | some r => r.map UByteArrayAdapter.Region.storage

def orBytes : Nat → Nat → Nat → Bytes → Except Fault Bytes
  | 0, _, _, data => .ok data
  | rounds + 1, destBytePos, val, data => do
    let data ← modifyByte data destBytePos fun d => byte (d.toNat ||| val)
    orBytes rounds (destBytePos + 1) (val >>> 8) data

def putOnes (contiguous : Bool) (data : Bytes) (destBitPos bitCount : Nat) : Except Fault Bytes := do
  let destBytePos := destBitPos / 8
  let destInBytePos := destBitPos % 8
  let data := growFor data (u32 (destBitPos + bitCount))
  -- the complement of a mask, as the byte it is cut to
  let data ← modifyByte data destBytePos fun d =>
    byte (d.toNat ||| (0xFF - createMask destInBytePos))
  let destBytePos := destBytePos + 1
  let bitCount := sub32 bitCount (8 - destInBytePos)
  let remainingFullBytes := bitCount / 8
  let remainingBits := bitCount % 8
  let data ← fill contiguous data 0xFF destBytePos remainingFullBytes
  if remainingBits ≠ 0 then
    modifyByte data (destBytePos + remainingFullBytes) fun d =>
      byte (d.toNat ||| createMask remainingBits)
  else .ok data

def putLiteral (data : Bytes) (destBitPos val : Nat) : Except Fault Bytes := do
  let destBytePos := destBitPos / 8
  let destInBytePos := destBitPos % 8
  let data := growFor data (u32 (destBitPos + 31))
  let data ← modifyByte data destBytePos fun d => byte (d.toNat ||| val <<< destInBytePos)
  let bitCount := 31 - (8 - destInBytePos)
  let remainingBytes := bitCount / 8 + if bitCount % 8 > 0 then 1 else 0
  orBytes remainingBytes (destBytePos + 1) (val >>> (8 - destInBytePos)) data

def putWords (contiguous : Bool) : List Nat → Nat → Bytes → Except Fault Bytes
  | [], _, data => .ok data
  | val :: dataIt, destBitPos, data =>
    if val &&& 0x1 ≠ 0 then do
      let val := val >>> 1
      let data ←
        if val &&& 0x1 ≠ 0 then putOnes contiguous data destBitPos (u32 ((val >>> 1) * 31))
        else .ok data
      let val := val >>> 1
      putWords contiguous dataIt (u32 (destBitPos + u32 (31 * val))) data
    else do
      let data ← putLiteral data destBitPos (val >>> 1)
      putWords contiguous dataIt (u32 (destBitPos + 31)) data

/-- `contiguous` is the storage of the bit set. -/
def putInto (idx : ItemIndexPrivateWAH) (contiguous : Bool) (bitSet : DynamicBitSet) :
    Except Fault DynamicBitSet :=
  if idx.size = 0 then .ok bitSet
  else do
    let data ← putWords contiguous idx.words 0 bitSet.data
    return ⟨data⟩

/-! ## `fromBitSet` -/

/-- `popCount<uint32_t>`. -/
def popCount (v : Nat) : Nat := (List.range 32).countP v.testBit

structure BitSetEncoder where
  tmpData : List Nat
  curEncWord : Nat
  count : Nat
  deriving Repr, DecidableEq

namespace BitSetEncoder

def new : BitSetEncoder := { tmpData := [], curEncWord := 0, count := 0 }

def push (e : BitSetEncoder) (val : Nat) : BitSetEncoder :=
  let bitCount := popCount val
  let e := { e with count := u32 (e.count + bitCount) }
  if bitCount = 31 then
    let e :=
      if e.curEncWord &&& 0x1 ≠ 0 ∧ e.curEncWord &&& 0x2 = 0 then
        { e with tmpData := e.tmpData ++ [e.curEncWord], curEncWord := 0 }
      else e
    { e with curEncWord := u32 ((e.curEncWord >>> 2 + 1) <<< 2) ||| 0x3 }
  else if bitCount = 0 then
    let e :=
      if e.curEncWord &&& 0x1 ≠ 0 ∧ e.curEncWord &&& 0x2 ≠ 0 then
        { e with tmpData := e.tmpData ++ [e.curEncWord], curEncWord := 0 }
      else e
    { e with curEncWord := u32 ((e.curEncWord >>> 2 + 1) <<< 2) ||| 0x1 }
  else
    let e :=
      if e.curEncWord ≠ 0 then { e with tmpData := e.tmpData ++ [e.curEncWord], curEncWord := 0 }
      else e
    { e with tmpData := e.tmpData ++ [val] }

def finish (e : BitSetEncoder) : List Nat :=
  if e.curEncWord ≠ 0 then e.tmpData ++ [e.curEncWord] else e.tmpData

end BitSetEncoder

end ItemIndexPrivateWAH

end Sserialize
