import Sserialize.Containers.DynamicBitSet
import Sserialize.Containers.SortedOffsetIndexCreate

/-!
# `CompressedMmappedFile`

A file of chunks that are compressed one by one where this pays. Compressed chunks are unpacked into
tiles of a second file, the other ones are mapped where they are. The chunks that were used last are
found through a cache. The calls of the operating system succeed; what they may choose (the address
of a mapping, the victim of the cache) is given from outside.
-/

namespace Sserialize

structure Lzo where
  compress : Bytes → Bytes
  decompress : Bytes → Option Bytes

namespace CompressedMmappedFile

def version : UInt8 := 2

def headerSize : Nat := 12

/-! ## `create` -/

/-- What is written for the chunks so far: the data, the offsets and the types. -/
structure Written where
  data : Bytes
  destOffsets : List Nat
  chunkTypeBitSet : DynamicBitSet
  deriving Repr, DecidableEq

/-- The loop body of `create`. Whether the ratio of two lengths reaches `compressionRatio` is a
comparison of floating point numbers. -/
def putChunk (lzo : Lzo) (reaches : Nat → Nat → Bool) (w : Written) (x : Nat × Bytes) : Written :=
  let (chunkNum, inBuf) := x
  let destOffsets := w.destOffsets ++ [w.data.length]
  let outBuf := lzo.compress inBuf
  if reaches inBuf.length outBuf.length then
    ⟨w.data ++ outBuf, destOffsets, w.chunkTypeBitSet.set chunkNum⟩
  else ⟨w.data ++ inBuf, destOffsets, w.chunkTypeBitSet⟩

def chunkNums (chunkSize size : Nat) : Nat :=
  size / chunkSize + if size % chunkSize = 0 then 0 else 1

def chunkOf (chunkSize : Nat) (src : Bytes) (chunkNum : Nat) : Bytes :=
  (src.drop (chunkNum * chunkSize)).take chunkSize

def putChunks (lzo : Lzo) (reaches : Nat → Nat → Bool) (chunkSize : Nat) (src : Bytes) : Written :=
  let nums := chunkNums chunkSize src.length
  ((List.range nums).map fun i => (i, chunkOf chunkSize src i)).foldl (putChunk lzo reaches)
    ⟨[], [], ⟨List.replicate (nums + headerSize) 0⟩⟩

/-- `create` into an empty destination. The line of the offset index is estimated. -/
def create (lzo : Lzo) (reaches : Nat → Nat → Bool) (estimate : List Nat → RegLine) (src : Bytes)
    (chunkSizeExponent : Nat) : Except Fault Bytes :=
  if chunkSizeExponent < 16 then .error .creation
  else do
    let w := putChunks lzo reaches (1 <<< chunkSizeExponent) src
    let (index, moved) ← SortedOffsetIndex.create (estimate w.destOffsets) w.destOffsets []
    let header := [version, UInt8.ofNat chunkSizeExponent] ++ leBytes 5 src.length ++
      leBytes 5 w.data.length
    return header ++ w.data ++ index.take moved ++ w.chunkTypeBitSet.data ++
      (index.drop moved).drop w.chunkTypeBitSet.data.length

/-! ## `do_open` -/

/-- The part of `CompressedMmappedFilePrivate` that `do_open` sets once. -/
structure CompressedFile where
  file : Bytes
  pageSize : Nat
  size : Nat
  compressedSize : Nat
  chunkShift : Nat
  chunkIndex : SortedOffsetIndex
  chunkTypeBitSet : DynamicBitSet

/-- What an entry of `m_chunkStorage` points to: a tile of the mapping at an address, or a mapped
chunk. -/
inductive Pointer where
  | null
  | tile (base decTileNum : Nat)
  | mapped (chunk : Nat)
  deriving Repr, DecidableEq

/-- `m_decTileFile`: the address and the size of its mapping, and the bytes of its tiles. -/
structure TileFile where
  base : Nat
  size : Nat
  tiles : Nat → Bytes

/-- The chunk cache. `m_cache` is `lines` and `occupied`. -/
structure ChunkCache where
  maxOccupyCount : Nat
  lines : List Nat
  occupied : List Nat
  decTileFile : TileFile
  freeList : List Nat
  chunkStorage : List Pointer
  draws : Nat

def noPosition : Nat := 2 ^ 32 - 1

def u16 (n : Nat) : Nat := n % 2 ^ 16

namespace CompressedFile

/-- `1 << m_chunkShift`, a shift of an `int`. -/
def chunkSize (cf : CompressedFile) : Nat := 1 <<< cf.chunkShift

end CompressedFile

def allTiles (count : Nat) : List Nat := (List.range count).map u16

/-- `do_open`, with the address of the tile file. `none` stands for `false`. -/
def doOpen (pageSize base maxOccupyCount : Nat) (file : Bytes) :
    Except Fault (Option (CompressedFile × ChunkCache)) :=
  if file.length ≤ headerSize then .ok none
  else do
    let v ← byteAt file 0
    if v ≠ version then .ok none
    else do
      let chunkShift ← byteAt file 1
      let size ← getUint 5 file 2
      let compressedSize ← getUint 5 file 7
      if chunkShift.toNat ≥ 31 then .error .undefinedBehaviour
      else if compressedSize / 1 <<< chunkShift.toNat + 1 > 2 ^ 32 - 1 then .error .outOfBounds
      else
        match SortedOffsetIndex.init (file.drop (headerSize + compressedSize)) with
        | .error _ => .ok none
        | .ok chunkIndex =>
          let cf : CompressedFile :=
            { file := file, pageSize := pageSize, size := size, compressedSize := compressedSize,
              chunkShift := chunkShift.toNat, chunkIndex := chunkIndex,
              chunkTypeBitSet :=
                ⟨file.drop (headerSize + compressedSize + chunkIndex.getSizeInBytes)⟩ }
          let tileBytes := cf.chunkSize * maxOccupyCount
          .ok (some (cf,
            { maxOccupyCount := maxOccupyCount, lines := List.replicate chunkIndex.size noPosition,
              occupied := [],
              decTileFile := ⟨base, tileBytes, fun _ => List.replicate cf.chunkSize 0⟩,
              freeList := allTiles maxOccupyCount,
              chunkStorage := List.replicate maxOccupyCount .null, draws := 0 }))

/-! ## Chunks -/

namespace CompressedFile

variable (cf : CompressedFile)

def chunk (offset : Nat) : Nat := u32 (offset >>> cf.chunkShift)

def inChunkOffSet (offset : Nat) : Nat := offset &&& createMask cf.chunkShift

structure MmapChunkParams where
  mmap_begin : Nat
  mmap_size : Nat
  chunk_size : Nat
  chunk_begin_in_mmap : Nat

def mmapChunkParameters (chunk : Nat) : Except Fault MmapChunkParams := do
  let offset ← cf.chunkIndex.at chunk
  let next ← if chunk + 1 < cf.chunkIndex.size then cf.chunkIndex.at (chunk + 1)
    else .ok cf.compressedSize
  let chunkLen := next - offset
  let offset_in_file := offset + headerSize
  let chunk_begin_in_mmap := offset_in_file % cf.pageSize
  let mmap_size := chunk_begin_in_mmap + chunkLen
  let pages := mmap_size / cf.pageSize + if mmap_size % cf.pageSize ≠ 0 then 1 else 0
  return { mmap_begin := offset_in_file - chunk_begin_in_mmap
           mmap_size := pages * cf.pageSize
           chunk_size := chunkLen
           chunk_begin_in_mmap := chunk_begin_in_mmap }

def mmapChunk (chunk : Nat) : Except Fault Bytes := do
  let params ← cf.mmapChunkParameters chunk
  return ((cf.file.drop params.mmap_begin).take params.mmap_size).drop params.chunk_begin_in_mmap

def doUnpack (lzo : Lzo) (chunk : Nat) : Except Fault Bytes := do
  let params ← cf.mmapChunkParameters chunk
  let data ← cf.mmapChunk chunk
  match lzo.decompress (data.take params.chunk_size) with
  | some bytes => if bytes.length ≤ cf.chunkSize then return bytes else .error .corruptData
  | none => .error .corruptData

end CompressedFile

/-! ## The cache -/

variable (cf : CompressedFile) (lzo : Lzo) (rand : Nat → Nat)

def element {α : Type} (v : List α) (pos : Nat) : Except Fault α :=
  match v[pos]? with
  | some x => .ok x
  | none => .error .undefinedBehaviour

def TileFile.write (f : TileFile) (decTileNum : Nat) (bytes : Bytes) : TileFile :=
  let tile := bytes ++ (f.tiles decTileNum).drop bytes.length
  ⟨f.base, f.size, Function.update f.tiles decTileNum tile⟩

def decTileNum (chunkSize base : Nat) : Pointer → Except Fault Nat
  | .tile b t => .ok (u16 ((((b + t * chunkSize : Int) - base) % 2 ^ 64).toNat / chunkSize))
  | _ => .error .undefinedBehaviour

def evict (c : ChunkCache) : Except Fault (ChunkCache × Nat) := do
  let evictedChunk ← element c.occupied (rand c.draws % c.occupied.length)
  let position ← element c.lines evictedChunk
  let pointer ← element c.chunkStorage position
  let c := { c with
    occupied := c.occupied.erase evictedChunk
    lines := c.lines.set evictedChunk noPosition
    chunkStorage := c.chunkStorage.set position .null
    draws := c.draws + 1 }
  if cf.chunkTypeBitSet.isSet evictedChunk then do
    let t ← decTileNum cf.chunkSize c.decTileFile.base pointer
    return ({ c with freeList := c.freeList ++ [t] }, position)
  else return (c, position)

/-- `populate`: the state and the pointer to the chunk. -/
def populate (c : ChunkCache) (chunk : Nat) : Except Fault (ChunkCache × Pointer) :=
  if cf.chunkTypeBitSet.isSet chunk then
    match c.freeList.getLast? with
    | none => .error .undefinedBehaviour
    | some t => do
      let bytes ← cf.doUnpack lzo chunk
      let decTileFile := c.decTileFile.write t bytes
      return ({ c with freeList := c.freeList.dropLast, decTileFile := decTileFile },
        .tile c.decTileFile.base t)
  else .ok (c, .mapped chunk)

def chunkData (c : ChunkCache) (chunk : Nat) : Except Fault (ChunkCache × Pointer) := do
  let position ← element c.lines chunk
  if position < noPosition then do
    let pointer ← element c.chunkStorage position
    return (c, pointer)
  else do
    let (c, position) ←
      if c.occupied.length ≥ c.maxOccupyCount then evict cf rand c
      else .ok (c, c.occupied.length)
    let _ ← element c.chunkStorage position
    let (c, pointer) ← populate cf lzo c chunk
    return ({ c with
      chunkStorage := c.chunkStorage.set position pointer
      lines := c.lines.set chunk position
      occupied := c.occupied.orderedInsert (· ≤ ·) chunk }, pointer)

def evictAll : Nat → ChunkCache → Except Fault ChunkCache
  | 0, c => .ok c
  | fuel + 1, c =>
    if c.occupied.length > 0 then do
      let (c, _) ← evict cf rand c
      evictAll fuel c
    else .ok c

def resizeStorage (v : List Pointer) (count : Nat) : List Pointer :=
  v.take count ++ List.replicate (count - v.length) .null

/-- `setCacheCount` of an open file. A tile file that grows is mapped at the address `base`. -/
def setCacheCount (base count : Nat) (c : ChunkCache) : Except Fault ChunkCache := do
  let c :=
    if cf.chunkSize * count > c.decTileFile.size then
      { c with decTileFile := ⟨base, cf.chunkSize * count, c.decTileFile.tiles⟩
               freeList := allTiles count }
    else c
  let c ← evictAll cf rand c.occupied.length { c with maxOccupyCount := count }
  return { c with chunkStorage := resizeStorage c.chunkStorage count }

/-! ## `read` -/

def pointee (f : TileFile) : Pointer → Except Fault Bytes
  | .tile b t => if b = f.base then .ok (f.tiles t) else .error .undefinedBehaviour
  | .mapped chunk => cf.mmapChunk chunk
  | .null => .error .undefinedBehaviour

/-- `n` bytes from a position behind a pointer on. -/
def bytesAt (c : ChunkCache) (pointer : Pointer) (pos n : Nat) : Except Fault Bytes := do
  let bytes ← pointee cf c.decTileFile pointer
  if pos + n ≤ bytes.length then return (bytes.drop pos).take n else .error .undefinedBehaviour

/-- `memmove` of `n` bytes of a chunk to the position `destPos` of the destination. -/
def copyChunk (chunk pos n : Nat) (x : ChunkCache × Bytes × Nat) :
    Except Fault (ChunkCache × Bytes × Nat) := do
  let (c, dest, destPos) := x
  let (c, pointer) ← chunkData cf lzo rand c chunk
  let bytes ← bytesAt cf c pointer pos n
  if destPos + n ≤ dest.length then
    return (c, dest.take destPos ++ bytes ++ dest.drop (destPos + n), destPos + n)
  else .error .undefinedBehaviour

def read (c : ChunkCache) (offset : Nat) (dest : Bytes) (len : Nat) :
    Except Fault (ChunkCache × Bytes × Nat) :=
  if offset > cf.size ∨ len = 0 then .ok (c, dest, 0)
  else do
    let len := if u64 (offset + len : Nat) > cf.size then cf.size - offset else len
    let beginChunk := cf.chunk offset
    let endChunk := cf.chunk (u64 ((offset + len : Nat) - 1 : Int))
    let x ← copyChunk cf lzo rand beginChunk (cf.inChunkOffSet offset)
      (min len (cf.chunkSize - cf.inChunkOffSet offset)) (c, dest, 0)
    let x ← (List.range' (beginChunk + 1) (endChunk - (beginChunk + 1))).foldlM
      (fun x i => copyChunk cf lzo rand i 0 cf.chunkSize x) x
    let (c, dest, _) ←
      if beginChunk < endChunk then
        copyChunk cf lzo rand endChunk 0 (cf.inChunkOffSet (offset + len)) x
      else .ok x
    return (c, dest, len)

end CompressedMmappedFile

end Sserialize
