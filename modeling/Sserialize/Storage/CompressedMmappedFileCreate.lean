import Sserialize.Static.ArrayCorrect
import Sserialize.Storage.CompressedMmappedFileRead

namespace Sserialize

theorem DynamicBitSet.length_le_length_set (b : DynamicBitSet) (pos : Nat) :
    b.data.length ≤ (b.set pos).data.length := by
  rw [DynamicBitSet.set]
  dsimp only
  rw [List.length_modify]
  by_cases h : pos / 8 ≥ b.data.length
  · rw [if_pos h, List.length_append]
    exact Nat.le_add_right _ _
  · rw [if_neg h]

namespace CompressedMmappedFile

open ArrayCreator (starts length_starts getElem_starts starts_append length_flatten_take_succ
  create_starts)

variable {lzo : Lzo} {reaches : Nat → Nat → Bool} {chunkSize : Nat} {src : Bytes}

def isCompressed (lzo : Lzo) (reaches : Nat → Nat → Bool) (inBuf : Bytes) : Bool :=
  reaches inBuf.length (lzo.compress inBuf).length

def storedChunk (lzo : Lzo) (reaches : Nat → Nat → Bool) (inBuf : Bytes) : Bytes :=
  if isCompressed lzo reaches inBuf then lzo.compress inBuf else inBuf

def storedChunks (lzo : Lzo) (reaches : Nat → Nat → Bool) (chunkSize : Nat) (src : Bytes)
    (n : Nat) : List Bytes :=
  (List.range n).map fun i => storedChunk lzo reaches (chunkOf chunkSize src i)

@[simp] theorem length_storedChunks (n : Nat) :
    (storedChunks lzo reaches chunkSize src n).length = n := by
  rw [storedChunks, List.length_map, List.length_range]

theorem storedChunks_succ (n : Nat) : storedChunks lzo reaches chunkSize src (n + 1) =
    storedChunks lzo reaches chunkSize src n ++
      [storedChunk lzo reaches (chunkOf chunkSize src n)] := by
  rw [storedChunks, List.range_succ, List.map_append, List.map_singleton, storedChunks]

theorem getElem_storedChunks {n i : Nat}
    (h : i < (storedChunks lzo reaches chunkSize src n).length) :
    (storedChunks lzo reaches chunkSize src n)[i] =
      storedChunk lzo reaches (chunkOf chunkSize src i) := by
  simp [storedChunks]

structure HasWritten (lzo : Lzo) (reaches : Nat → Nat → Bool) (chunkSize : Nat) (src : Bytes)
    (room n : Nat) (w : Written) : Prop where
  data : w.data = (storedChunks lzo reaches chunkSize src n).flatten
  destOffsets : w.destOffsets = starts (storedChunks lzo reaches chunkSize src n)
  isSet : ∀ q, w.chunkTypeBitSet.isSet q =
    (decide (q < n) && isCompressed lzo reaches (chunkOf chunkSize src q))
  room_le : room ≤ w.chunkTypeBitSet.data.length

theorem hasWritten_zero (room : Nat) :
    HasWritten lzo reaches chunkSize src room 0 ⟨[], [], ⟨List.replicate room 0⟩⟩ := by
  refine ⟨rfl, rfl, fun q => ?_, ?_⟩
  · rw [DynamicBitSet.isSet_eq]
    exact (BitString.bit_append_zeros [] room q).trans (BitString.bit_nil q)
  · rw [List.length_replicate]

theorem HasWritten.putChunk {room n : Nat} {w : Written}
    (h : HasWritten lzo reaches chunkSize src room n w) :
    HasWritten lzo reaches chunkSize src room (n + 1)
      (putChunk lzo reaches w (n, chunkOf chunkSize src n)) := by
  have hoffsets : w.destOffsets ++ [w.data.length] =
      starts (storedChunks lzo reaches chunkSize src (n + 1)) := by
    rw [storedChunks_succ, starts_append, h.destOffsets, h.data]
  have hdata : (storedChunks lzo reaches chunkSize src (n + 1)).flatten =
      w.data ++ storedChunk lzo reaches (chunkOf chunkSize src n) := by
    rw [storedChunks_succ, List.flatten_append, List.flatten_singleton, h.data]
  have hlt : ∀ q, decide (q < n + 1) = (decide (q = n) || decide (q < n)) := by
    intro q
    rw [← Bool.decide_or]
    exact decide_eq_decide.mpr (by omega)
  cases hset : isCompressed lzo reaches (chunkOf chunkSize src n) with
  | true =>
    have hreaches : reaches (chunkOf chunkSize src n).length
        (lzo.compress (chunkOf chunkSize src n)).length = true := hset
    rw [CompressedMmappedFile.putChunk, if_pos hreaches]
    rw [storedChunk, if_pos hset] at hdata
    refine ⟨hdata.symm, hoffsets, fun q => ?_,
      h.room_le.trans (DynamicBitSet.length_le_length_set _ _)⟩
    rw [DynamicBitSet.isSet_set, h.isSet, hlt]
    by_cases heq : q = n
    · rw [heq, hset, decide_eq_true rfl]
      rfl
    · rw [decide_eq_false heq, Bool.false_or, Bool.false_or]
  | false =>
    have hnot : ¬ isCompressed lzo reaches (chunkOf chunkSize src n) = true := by
      rw [hset]
      exact Bool.false_ne_true
    have hreaches : ¬ reaches (chunkOf chunkSize src n).length
        (lzo.compress (chunkOf chunkSize src n)).length = true := hnot
    rw [CompressedMmappedFile.putChunk, if_neg hreaches]
    rw [storedChunk, if_neg hnot] at hdata
    refine ⟨hdata.symm, hoffsets, fun q => ?_, h.room_le⟩
    rw [h.isSet, hlt]
    by_cases heq : q = n
    · rw [heq, hset, Bool.and_false, Bool.and_false]
    · rw [decide_eq_false heq, Bool.false_or]

theorem hasWritten (room n : Nat) : HasWritten lzo reaches chunkSize src room n
    (((List.range n).map fun i => (i, chunkOf chunkSize src i)).foldl (putChunk lzo reaches)
      ⟨[], [], ⟨List.replicate room 0⟩⟩) := by
  induction n with
  | zero => exact hasWritten_zero room
  | succ n ih =>
    rw [List.range_succ, List.map_append, List.foldl_append]
    exact ih.putChunk

/-- The file stores the given ranges of bytes behind its header, with an index of their begins. -/
structure HasRanges (cf : CompressedFile) (items : List Bytes) : Prop where
  pageSize_pos : 0 < cf.pageSize
  data : items.flatten <+: cf.file.drop headerSize
  compressedSize : cf.compressedSize = items.flatten.length
  indexSize : cf.chunkIndex.size = items.length
  index : ∀ i < items.length, cf.chunkIndex.at i = .ok (items.take i).flatten.length

variable {cf : CompressedFile} {items : List Bytes} {i : Nat}

theorem HasRanges.mmapChunkParameters (h : HasRanges cf items) (hi : i < items.length) :
    ∃ params, cf.mmapChunkParameters i = .ok params ∧ params.chunk_size = items[i].length ∧
      params.mmap_begin + params.chunk_begin_in_mmap =
        headerSize + (items.take i).flatten.length ∧
      params.chunk_begin_in_mmap + items[i].length ≤ params.mmap_size := by
  have hnext : ∀ f : Nat → Except Fault CompressedFile.MmapChunkParams,
      (if i + 1 < cf.chunkIndex.size then cf.chunkIndex.at (i + 1) >>= f
        else .ok cf.compressedSize >>= f) =
        f ((items.take i).flatten.length + items[i].length) := by
    intro f
    rw [h.indexSize, h.compressedSize, ← length_flatten_take_succ hi]
    by_cases hlast : i + 1 < items.length
    · rw [if_pos hlast, h.index _ hlast, ok_bind]
    · rw [if_neg hlast, List.take_of_length_le (not_lt.mp hlast), ok_bind]
  rw [CompressedFile.mmapChunkParameters, h.index i hi, ok_bind]
  refine ⟨_, (hnext _).trans rfl, Nat.add_sub_cancel_left _ _, ?_, ?_⟩
  · have hmod := Nat.mod_le ((items.take i).flatten.length + headerSize) cf.pageSize
    dsimp only
    omega
  · dsimp only
    rw [Nat.add_sub_cancel_left]
    generalize ((items.take i).flatten.length + headerSize) % cf.pageSize +
      items[i].length = len
    have hdiv := Nat.div_add_mod' len cf.pageSize
    have hmod := Nat.mod_lt len h.pageSize_pos
    by_cases hzero : len % cf.pageSize = 0
    · rw [if_neg (not_not_intro hzero), Nat.add_zero]
      omega
    · rw [if_pos hzero, Nat.add_mul]
      omega

theorem HasRanges.mmapChunk (h : HasRanges cf items) (hi : i < items.length) :
    ∃ params bytes, cf.mmapChunkParameters i = .ok params ∧ cf.mmapChunk i = .ok bytes ∧
      items[i] <+: bytes ∧ bytes.take params.chunk_size = items[i] := by
  obtain ⟨params, hparams, hsize, hbegin, hfits⟩ := h.mmapChunkParameters hi
  have hprefix : items[i] <+:
      ((cf.file.drop params.mmap_begin).take params.mmap_size).drop params.chunk_begin_in_mmap := by
    obtain ⟨rest, hrest⟩ := h.data
    have hflat : items.flatten =
        (items.take i).flatten ++ (items[i] ++ (items.drop (i + 1)).flatten) := by
      rw [← List.flatten_cons, ← List.flatten_append, ← List.drop_eq_getElem_cons hi,
        List.take_append_drop]
    have hdrop : cf.file.drop (headerSize + (items.take i).flatten.length) =
        items[i] ++ ((items.drop (i + 1)).flatten ++ rest) := by
      rw [← List.drop_drop, ← hrest, hflat, List.append_assoc, List.drop_left, List.append_assoc]
    rw [List.drop_take, List.drop_drop, hbegin, hdrop, List.take_append,
      List.take_of_length_le (by omega)]
    exact List.prefix_append _ _
  refine ⟨params, _, hparams, ?_, hprefix, ?_⟩
  · rw [CompressedFile.mmapChunk, hparams, ok_bind]
    rfl
  · rw [hsize]
    exact (List.prefix_iff_eq_take.mp hprefix).symm

theorem stores_of_hasRanges (hinverts : ∀ bytes, lzo.decompress (lzo.compress bytes) = some bytes)
    (h : HasRanges cf
      (storedChunks lzo reaches cf.chunkSize src (chunkNums cf.chunkSize src.length)))
    (hisSet : ∀ i < chunkNums cf.chunkSize src.length, cf.chunkTypeBitSet.isSet i =
      isCompressed lzo reaches (chunkOf cf.chunkSize src i))
    (hsize : cf.size = src.length) (hlt : src.length < 2 ^ 40) (hlow : 16 ≤ cf.chunkShift)
    (hhigh : cf.chunkShift ≤ 30) : Stores cf lzo src := by
  refine ⟨hsize, hlt, hlow, hhigh, ?_, fun i hi hset => ?_, fun i hi hset => ?_⟩
  · rw [h.indexSize, length_storedChunks]
  · rw [hisSet i hi] at hset
    have hi' : i < (storedChunks lzo reaches cf.chunkSize src
        (chunkNums cf.chunkSize src.length)).length := by rwa [length_storedChunks]
    obtain ⟨params, bytes, hparams, hbytes, -, htake⟩ := h.mmapChunk hi'
    rw [getElem_storedChunks, storedChunk, if_pos hset] at htake
    rw [CompressedFile.doUnpack, hparams, ok_bind, hbytes, ok_bind, htake, hinverts]
    exact if_pos (length_chunkOf_le cf.chunkSize src i)
  · rw [hisSet i hi] at hset
    have hi' : i < (storedChunks lzo reaches cf.chunkSize src
        (chunkNums cf.chunkSize src.length)).length := by rwa [length_storedChunks]
    obtain ⟨params, bytes, -, hbytes, hprefix, -⟩ := h.mmapChunk hi'
    rw [getElem_storedChunks, storedChunk, hset] at hprefix
    exact ⟨bytes, hbytes, hprefix⟩

/-- The conditions on the source and the chunk size: the shift is one of an `int`, the lengths fit
into the header and the offsets into their index. -/
structure CanCreate (lzo : Lzo) (reaches : Nat → Nat → Bool) (estimate : List Nat → RegLine)
    (src : Bytes) (chunkSizeExponent : Nat) : Prop where
  exponent_ge : 16 ≤ chunkSizeExponent
  exponent_le : chunkSizeExponent ≤ 30
  size_lt : src.length < 2 ^ 40
  data_lt : (putChunks lzo reaches (1 <<< chunkSizeExponent) src).data.length < 2 ^ 40
  fits : SortedOffsetIndex.ParamsFit
    (estimate (putChunks lzo reaches (1 <<< chunkSizeExponent) src).destOffsets)
    (putChunks lzo reaches (1 <<< chunkSizeExponent) src).destOffsets

theorem inv_empty {base count nums : Nat} (hnums : nums = chunkNums cf.chunkSize src.length)
    (hpos : 0 < count) (hle : count ≤ 2 ^ 16) (hshift : cf.chunkShift ≤ 30) :
    Inv cf src
      { maxOccupyCount := count, lines := List.replicate nums noPosition, occupied := [],
        decTileFile := ⟨base, cf.chunkSize * count, fun _ => List.replicate cf.chunkSize 0⟩,
        freeList := allTiles count, chunkStorage := List.replicate count .null, draws := 0 } := by
  have hnone : ∀ {p : Nat → Prop}, ∀ i ∈ ([] : List Nat), p i := fun i hi =>
    absurd hi List.not_mem_nil
  refine ⟨count, id, id, ⟨hle, hshift, rfl, ?_, List.nodup_nil, hnone, fun i hi _ => ?_, hnone, hnone,
    hnone, hnone, fun _ => List.length_replicate, hnone, ?_⟩, hnone, List.length_replicate,
    Nat.zero_le _, hpos, le_rfl⟩
  · rw [List.length_replicate, hnums]
  · dsimp only
    rw [List.getElem?_replicate, if_pos (hnums ▸ hi)]
  · dsimp only
    rw [usedTiles, List.filter_nil, List.map_nil, List.append_nil, allTiles_eq hle]

theorem doOpen_header {chunkSizeExponent size : Nat} (pageSize base count : Nat)
    {data index rest : Bytes} {chunkIndex : SortedOffsetIndex} (hlow : 16 ≤ chunkSizeExponent)
    (hhigh : chunkSizeExponent ≤ 30) (hsize : size < 2 ^ 40) (hdata : data.length < 2 ^ 40)
    (hindex : index ≠ []) (hinit : SortedOffsetIndex.init (index ++ rest) = .ok chunkIndex)
    (hbytes : chunkIndex.getSizeInBytes = index.length) :
    ∃ cf c, doOpen pageSize base count ([version, UInt8.ofNat chunkSizeExponent] ++
        leBytes 5 size ++ leBytes 5 data.length ++ data ++ index ++ rest) = .ok (some (cf, c)) ∧
      cf.file.drop headerSize = data ++ (index ++ rest) ∧ cf.pageSize = pageSize ∧
      cf.size = size ∧ cf.compressedSize = data.length ∧ cf.chunkShift = chunkSizeExponent ∧
      cf.chunkIndex = chunkIndex ∧ cf.chunkTypeBitSet = ⟨rest⟩ ∧
      c = { maxOccupyCount := count, lines := List.replicate chunkIndex.size noPosition,
            occupied := [],
            decTileFile :=
              ⟨base, cf.chunkSize * count, fun _ => List.replicate cf.chunkSize 0⟩,
            freeList := allTiles count, chunkStorage := List.replicate count .null,
            draws := 0 } := by
  have hfile : [version, UInt8.ofNat chunkSizeExponent] ++ leBytes 5 size ++
      leBytes 5 data.length ++ data ++ index ++ rest =
      [version, UInt8.ofNat chunkSizeExponent] ++
        (leBytes 5 size ++ (leBytes 5 data.length ++ (data ++ (index ++ rest)))) := by
    simp only [List.append_assoc]
  rw [hfile]
  generalize hwhole : [version, UInt8.ofNat chunkSizeExponent] ++
    (leBytes 5 size ++ (leBytes 5 data.length ++ (data ++ (index ++ rest)))) = file
  have hdrop2 : file.drop 2 =
      leBytes 5 size ++ (leBytes 5 data.length ++ (data ++ (index ++ rest))) := by
    rw [← hwhole]
    rfl
  have hdrop7 : file.drop 7 = leBytes 5 data.length ++ (data ++ (index ++ rest)) := by
    rw [show 7 = 2 + 5 from rfl, ← List.drop_drop, hdrop2,
      List.drop_left' (length_leBytes 5 size)]
  have hdrop12 : file.drop headerSize = data ++ (index ++ rest) := by
    rw [show headerSize = 7 + 5 from rfl, ← List.drop_drop, hdrop7,
      List.drop_left' (length_leBytes 5 data.length)]
  have hlength : ¬ file.length ≤ headerSize := by
    intro hle
    have hnil := List.drop_eq_nil_of_le hle
    rw [hdrop12, List.append_eq_nil_iff, List.append_eq_nil_iff] at hnil
    exact hindex hnil.2.1
  have hversion : byteAt file 0 = .ok version := by
    rw [← hwhole, byteAt, if_pos (by simp)]
    rfl
  have hshift : byteAt file 1 = .ok (UInt8.ofNat chunkSizeExponent) := by
    rw [← hwhole, byteAt, if_pos (by simp)]
    rfl
  have hexponent : (UInt8.ofNat chunkSizeExponent).toNat = chunkSizeExponent := by
    rw [UInt8.toNat_ofNat']
    omega
  have hshiftLe : ¬ chunkSizeExponent ≥ 31 := by omega
  have hcount : ¬ data.length / 1 <<< chunkSizeExponent + 1 > 2 ^ 32 - 1 := by
    have hpow : 2 ^ 16 ≤ 2 ^ chunkSizeExponent := Nat.pow_le_pow_right (by decide) hlow
    have hdiv : data.length / 2 ^ chunkSizeExponent < 2 ^ 24 := by
      refine Nat.div_lt_of_lt_mul ?_
      calc data.length < 2 ^ 16 * 2 ^ 24 := hdata
        _ ≤ 2 ^ chunkSizeExponent * 2 ^ 24 := Nat.mul_le_mul_right _ hpow
    rw [Nat.shiftLeft_eq, Nat.one_mul]
    omega
  have hbehind : file.drop (headerSize + data.length) = index ++ rest := by
    rw [← List.drop_drop, hdrop12, List.drop_left]
  have hbitSet : file.drop (headerSize + data.length + index.length) = rest := by
    rw [← List.drop_drop, hbehind, List.drop_left]
  rw [doOpen, if_neg hlength, hversion, ok_bind, if_neg (not_not_intro rfl), hshift, ok_bind,
    getUint_of_drop hsize (by decide) hdrop2, ok_bind, getUint_of_drop hdata (by decide) hdrop7,
    ok_bind, hexponent, if_neg hshiftLe, if_neg hcount, hbehind, hinit]
  refine ⟨_, _, rfl, hdrop12, rfl, rfl, rfl, rfl, rfl, ?_, rfl⟩
  dsimp only
  rw [hbytes, hbitSet]

theorem doOpen_create {estimate : List Nat → RegLine} {chunkSizeExponent pageSize count : Nat}
    (hinverts : ∀ bytes, lzo.decompress (lzo.compress bytes) = some bytes)
    (hpage : 0 < pageSize) (h : CanCreate lzo reaches estimate src chunkSizeExponent)
    (hpos : 0 < count) (hle : count ≤ 2 ^ 16) (base : Nat) :
    ∃ file cf c, create lzo reaches estimate src chunkSizeExponent = .ok file ∧
      doOpen pageSize base count file = .ok (some (cf, c)) ∧
      cf.chunkShift = chunkSizeExponent ∧ Stores cf lzo src ∧ Inv cf src c ∧
      c.occupied = [] := by
  obtain ⟨hlow, hhigh, hsize, hdata, hfit⟩ := h
  generalize hchunkSize : 1 <<< chunkSizeExponent = chunkSize at hdata hfit
  have hwritten : HasWritten lzo reaches chunkSize src (chunkNums chunkSize src.length + headerSize)
      (chunkNums chunkSize src.length) (putChunks lzo reaches chunkSize src) := hasWritten _ _
  generalize hputChunks : putChunks lzo reaches chunkSize src = w at hdata hfit hwritten
  rw [hwritten.destOffsets] at hfit
  have hdata' := hdata
  rw [hwritten.data] at hdata'
  obtain ⟨bytes, moved, hcreate, hreads⟩ := create_starts _ _
    (Nat.lt_trans hdata' (by decide)) hfit []
  obtain ⟨chunkIndex, hinit, hindexSize, hbytes, hat⟩ := hreads (w.chunkTypeBitSet.data ++
    (bytes.drop moved).drop w.chunkTypeBitSet.data.length)
  rw [length_starts] at hindexSize
  have hindex : bytes.take moved ≠ [] := by
    intro hnil
    obtain ⟨_, hinit', -⟩ := hreads []
    rw [hnil] at hinit'
    exact nomatch hinit'
  obtain ⟨cf, c, hopen, hfile, hpageSize, hcfSize, hcompressed, hshift, hchunkIndex, hbitSet, hc⟩ :=
    doOpen_header pageSize base count hlow hhigh hsize hdata hindex hinit hbytes
  have hcfChunkSize : cf.chunkSize = chunkSize := by
    rw [CompressedFile.chunkSize, hshift, hchunkSize]
  have hstores : Stores cf lzo src := by
    refine @stores_of_hasRanges lzo reaches src cf hinverts ⟨?_, ?_, ?_, ?_, fun i hi => ?_⟩
      (fun i hi => ?_) hcfSize hsize (by omega) (by omega)
    · rwa [hpageSize]
    · rw [hfile, hcfChunkSize, hwritten.data]
      exact List.prefix_append _ _
    · rw [hcompressed, hcfChunkSize, hwritten.data]
    · rw [hchunkIndex, hindexSize, hcfChunkSize]
    · rw [hcfChunkSize] at hi ⊢
      rw [hchunkIndex, hat i (by rwa [length_starts]), getElem_starts]
    · rw [hcfChunkSize] at hi ⊢
      have hroom := hwritten.room_le
      rw [hbitSet, DynamicBitSet.isSet_eq, BitString.bit_append_left (by omega),
        ← DynamicBitSet.isSet_eq, hwritten.isSet, decide_eq_true hi, Bool.true_and]
  refine ⟨_, cf, c, ?_, hopen, hshift, hstores, ?_, ?_⟩
  · rw [create, if_neg (by omega)]
    dsimp only
    rw [hchunkSize, hputChunks, hwritten.destOffsets, hcreate, ok_bind]
    exact congrArg Except.ok (List.append_assoc _ _ _)
  · rw [hc]
    refine inv_empty ?_ hpos hle hstores.shift_le
    rw [hindexSize, length_storedChunks, hcfChunkSize]
  · rw [hc]

end CompressedMmappedFile

end Sserialize
