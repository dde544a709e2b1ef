import Sserialize.ItemIndex.PFoRCreator

/-!
# `PFoRCreator::optBlockCfg`

The block sizes are tried one after the other, from the smallest on. A size is given up as soon as
its blocks need as much storage as those of the best size so far.
-/

namespace Sserialize.PFoRCreator

open ListBlocks RunningMinimum Splice

def blockSizes : List Nat :=
  [1, 2, 4, 6, 8, 12, 16, 20, 24, 28,
    32, 48, 64, 96, 128, 192, 256, 384, 512, 768,
    1024, 1536, 2048, 3072, 4096, 6144, 8192, 12288, 16384, 24576,
    32768, 65536]

def blockDescBitWidth : Nat := 5

def blockSizeTestOrder : List Nat := List.range 32

def blockSizeAt (blockSizeOffset : Nat) : Nat := blockSizes.getD blockSizeOffset 0

def numFullBlocks (blockSize size : Nat) : Nat := u32 (size / blockSize)

def numPartialBlocks (blockSize size : Nat) : Nat := if size % blockSize > 0 then 1 else 0

/-- The numbers of blocks are `uint32_t`. -/
def metaDataSize (blockSize size : Nat) : Nat :=
  CompactUintArray.minStorageBytes blockDescBitWidth
    (u32 (1 + numFullBlocks blockSize size + numPartialBlocks blockSize size))

structure BlockCfg where
  optBlockSizeOffset : Nat
  optStorageSize : Nat
  optMetaDataSize : Nat
  deriving Repr, DecidableEq

def addBlocks (optStorageSize : Nat) : List (List Nat) → Nat → Nat
  | [], storageSize => storageSize
  | block :: blocks, storageSize =>
    if storageSize < optStorageSize then
      addBlocks optStorageSize blocks (storageSize + sub32 (optBitsOD block).2 1)
    else storageSize

def tryBlockSize (entries : List Nat) (cfg : BlockCfg) (blockSizeOffset : Nat) : BlockCfg :=
  let blockSize := blockSizeAt blockSizeOffset
  if blockSize ≥ 2 * entries.length then cfg
  else
    let numBlocks :=
      u32 (numFullBlocks blockSize entries.length + numPartialBlocks blockSize entries.length)
    let metaDataSize := metaDataSize blockSize entries.length
    let storageSize :=
      addBlocks cfg.optStorageSize (blocks blockSize entries) (metaDataSize + numBlocks)
    if storageSize < cfg.optStorageSize then
      { optBlockSizeOffset := blockSizeOffset
        optStorageSize := u32 storageSize
        optMetaDataSize := u32 metaDataSize }
    else cfg

def optBlockCfg (entries : List Nat) : Nat × Nat :=
  if entries.length < 1 then (0, 0)
  else
    let cfg := blockSizeTestOrder.foldl (tryBlockSize entries)
      ⟨blockSizes.length - 1, 2 ^ 32 - 1, 2 ^ 32 - 1⟩
    (cfg.optBlockSizeOffset, sub32 cfg.optStorageSize cfg.optMetaDataSize)

/-- The loop of `create` over the blocks, with the bits that go to the metadata. -/
def encodeBlocks (dest : Dest) (blockSize : Nat) (values : List Nat) : Dest × List Nat :=
  (blocks blockSize values).foldl
    (fun r block =>
      let (optBits, optStorageSize) := optBitsOD (block.map entryBits)
      (encodeBlock r.1 block optBits optStorageSize, r.2 ++ [optBits]))
    (dest, [])

/-! ## Configurations -/

/-- A block size that the optimizer tests, and numbers of bits for the blocks. -/
structure Considered (values : List Nat) (blockSizeOffset : Nat) (bits : List Nat) : Prop where
  offset : blockSizeOffset ∈ blockSizeTestOrder
  blockSize : blockSizeAt blockSizeOffset < 2 * values.length
  length : bits.length = (blocks (blockSizeAt blockSizeOffset) values).length
  range : ∀ optBits ∈ bits, 1 ≤ optBits ∧ optBits ≤ 31

def configBytes (values : List Nat) (blockSizeOffset : Nat) (bits : List Nat) : Bytes :=
  (((blocks (blockSizeAt blockSizeOffset) values).zip bits).map fun b => blockBytes b.2 b.1).flatten

def configSize (values : List Nat) (blockSizeOffset : Nat) (bits : List Nat) : Nat :=
  metaDataSize (blockSizeAt blockSizeOffset) values.length +
    (configBytes values blockSizeOffset bits).length

/-! ## The storage size of a block size -/

def optSizes (bs : List (List Nat)) : Nat := (bs.map fun block => (optBitsOD block).2).sum

def totalSize (entries : List Nat) (blockSizeOffset : Nat) : Nat :=
  metaDataSize (blockSizeAt blockSizeOffset) entries.length +
    optSizes (blocks (blockSizeAt blockSizeOffset) entries)

theorem blockSizeAt_range {blockSizeOffset : Nat} (h : blockSizeOffset ∈ blockSizeTestOrder) :
    1 ≤ blockSizeAt blockSizeOffset ∧ blockSizeAt blockSizeOffset ≤ 65536 := by
  have hall : ∀ k ∈ blockSizeTestOrder, 1 ≤ blockSizeAt k ∧ blockSizeAt k ≤ 65536 := by decide
  exact hall blockSizeOffset h

theorem optSizes_cons (block : List Nat) (bs : List (List Nat)) :
    optSizes (block :: bs) = (optBitsOD block).2 + optSizes bs := by
  rw [optSizes, List.map_cons, List.sum_cons, optSizes]

variable {bs : List (List Nat)}

theorem length_le_optSizes (h : ∀ block ∈ bs, 1 ≤ (optBitsOD block).2) : bs.length ≤ optSizes bs := by
  induction bs with
  | nil => exact Nat.le_refl _
  | cons block bs ih =>
    obtain ⟨hblock, hbs⟩ := List.forall_mem_cons.mp h
    have ih := ih hbs
    rw [optSizes_cons, List.length_cons]
    omega

theorem addBlocks_spec {limit : Nat} {bs : List (List Nat)}
    (h : ∀ block ∈ bs, 1 ≤ (optBitsOD block).2 ∧ (optBitsOD block).2 < 2 ^ 32) (storageSize : Nat) :
    addBlocks limit bs (storageSize + bs.length) = storageSize + optSizes bs ∨
      limit ≤ addBlocks limit bs (storageSize + bs.length) ∧ limit ≤ storageSize + optSizes bs := by
  induction bs generalizing storageSize with
  | nil => exact .inl rfl
  | cons block bs ih =>
    obtain ⟨hblock, hbs⟩ := List.forall_mem_cons.mp h
    have hcount := length_le_optSizes fun b hb => (hbs b hb).1
    rw [addBlocks, optSizes_cons, List.length_cons, sub32_of_le hblock.1 hblock.2]
    split
    · have ih := ih hbs (storageSize + (optBitsOD block).2)
      have heq : storageSize + (bs.length + 1) + ((optBitsOD block).2 - 1) =
          storageSize + (optBitsOD block).2 + bs.length := by omega
      rwa [heq, ← Nat.add_assoc storageSize]
    · right
      omega

section

variable {entries : List Nat} (h32 : ∀ bits ∈ entries, bits ≤ 32)

include h32

variable {blockSizeOffset : Nat}

theorem optBitsOD_block (h : blockSizeOffset ∈ blockSizeTestOrder) {block : List Nat}
    (hblock : block ∈ blocks (blockSizeAt blockSizeOffset) entries) :
    ∃ optBits, 1 ≤ optBits ∧ optBits ≤ 31 ∧
      optBitsOD block = (optBits, blockSize optBits block) ∧
      ∀ bits, 1 ≤ bits → bits ≤ 31 → blockSize optBits block ≤ blockSize bits block := by
  obtain ⟨hpos, hle⟩ := blockSizeAt_range h
  obtain ⟨hlength, hlength', hmem⟩ := of_mem_blocks hpos hblock
  exact optBitsOD_spec (List.length_pos_iff.mp hlength) (fun bits hbits => h32 bits (hmem bits hbits))
    (hlength'.trans hle)

theorem optBitsOD_block_range (h : blockSizeOffset ∈ blockSizeTestOrder) {block : List Nat}
    (hblock : block ∈ blocks (blockSizeAt blockSizeOffset) entries) :
    1 ≤ (optBitsOD block).2 ∧ (optBitsOD block).2 < 2 ^ 32 := by
  obtain ⟨hpos, hle⟩ := blockSizeAt_range h
  obtain ⟨hlength, hlength', hmem⟩ := of_mem_blocks hpos hblock
  obtain ⟨optBits, hbits, hbits', heq, -⟩ := optBitsOD_block h32 h hblock
  have hlt := blockSize_lt (fun bits hbits => h32 bits (hmem bits hbits)) (hlength'.trans hle) hbits'
  have hfixed := minStorageBytes_pos hbits hlength
  rw [heq]
  dsimp only
  refine ⟨?_, hlt.trans (by decide)⟩
  rw [blockSize]
  omega

theorem tryBlockSize_eq (hlength : entries.length < 2 ^ 32)
    (h : blockSizeOffset ∈ blockSizeTestOrder)
    (hconsidered : blockSizeAt blockSizeOffset < 2 * entries.length) {cfg : BlockCfg}
    (hcfg : cfg.optStorageSize < 2 ^ 32) :
    tryBlockSize entries cfg blockSizeOffset =
      if totalSize entries blockSizeOffset < cfg.optStorageSize then
        ⟨blockSizeOffset, totalSize entries blockSizeOffset,
          metaDataSize (blockSizeAt blockSizeOffset) entries.length⟩
      else cfg := by
  obtain ⟨hpos, -⟩ := blockSizeAt_range h
  have hnum := length_blocks hpos entries
  have hnumLe := length_blocks_le hpos entries
  have hcount : u32 (numFullBlocks (blockSizeAt blockSizeOffset) entries.length +
      numPartialBlocks (blockSizeAt blockSizeOffset) entries.length) =
        (blocks (blockSizeAt blockSizeOffset) entries).length := by
    rw [numFullBlocks, numPartialBlocks, u32_add_u32, ← hnum]
    exact u32_of_lt (hnumLe.trans_lt hlength)
  have hspec := @addBlocks_spec cfg.optStorageSize _
    (fun block hblock => optBitsOD_block_range h32 h hblock)
    (metaDataSize (blockSizeAt blockSizeOffset) entries.length)
  have htotal : totalSize entries blockSizeOffset =
      metaDataSize (blockSizeAt blockSizeOffset) entries.length +
        optSizes (blocks (blockSizeAt blockSizeOffset) entries) := rfl
  rw [tryBlockSize]
  dsimp only
  rw [if_neg (Nat.not_le.mpr hconsidered), hcount]
  rw [← htotal] at hspec
  rcases hspec with heq | ⟨hge, hge'⟩
  · rw [heq]
    split
    next hlt =>
      rw [u32_of_lt (hlt.trans hcfg), u32_of_lt (by omega)]
    next => rfl
  · rw [if_neg (Nat.not_lt.mpr hge), if_neg (Nat.not_lt.mpr hge')]

def tested (entries : List Nat) : List Nat :=
  blockSizeTestOrder.filter fun offset => blockSizeAt offset < 2 * entries.length

def BlockCfg.best (cfg : BlockCfg) : (Nat × Nat) × Nat :=
  ((cfg.optBlockSizeOffset, cfg.optMetaDataSize), cfg.optStorageSize)

theorem foldl_tryBlockSize (hlength : entries.length < 2 ^ 32) {offsets : List Nat}
    (hoffsets : ∀ offset ∈ offsets, offset ∈ blockSizeTestOrder) {cfg : BlockCfg}
    (hcfg : cfg.optStorageSize < 2 ^ 32) :
    (offsets.foldl (tryBlockSize entries) cfg).best =
      (offsets.filter fun offset => blockSizeAt offset < 2 * entries.length).foldl
        (keepSmaller (totalSize entries)
          fun offset => (offset, metaDataSize (blockSizeAt offset) entries.length)) cfg.best := by
  induction offsets generalizing cfg with
  | nil => rfl
  | cons offset offsets ih =>
    obtain ⟨hoffset, hrest⟩ := List.forall_mem_cons.mp hoffsets
    rw [List.foldl_cons, List.filter_cons]
    by_cases hconsidered : blockSizeAt offset < 2 * entries.length
    · rw [if_pos (decide_eq_true hconsidered), List.foldl_cons, keepSmaller,
        tryBlockSize_eq h32 hlength hoffset hconsidered hcfg]
      change _ = List.foldl _ (if totalSize entries offset < cfg.optStorageSize then _ else _) _
      split
      next hlt => exact ih hrest (hlt.trans hcfg)
      next => exact ih hrest hcfg
    · rw [if_neg (by simpa using hconsidered), tryBlockSize, if_pos (Nat.not_lt.mp hconsidered)]
      exact ih hrest hcfg

/-- The optimizer's result is the first smallest total size, if one is below the largest `uint32_t`;
otherwise its sizes are those of the start. -/
theorem optBlockCfg_cases (hne : entries ≠ []) (hlength : entries.length < 2 ^ 32) :
    (optBlockCfg entries = (31, 0) ∧ ∀ offset ∈ tested entries, 2 ^ 32 - 1 ≤ totalSize entries offset) ∨
      ∃ offset ∈ tested entries,
        optBlockCfg entries =
          (offset, optSizes (blocks (blockSizeAt offset) entries)) ∧
        totalSize entries offset < 2 ^ 32 - 1 ∧
        ∀ offset' ∈ tested entries, totalSize entries offset ≤ totalSize entries offset' := by
  have hpos := List.length_pos_iff.mpr hne
  have hfold := @foldl_tryBlockSize entries h32 hlength blockSizeTestOrder
    (fun offset hoffset => hoffset) ⟨blockSizes.length - 1, 2 ^ 32 - 1, 2 ^ 32 - 1⟩ (by decide)
  rw [optBlockCfg, if_neg (by omega)]
  dsimp only
  generalize blockSizeTestOrder.foldl (tryBlockSize entries)
    ⟨blockSizes.length - 1, 2 ^ 32 - 1, 2 ^ 32 - 1⟩ = cfg at hfold ⊢
  rcases @foldl_keepSmaller _ _ _ _ (totalSize entries)
    (fun offset => (offset, metaDataSize (blockSizeAt offset) entries.length))
    (BlockCfg.best ⟨blockSizes.length - 1, 2 ^ 32 - 1, 2 ^ 32 - 1⟩) (tested entries)
    with ⟨heq, hle⟩ | ⟨offset, hoffset, heq, hlt, hle⟩
  · left
    refine ⟨?_, hle⟩
    have hbest := hfold.trans heq
    cases cfg
    cases hbest
    rfl
  · right
    refine ⟨offset, hoffset, ?_, hlt, hle⟩
    have hbest := hfold.trans heq
    have hoffset' : cfg.optBlockSizeOffset = offset := congrArg (fun best => best.1.1) hbest
    have hmeta : cfg.optMetaDataSize = metaDataSize (blockSizeAt offset) entries.length :=
      congrArg (fun best => best.1.2) hbest
    have hstorage : cfg.optStorageSize = totalSize entries offset := congrArg Prod.snd hbest
    have htotal : totalSize entries offset < 2 ^ 32 - 1 := hlt
    have hmetaLe : metaDataSize (blockSizeAt offset) entries.length ≤ totalSize entries offset :=
      Nat.le_add_right _ _
    rw [hoffset', hmeta, hstorage, sub32_of_le hmetaLe (by omega), totalSize,
      Nat.add_sub_cancel_left]

end

/-! ## What is encoded -/

theorem foldl_encodeBlock {bs : List (List Nat)}
    (hbs : ∀ block ∈ bs, (∀ v ∈ block, v < 2 ^ 32) ∧ ∃ optBits, optBits ≤ 31 ∧
      optBitsOD (block.map entryBits) = (optBits, blockSize optBits (block.map entryBits)))
    {r : Dest × List Nat} (hr : r.1.putPtr ≤ r.1.data.length) :
    ∃ bytes metadata, bytes.length = optSizes (bs.map (List.map entryBits)) ∧
      metadata.length = bs.length ∧
      bs.foldl
        (fun r block =>
          let (optBits, optStorageSize) := optBitsOD (block.map entryBits)
          (encodeBlock r.1 block optBits optStorageSize, r.2 ++ [optBits])) r =
        (⟨splice r.1.data r.1.putPtr bytes, r.1.putPtr + bytes.length⟩, r.2 ++ metadata) := by
  induction bs generalizing r with
  | nil => exact ⟨[], [], rfl, rfl, by simp⟩
  | cons block bs ih =>
    obtain ⟨⟨hblock, optBits, hbits, hopt⟩, hrest⟩ := List.forall_mem_cons.mp hbs
    have hencode := encodeBlock_eq hr hblock (hbits.trans (by decide))
    have hlength := length_blockBytes (hbits.trans (by decide)) hblock
    rw [List.foldl_cons, hopt]
    dsimp only
    rw [hencode]
    have hnext := @length_splice _ r.1.data (blockBytes optBits block) r.1.putPtr hr
    obtain ⟨bytes, metadata, hbytes, hmetadata, heq⟩ := ih hrest
      (r := (⟨splice r.1.data r.1.putPtr (blockBytes optBits block),
        r.1.putPtr + (blockBytes optBits block).length⟩, r.2 ++ [optBits]))
      (by dsimp only; omega)
    refine ⟨blockBytes optBits block ++ bytes, optBits :: metadata, ?_, ?_, ?_⟩
    · rw [List.length_append, hbytes, hlength, List.map_cons, optSizes_cons, hopt]
    · rw [List.length_cons, List.length_cons, hmetadata]
    · rw [heq]
      dsimp only
      rw [splice_splice hr, List.append_assoc, List.singleton_append, List.length_append,
        Nat.add_assoc]

theorem optSizes_le {bits : List Nat} (hlength : bits.length = bs.length)
    (hbits : ∀ optBits ∈ bits, 1 ≤ optBits ∧ optBits ≤ 31)
    (hbs : ∀ block ∈ bs, (∀ v ∈ block, v < 2 ^ 32) ∧ ∀ optBits, 1 ≤ optBits → optBits ≤ 31 →
      (optBitsOD (block.map entryBits)).2 ≤ blockSize optBits (block.map entryBits)) :
    optSizes (bs.map (List.map entryBits)) ≤
      ((bs.zip bits).map fun b => blockBytes b.2 b.1).flatten.length := by
  induction bs generalizing bits with
  | nil => exact Nat.zero_le _
  | cons block bs ih =>
    cases bits with
    | nil => cases hlength
    | cons optBits bits =>
      obtain ⟨⟨hpos, hle⟩, hbits⟩ := List.forall_mem_cons.mp hbits
      obtain ⟨⟨hblock, hmin⟩, hrest⟩ := List.forall_mem_cons.mp hbs
      have ih := ih (Nat.succ.inj hlength) hbits hrest
      have hmin := hmin optBits hpos hle
      rw [← length_blockBytes (hle.trans (by decide)) hblock] at hmin
      rw [List.map_cons, optSizes_cons, List.zip_cons_cons, List.map_cons, List.flatten_cons,
        List.length_append]
      dsimp only
      omega

/-- The predicted size is the one of the bytes that are written for the chosen block size, and no
configuration that was considered is smaller. -/
structure PredictsBest (values : List Nat) : Prop where
  encodes : ∀ dest : Dest, dest.putPtr ≤ dest.data.length → ∃ bytes metadata,
    bytes.length = (optBlockCfg (values.map entryBits)).2 ∧
      encodeBlocks dest (blockSizeAt (optBlockCfg (values.map entryBits)).1) values =
        (⟨splice dest.data dest.putPtr bytes, dest.putPtr + bytes.length⟩, metadata)
  minimal : ∀ offset bits, Considered values offset bits →
    metaDataSize (blockSizeAt (optBlockCfg (values.map entryBits)).1) values.length +
      (optBlockCfg (values.map entryBits)).2 ≤ configSize values offset bits

section

variable {values : List Nat} (hvalues : ∀ v ∈ values, v < 2 ^ 32)

include hvalues

theorem entries_le : ∀ bits ∈ values.map entryBits, bits ≤ 32 := by
  intro bits hbits
  obtain ⟨v, hv, rfl⟩ := List.mem_map.mp hbits
  exact entryBits_le (hvalues v hv)

theorem optBitsOD_values {offset : Nat} (h : offset ∈ blockSizeTestOrder) {block : List Nat}
    (hblock : block ∈ blocks (blockSizeAt offset) values) :
    (∀ v ∈ block, v < 2 ^ 32) ∧ ∃ optBits, 1 ≤ optBits ∧ optBits ≤ 31 ∧
      optBitsOD (block.map entryBits) = (optBits, blockSize optBits (block.map entryBits)) ∧
      ∀ bits, 1 ≤ bits → bits ≤ 31 →
        blockSize optBits (block.map entryBits) ≤ blockSize bits (block.map entryBits) := by
  obtain ⟨hpos, -⟩ := blockSizeAt_range h
  obtain ⟨-, -, hmem⟩ := of_mem_blocks hpos hblock
  refine ⟨fun v hv => hvalues v (hmem v hv), optBitsOD_block (entries_le hvalues) h ?_⟩
  rw [map_blocks hpos]
  exact List.mem_map_of_mem hblock

theorem encodeBlocks_eq {offset : Nat} (h : offset ∈ blockSizeTestOrder) {dest : Dest}
    (hdest : dest.putPtr ≤ dest.data.length) :
    ∃ bytes metadata,
      bytes.length = optSizes (blocks (blockSizeAt offset) (values.map entryBits)) ∧
      encodeBlocks dest (blockSizeAt offset) values =
        (⟨splice dest.data dest.putPtr bytes, dest.putPtr + bytes.length⟩, metadata) := by
  obtain ⟨hpos, -⟩ := blockSizeAt_range h
  obtain ⟨bytes, metadata, hbytes, -, heq⟩ := @foldl_encodeBlock (blocks (blockSizeAt offset) values)
    (fun block hblock => by
      obtain ⟨hv, optBits, -, hle, hopt, -⟩ := optBitsOD_values hvalues h hblock
      exact ⟨hv, optBits, hle, hopt⟩) (dest, []) hdest
  rw [← map_blocks hpos] at hbytes
  exact ⟨bytes, metadata, hbytes, heq⟩

theorem totalSize_le {offset : Nat} {bits : List Nat} (h : Considered values offset bits) :
    totalSize (values.map entryBits) offset ≤ configSize values offset bits := by
  obtain ⟨hpos, -⟩ := blockSizeAt_range h.offset
  rw [totalSize, configSize, List.length_map, map_blocks hpos]
  refine Nat.add_le_add_left (optSizes_le h.length h.range fun block hblock => ?_) _
  obtain ⟨hv, optBits, -, -, hopt, hmin⟩ := optBitsOD_values hvalues h.offset hblock
  rw [hopt]
  exact ⟨hv, hmin⟩

/-- For less than 2^32 values, as long as a configuration that is considered needs less than
2^32 - 1 bytes. -/
theorem predictsBest (hlength : values.length < 2 ^ 32)
    (hfits : values = [] ∨ ∃ offset bits, Considered values offset bits ∧
      configSize values offset bits < 2 ^ 32 - 1) : PredictsBest values := by
  have htested : ∀ {offset}, offset ∈ tested (values.map entryBits) ↔
      offset ∈ blockSizeTestOrder ∧ blockSizeAt offset < 2 * values.length := by
    intro offset
    rw [tested, List.mem_filter, decide_eq_true_eq, List.length_map]
  rcases hfits with rfl | ⟨offset₀, bits₀, hconsidered, hsize⟩
  · refine ⟨fun dest _ => ⟨[], [], rfl, ?_⟩, fun offset bits h => ?_⟩
    · rw [encodeBlocks, blocks_nil, splice_nil]
      rfl
    · exact absurd h.blockSize (Nat.not_lt_zero _)
  have hne : values ≠ [] := by
    rintro rfl
    exact absurd hconsidered.blockSize (Nat.not_lt_zero _)
  rcases optBlockCfg_cases (entries_le hvalues) (mt List.map_eq_nil_iff.mp hne)
    (by rwa [List.length_map]) with ⟨-, hall⟩ | ⟨offset, hoffset, hcfg, -, hmin⟩
  · have hle := hall offset₀ (htested.mpr ⟨hconsidered.offset, hconsidered.blockSize⟩)
    have hle' := totalSize_le hvalues hconsidered
    omega
  · obtain ⟨horder, -⟩ := htested.mp hoffset
    refine ⟨fun dest hdest => ?_, fun offset' bits' h => ?_⟩
    · rw [hcfg]
      exact encodeBlocks_eq hvalues horder hdest
    · have hle := hmin offset' (htested.mpr ⟨h.offset, h.blockSize⟩)
      rw [hcfg]
      refine le_trans ?_ (hle.trans (totalSize_le hvalues h))
      rw [totalSize, List.length_map]

end

theorem predictsBest_three : PredictsBest [7, 0, 300] := by
  have hblocks : blocks (blockSizeAt 0) [7, 0, 300] = [[7], [0], [300]] := by
    change blocks 1 [7, 0, 300] = _
    rw [blocks_of_ne_nil Nat.one_pos (by decide)]
    change [7] :: blocks 1 [0, 300] = _
    rw [blocks_of_ne_nil Nat.one_pos (by decide)]
    change [7] :: [0] :: blocks 1 [300] = _
    rw [blocks_of_ne_nil Nat.one_pos (by decide)]
    change [7] :: [0] :: [300] :: blocks 1 [] = _
    rw [blocks_nil]
  have hconsidered : Considered [7, 0, 300] 0 [3, 1, 9] :=
    ⟨by decide, by decide, by rw [hblocks]; rfl, by decide⟩
  refine predictsBest (by decide) (by decide) (.inr ⟨0, [3, 1, 9], hconsidered, ?_⟩)
  rw [configSize, configBytes, hblocks]
  decide

def tooLarge : List Nat := List.replicate (2 ^ 30) (2 ^ 32 - 1)

theorem five_mul_le_optSizes (h : ∀ block ∈ bs, 5 * block.length ≤ (optBitsOD block).2) :
    5 * bs.flatten.length ≤ optSizes bs := by
  induction bs with
  | nil => exact Nat.zero_le _
  | cons block bs ih =>
    obtain ⟨hblock, hbs⟩ := List.forall_mem_cons.mp h
    have ih := ih hbs
    rw [List.flatten_cons, List.length_append, optSizes_cons]
    omega

theorem varSize_replicate {p : Nat → Bool} {bits : Nat} (hp : p bits = true) (n : Nat) :
    varSize p (List.replicate n bits) = n * vsize bits := by
  rw [varSize, List.filter_replicate_of_pos hp, List.map_replicate, List.sum_replicate_nat]

theorem not_predictsBest : ¬ PredictsBest tooLarge := by
  have hvalues : ∀ v ∈ tooLarge, v < 2 ^ 32 := by
    intro v hv
    rw [List.eq_of_mem_replicate hv]
    decide
  have hentries : tooLarge.map entryBits = List.replicate (2 ^ 30) 32 := by
    rw [tooLarge, List.map_replicate]
    congr 1
  have hlength : tooLarge.length = 2 ^ 30 := List.length_replicate
  have hne : tooLarge ≠ [] := List.length_pos_iff.mp (by omega)
  have hsizes : ∀ offset ∈ blockSizeTestOrder,
      5 * 2 ^ 30 ≤ optSizes (blocks (blockSizeAt offset) (tooLarge.map entryBits)) := by
    intro offset hoffset
    obtain ⟨hpos, -⟩ := blockSizeAt_range hoffset
    have hflat := congrArg List.length (flatten_blocks hpos (tooLarge.map entryBits))
    rw [List.length_map, hlength] at hflat
    rw [← hflat]
    refine five_mul_le_optSizes fun block hblock => ?_
    obtain ⟨optBits, -, hle, hopt, -⟩ := optBitsOD_block (entries_le hvalues) hoffset hblock
    obtain ⟨-, -, hmem⟩ := of_mem_blocks hpos hblock
    obtain hreplicate : block = List.replicate block.length 32 := by
      refine List.eq_replicate_iff.mpr ⟨rfl, fun bits hbits => ?_⟩
      have hmem := hmem bits hbits
      rw [hentries] at hmem
      exact List.eq_of_mem_replicate hmem
    rw [hopt]
    dsimp only
    rw [blockSize]
    generalize block.length = n at *
    subst hreplicate
    have hvsize : vsize 32 = 5 := rfl
    rw [varSize_replicate (decide_eq_true (.inl (by omega))), hvsize]
    omega
  intro h
  rcases optBlockCfg_cases (entries_le hvalues) (mt List.map_eq_nil_iff.mp hne)
    (by rw [List.length_map, hlength]; decide) with ⟨hcfg, -⟩ | ⟨offset, hoffset, -, hlt, -⟩
  · obtain ⟨bytes, metadata, hbytes, heq⟩ := h.encodes ⟨[], 0⟩ (Nat.le_refl 0)
    rw [hcfg] at hbytes heq
    obtain ⟨bytes', metadata', hbytes', heq'⟩ :=
      @encodeBlocks_eq _ hvalues 31 (by decide) ⟨[], 0⟩ (Nat.le_refl 0)
    have hput := congrArg (fun r => r.1.putPtr) (heq.symm.trans heq')
    have hsize := hsizes 31 (by decide)
    dsimp only at hput hbytes
    omega
  · have hsize := hsizes offset (List.mem_of_mem_filter hoffset)
    rw [totalSize] at hlt
    omega

end Sserialize.PFoRCreator
