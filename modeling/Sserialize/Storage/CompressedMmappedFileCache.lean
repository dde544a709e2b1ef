import Sserialize.Storage.CompressedMmappedFile

namespace Sserialize.CompressedMmappedFile

open Function (update update_self update_of_ne)

structure Stores (cf : CompressedFile) (lzo : Lzo) (src : Bytes) : Prop where
  size : cf.size = src.length
  size_lt : src.length < 2 ^ 40
  shift_ge : 16 ≤ cf.chunkShift
  shift_le : cf.chunkShift ≤ 30
  indexSize : cf.chunkIndex.size = chunkNums cf.chunkSize src.length
  unpack : ∀ i < chunkNums cf.chunkSize src.length, cf.chunkTypeBitSet.isSet i = true →
    cf.doUnpack lzo i = .ok (chunkOf cf.chunkSize src i)
  mapped : ∀ i < chunkNums cf.chunkSize src.length, cf.chunkTypeBitSet.isSet i = false →
    ∃ bytes, cf.mmapChunk i = .ok bytes ∧ chunkOf cf.chunkSize src i <+: bytes

theorem length_chunkOf_le (chunkSize : Nat) (src : Bytes) (i : Nat) :
    (chunkOf chunkSize src i).length ≤ chunkSize := by
  rw [chunkOf, List.length_take]
  exact Nat.min_le_left _ _

def pointerOf (cf : CompressedFile) (base : Nat) (tile : Nat → Nat) (i : Nat) : Pointer :=
  if cf.chunkTypeBitSet.isSet i then .tile base (tile i) else .mapped i

def usedTiles (cf : CompressedFile) (tile : Nat → Nat) (occupied : List Nat) : List Nat :=
  (occupied.filter cf.chunkTypeBitSet.isSet).map tile

structure Placed (cf : CompressedFile) (src : Bytes) (count : Nat) (slot tile : Nat → Nat)
    (c : ChunkCache) : Prop where
  count_le : count ≤ 2 ^ 16
  shift_le : cf.chunkShift ≤ 30
  fileSize : c.decTileFile.size = cf.chunkSize * count
  linesLength : c.lines.length = chunkNums cf.chunkSize src.length
  nodup : c.occupied.Nodup
  lt : ∀ i ∈ c.occupied, i < chunkNums cf.chunkSize src.length
  free : ∀ i < chunkNums cf.chunkSize src.length, i ∉ c.occupied → c.lines[i]? = some noPosition
  line : ∀ i ∈ c.occupied, c.lines[i]? = some (slot i)
  slot_lt : ∀ i ∈ c.occupied, slot i < noPosition
  slot_inj : ∀ i ∈ c.occupied, ∀ j ∈ c.occupied, slot i = slot j → i = j
  pointer : ∀ i ∈ c.occupied,
    c.chunkStorage[slot i]? = some (pointerOf cf c.decTileFile.base tile i)
  tileLength : ∀ t, (c.decTileFile.tiles t).length = cf.chunkSize
  content : ∀ i ∈ c.occupied, cf.chunkTypeBitSet.isSet i = true →
    chunkOf cf.chunkSize src i <+: c.decTileFile.tiles (tile i)
  tiles : (c.freeList ++ usedTiles cf tile c.occupied).Perm (List.range count)

variable {cf : CompressedFile} {lzo : Lzo} {src : Bytes} {count : Nat}
  {slot tile : Nat → Nat} {c : ChunkCache}

theorem element_eq {α : Type} {v : List α} {pos : Nat} {x : α} (h : v[pos]? = some x) :
    element v pos = .ok x := by
  rw [element, h]

theorem usedTiles_perm (cf : CompressedFile) (tile : Nat → Nat) {occupied occupied' : List Nat}
    (h : occupied.Perm occupied') :
    (usedTiles cf tile occupied).Perm (usedTiles cf tile occupied') :=
  (h.filter _).map tile

variable {i : Nat}

theorem usedTiles_cons_compressed (hi : cf.chunkTypeBitSet.isSet i = true) (occupied : List Nat) :
    usedTiles cf tile (i :: occupied) = tile i :: usedTiles cf tile occupied := by
  rw [usedTiles, List.filter_cons_of_pos hi, List.map_cons, usedTiles]

theorem usedTiles_cons_mapped (hi : ¬ cf.chunkTypeBitSet.isSet i = true) (occupied : List Nat) :
    usedTiles cf tile (i :: occupied) = usedTiles cf tile occupied := by
  rw [usedTiles, List.filter_cons_of_neg hi, usedTiles]

theorem mem_usedTiles {occupied : List Nat} (h : i ∈ occupied)
    (hi : cf.chunkTypeBitSet.isSet i = true) : tile i ∈ usedTiles cf tile occupied :=
  List.mem_map.mpr ⟨i, List.mem_filter.mpr ⟨h, hi⟩, rfl⟩

theorem Placed.tile_lt (h : Placed cf src count slot tile c) (hi : i ∈ c.occupied)
    (hset : cf.chunkTypeBitSet.isSet i = true) : tile i < count := by
  have hmem : tile i ∈ c.freeList ++ usedTiles cf tile c.occupied :=
    List.mem_append_right _ (mem_usedTiles hi hset)
  exact List.mem_range.mp (h.tiles.mem_iff.mp hmem)

theorem chunkSize_pos (cf : CompressedFile) : 0 < cf.chunkSize := by
  rw [CompressedFile.chunkSize, Nat.shiftLeft_eq, Nat.one_mul]
  exact Nat.two_pow_pos _

theorem Placed.decTileNum (h : Placed cf src count slot tile c) {t : Nat} (ht : t < 2 ^ 16)
    (base : Nat) : CompressedMmappedFile.decTileNum cf.chunkSize base (.tile base t) = .ok t := by
  have hsize : cf.chunkSize ≤ 2 ^ 30 := by
    rw [CompressedFile.chunkSize, Nat.shiftLeft_eq, Nat.one_mul]
    exact Nat.pow_le_pow_right (by decide) h.shift_le
  have hmul : t * cf.chunkSize ≤ 2 ^ 16 * 2 ^ 30 := Nat.mul_le_mul ht.le hsize
  have hsub : (base + t * cf.chunkSize : Int) - base = (t * cf.chunkSize : Nat) := by
    rw [Nat.cast_mul]
    omega
  have hmod : (((t * cf.chunkSize : Nat) : Int) % 2 ^ 64).toNat = t * cf.chunkSize := by omega
  rw [CompressedMmappedFile.decTileNum, hsub, hmod, Nat.mul_div_cancel t (chunkSize_pos cf), u16,
    Nat.mod_eq_of_lt ht]

theorem Placed.erase (h : Placed cf src count slot tile c) {victim : Nat} {free : List Nat}
    (hmem : victim ∈ c.occupied)
    (hfree : (free ++ usedTiles cf tile (c.occupied.erase victim)).Perm (List.range count)) :
    Placed cf src count slot tile
      { c with
        occupied := c.occupied.erase victim
        lines := c.lines.set victim noPosition
        chunkStorage := c.chunkStorage.set (slot victim) .null
        draws := c.draws + 1
        freeList := free } := by
  have hmem' : ∀ i, i ∈ c.occupied.erase victim ↔ i ≠ victim ∧ i ∈ c.occupied := fun i =>
    h.nodup.mem_erase_iff
  have hslot : ∀ i ∈ c.occupied.erase victim, slot i ≠ slot victim := by
    intro i hi heq
    obtain ⟨hne, hi⟩ := (hmem' i).mp hi
    exact hne (h.slot_inj i hi victim hmem heq)
  refine
    { count_le := h.count_le
      shift_le := h.shift_le
      fileSize := h.fileSize
      linesLength := by rw [List.length_set]; exact h.linesLength
      nodup := h.nodup.erase victim
      lt := fun i hi => h.lt i ((hmem' i).mp hi).2
      free := fun i hi hnot => ?_
      line := fun i hi => ?_
      slot_lt := fun i hi => h.slot_lt i ((hmem' i).mp hi).2
      slot_inj := fun i hi j hj =>
        h.slot_inj i ((hmem' i).mp hi).2 j ((hmem' j).mp hj).2
      pointer := fun i hi => ?_
      tileLength := h.tileLength
      content := fun i hi => h.content i ((hmem' i).mp hi).2
      tiles := hfree }
  · by_cases heq : i = victim
    · subst heq
      exact List.getElem?_set_self (by rw [h.linesLength]; exact hi)
    · rw [List.getElem?_set_ne (Ne.symm heq)]
      exact h.free i hi fun hin => hnot ((hmem' i).mpr ⟨heq, hin⟩)
  · obtain ⟨hne, hi⟩ := (hmem' i).mp hi
    rw [List.getElem?_set_ne (Ne.symm hne)]
    exact h.line i hi
  · rw [List.getElem?_set_ne (hslot i hi).symm]
    exact h.pointer i ((hmem' i).mp hi).2

theorem Placed.evict (h : Placed cf src count slot tile c) (rand : Nat → Nat)
    (hne : c.occupied ≠ []) :
    ∃ c' victim, evict cf rand c = .ok (c', slot victim) ∧ victim ∈ c.occupied ∧
      Placed cf src count slot tile c' ∧ c'.occupied = c.occupied.erase victim ∧
      c'.maxOccupyCount = c.maxOccupyCount ∧ c'.chunkStorage.length = c.chunkStorage.length := by
  have hpos : rand c.draws % c.occupied.length < c.occupied.length :=
    Nat.mod_lt _ (List.length_pos_of_ne_nil hne)
  obtain ⟨victim, hvictim⟩ :
      ∃ victim, c.occupied[rand c.draws % c.occupied.length]? = some victim :=
    ⟨_, List.getElem?_eq_getElem hpos⟩
  have hmem : victim ∈ c.occupied := List.mem_of_getElem? hvictim
  have hline := h.line victim hmem
  have hpointer := h.pointer victim hmem
  have hused := usedTiles_perm cf tile (List.perm_cons_erase hmem)
  by_cases hset : cf.chunkTypeBitSet.isSet victim = true
  · have ht : tile victim < 2 ^ 16 := Nat.lt_of_lt_of_le (h.tile_lt hmem hset) h.count_le
    have hfree : (c.freeList ++ [tile victim] ++ usedTiles cf tile (c.occupied.erase victim)).Perm
        (List.range count) := by
      rw [usedTiles_cons_compressed hset] at hused
      rw [List.append_assoc]
      exact (hused.symm.append_left c.freeList).trans h.tiles
    refine ⟨_, victim, ?_, hmem, h.erase hmem hfree, rfl, rfl, List.length_set⟩
    rw [CompressedMmappedFile.evict, element_eq hvictim, ok_bind, element_eq hline, ok_bind,
      element_eq hpointer, ok_bind]
    dsimp only
    rw [if_pos hset, pointerOf, if_pos hset, h.decTileNum ht]
    rfl
  · have hfree : (c.freeList ++ usedTiles cf tile (c.occupied.erase victim)).Perm
        (List.range count) := by
      rw [usedTiles_cons_mapped hset] at hused
      exact (hused.symm.append_left c.freeList).trans h.tiles
    refine ⟨_, victim, ?_, hmem, h.erase hmem hfree, rfl, rfl, List.length_set⟩
    rw [CompressedMmappedFile.evict, element_eq hvictim, ok_bind, element_eq hline, ok_bind,
      element_eq hpointer, ok_bind]
    dsimp only
    rw [if_neg hset]
    rfl

theorem usedTiles_update {i t : Nat} {occupied : List Nat} (h : i ∉ occupied) :
    usedTiles cf (update tile i t) occupied = usedTiles cf tile occupied := by
  refine List.map_congr_left fun j hj => ?_
  have hne : j ≠ i := fun heq => h (heq ▸ List.mem_of_mem_filter hj)
  exact update_of_ne hne t tile

theorem Placed.insert (h : Placed cf src count slot tile c) {chunk position t : Nat}
    {free : List Nat} {f : TileFile} (hchunk : chunk < chunkNums cf.chunkSize src.length)
    (hnew : chunk ∉ c.occupied) (hposition : position < c.chunkStorage.length)
    (hlt : position < noPosition) (hfree : ∀ i ∈ c.occupied, slot i ≠ position)
    (hbase : f.base = c.decTileFile.base) (hsize : f.size = c.decTileFile.size)
    (hlength : ∀ t, (f.tiles t).length = cf.chunkSize)
    (hcontent : ∀ i ∈ c.occupied, cf.chunkTypeBitSet.isSet i = true →
      f.tiles (tile i) = c.decTileFile.tiles (tile i))
    (hchunkContent : cf.chunkTypeBitSet.isSet chunk = true →
      chunkOf cf.chunkSize src chunk <+: f.tiles t)
    (htiles : (free ++ usedTiles cf (update tile chunk t) (chunk :: c.occupied)).Perm
      (List.range count)) :
    Placed cf src count (update slot chunk position) (update tile chunk t)
      { c with
        freeList := free
        decTileFile := f
        chunkStorage := c.chunkStorage.set position
          (pointerOf cf c.decTileFile.base (update tile chunk t) chunk)
        lines := c.lines.set chunk position
        occupied := c.occupied.orderedInsert (· ≤ ·) chunk } := by
  have hperm : (c.occupied.orderedInsert (· ≤ ·) chunk).Perm (chunk :: c.occupied) :=
    List.perm_orderedInsert _ _ _
  have hmem : ∀ i, i ∈ c.occupied.orderedInsert (· ≤ ·) chunk ↔ i = chunk ∨ i ∈ c.occupied := by
    intro i
    rw [hperm.mem_iff, List.mem_cons]
  have hother : ∀ i ∈ c.occupied, i ≠ chunk := fun i hi heq => hnew (heq ▸ hi)
  have hpointerOf : ∀ i ∈ c.occupied,
      pointerOf cf f.base (update tile chunk t) i =
        pointerOf cf c.decTileFile.base tile i := by
    intro i hi
    rw [pointerOf, pointerOf, update_of_ne (hother i hi), hbase]
  refine
    { count_le := h.count_le
      shift_le := h.shift_le
      fileSize := hsize.trans h.fileSize
      linesLength := by rw [List.length_set]; exact h.linesLength
      nodup := hperm.nodup_iff.mpr (List.nodup_cons.mpr ⟨hnew, h.nodup⟩)
      lt := fun i hi => ?_
      free := fun i hi hnot => ?_
      line := fun i hi => ?_
      slot_lt := fun i hi => ?_
      slot_inj := fun i hi j hj heq => ?_
      pointer := fun i hi => ?_
      tileLength := hlength
      content := fun i hi hset => ?_
      tiles := ((usedTiles_perm cf _ hperm).append_left free).trans htiles }
  · rcases (hmem i).mp hi with rfl | hi
    · exact hchunk
    · exact h.lt i hi
  · rw [hmem, not_or] at hnot
    rw [List.getElem?_set_ne (Ne.symm hnot.1)]
    exact h.free i hi hnot.2
  · rcases (hmem i).mp hi with rfl | hi
    · rw [update_self]
      exact List.getElem?_set_self (by rw [h.linesLength]; exact hchunk)
    · rw [update_of_ne (hother i hi), List.getElem?_set_ne (hother i hi).symm]
      exact h.line i hi
  · rcases (hmem i).mp hi with rfl | hi
    · rwa [update_self]
    · rw [update_of_ne (hother i hi)]
      exact h.slot_lt i hi
  · rcases (hmem i).mp hi with hi' | hi'
    · rcases (hmem j).mp hj with hj' | hj'
      · exact hi'.trans hj'.symm
      · rw [hi', update_self, update_of_ne (hother j hj')] at heq
        exact absurd heq.symm (hfree j hj')
    · rcases (hmem j).mp hj with hj' | hj'
      · rw [hj', update_self, update_of_ne (hother i hi')] at heq
        exact absurd heq (hfree i hi')
      · rw [update_of_ne (hother i hi'), update_of_ne (hother j hj')] at heq
        exact h.slot_inj i hi' j hj' heq
  · rcases (hmem i).mp hi with rfl | hi
    · rw [update_self, List.getElem?_set_self hposition, hbase]
    · rw [update_of_ne (hother i hi), List.getElem?_set_ne (hfree i hi).symm,
        hpointerOf i hi]
      exact h.pointer i hi
  · rcases (hmem i).mp hi with rfl | hi
    · rw [update_self]
      exact hchunkContent hset
    · rw [update_of_ne (hother i hi)]
      change chunkOf cf.chunkSize src i <+: f.tiles (tile i)
      rw [hcontent i hi hset]
      exact h.content i hi hset

theorem pointee_pointerOf (hstores : Stores cf lzo src) (f : TileFile)
    (hi : i < chunkNums cf.chunkSize src.length)
    (hcontent : cf.chunkTypeBitSet.isSet i = true →
      chunkOf cf.chunkSize src i <+: f.tiles (tile i)) :
    ∃ bytes, pointee cf f (pointerOf cf f.base tile i) = .ok bytes ∧
      chunkOf cf.chunkSize src i <+: bytes := by
  cases hset : cf.chunkTypeBitSet.isSet i with
  | true =>
    refine ⟨f.tiles (tile i), ?_, hcontent hset⟩
    rw [pointerOf, if_pos hset, pointee, if_pos rfl]
  | false =>
    obtain ⟨bytes, hbytes, hprefix⟩ := hstores.mapped i hi hset
    refine ⟨bytes, ?_, hprefix⟩
    rw [pointerOf, hset]
    exact hbytes

theorem Placed.populate (hstores : Stores cf lzo src) (h : Placed cf src count slot tile c)
    {chunk position : Nat} (hchunk : chunk < chunkNums cf.chunkSize src.length)
    (hnew : chunk ∉ c.occupied) (hposition : position < c.chunkStorage.length)
    (hlt : position < noPosition) (hfree : ∀ i ∈ c.occupied, slot i ≠ position)
    (hroom : c.occupied.length < count) :
    ∃ c₁ pointer tile', populate cf lzo c chunk = .ok (c₁, pointer) ∧
      Placed cf src count (update slot chunk position) tile'
        { c₁ with
          chunkStorage := c₁.chunkStorage.set position pointer
          lines := c₁.lines.set chunk position
          occupied := c₁.occupied.orderedInsert (· ≤ ·) chunk } ∧
      c₁.occupied = c.occupied ∧ c₁.maxOccupyCount = c.maxOccupyCount ∧
      c₁.chunkStorage.length = c.chunkStorage.length ∧
      ∃ bytes, pointee cf c₁.decTileFile pointer = .ok bytes ∧
        chunkOf cf.chunkSize src chunk <+: bytes := by
  by_cases hset : cf.chunkTypeBitSet.isSet chunk = true
  · have hcount := h.tiles.length_eq
    have hused : (usedTiles cf tile c.occupied).length ≤ c.occupied.length := by
      rw [usedTiles, List.length_map]
      exact List.length_filter_le _ _
    rw [List.length_append, List.length_range] at hcount
    have hne : c.freeList ≠ [] := by
      intro hnil
      rw [hnil, List.length_nil] at hcount
      omega
    obtain ⟨free, t, hsplit⟩ : ∃ free t, c.freeList = free ++ [t] :=
      ⟨_, _, (List.dropLast_append_getLast hne).symm⟩
    have hnodup : (c.freeList ++ usedTiles cf tile c.occupied).Nodup :=
      h.tiles.nodup_iff.mpr List.nodup_range
    have hfresh : ∀ i ∈ c.occupied, cf.chunkTypeBitSet.isSet i = true → tile i ≠ t := by
      intro i hi hiset heq
      have hmem : t ∈ c.freeList := by
        rw [hsplit]
        exact List.mem_append_right _ List.mem_cons_self
      exact (List.disjoint_of_nodup_append hnodup) hmem (heq ▸ mem_usedTiles hi hiset)
    have htiles : (free ++ usedTiles cf (update tile chunk t) (chunk :: c.occupied)).Perm
        (List.range count) := by
      rw [usedTiles_cons_compressed hset, update_self, usedTiles_update hnew]
      have hold := h.tiles
      rwa [hsplit, List.append_assoc, List.singleton_append] at hold
    have hunpack := hstores.unpack chunk hchunk hset
    have hlength := length_chunkOf_le cf.chunkSize src chunk
    refine ⟨{ c with
        freeList := free
        decTileFile := c.decTileFile.write t (chunkOf cf.chunkSize src chunk) },
      .tile c.decTileFile.base t, update tile chunk t, ?_, ?_, rfl, rfl, rfl, ?_⟩
    · rw [CompressedMmappedFile.populate, if_pos hset, hsplit, List.getLast?_concat]
      dsimp only
      rw [hunpack, ok_bind, List.dropLast_concat]
      rfl
    · have hpointer : pointerOf cf c.decTileFile.base (update tile chunk t) chunk =
          .tile c.decTileFile.base t := by
        rw [pointerOf, if_pos hset, update_self]
      rw [← hpointer]
      refine h.insert hchunk hnew hposition hlt hfree rfl rfl (fun t' => ?_) (fun i hi hiset => ?_)
        (fun _ => ?_) htiles
      · by_cases heq : t' = t
        · subst heq
          rw [TileFile.write]
          dsimp only
          rw [update_self, List.length_append, List.length_drop, h.tileLength]
          omega
        · rw [TileFile.write]
          dsimp only
          rw [update_of_ne heq, h.tileLength]
      · rw [TileFile.write]
        dsimp only
        rw [update_of_ne (hfresh i hi hiset)]
      · rw [TileFile.write]
        dsimp only
        rw [update_self]
        exact List.prefix_append _ _
    · refine ⟨_, if_pos rfl, ?_⟩
      rw [TileFile.write]
      dsimp only
      rw [update_self]
      exact List.prefix_append _ _
  · obtain ⟨bytes, hbytes, hprefix⟩ := hstores.mapped chunk hchunk (by simpa using hset)
    refine ⟨c, .mapped chunk, update tile chunk 0, ?_, ?_, rfl, rfl, rfl, bytes, hbytes,
      hprefix⟩
    · rw [CompressedMmappedFile.populate, if_neg hset]
    · have hpointer : pointerOf cf c.decTileFile.base (update tile chunk 0) chunk =
          .mapped chunk := by
        rw [pointerOf, if_neg hset]
      rw [← hpointer]
      refine h.insert hchunk hnew hposition hlt hfree rfl rfl h.tileLength (fun _ _ _ => rfl)
        (fun h => absurd h hset) ?_
      rw [usedTiles_cons_mapped hset, usedTiles_update hnew]
      exact h.tiles

structure Fits (src : Bytes) (count : Nat) (cf : CompressedFile) (slot tile : Nat → Nat)
    (c : ChunkCache) : Prop extends Placed cf src count slot tile c where
  slot_lt_length : ∀ i ∈ c.occupied, slot i < c.occupied.length
  storageLength : c.chunkStorage.length = c.maxOccupyCount
  length_le : c.occupied.length ≤ c.maxOccupyCount
  max_pos : 0 < c.maxOccupyCount
  max_le : c.maxOccupyCount ≤ count

def Inv (cf : CompressedFile) (src : Bytes) (c : ChunkCache) : Prop :=
  ∃ count slot tile, Fits src count cf slot tile c

theorem Fits.insert (hstores : Stores cf lzo src) (h : Placed cf src count slot tile c)
    (position : Nat) {chunk : Nat} (hchunk : chunk < chunkNums cf.chunkSize src.length)
    (hnew : chunk ∉ c.occupied) (hposition : position < c.occupied.length + 1)
    (hfree : ∀ i ∈ c.occupied, slot i ≠ position)
    (hslot : ∀ i ∈ c.occupied, slot i < c.occupied.length + 1)
    (hroom : c.occupied.length < c.maxOccupyCount)
    (hstorage : c.chunkStorage.length = c.maxOccupyCount) (hmax : c.maxOccupyCount ≤ count) :
    ∃ c₁ pointer bytes, populate cf lzo c chunk = .ok (c₁, pointer) ∧
      Inv cf src
        { c₁ with
          chunkStorage := c₁.chunkStorage.set position pointer
          lines := c₁.lines.set chunk position
          occupied := c₁.occupied.orderedInsert (· ≤ ·) chunk } ∧
      pointee cf c₁.decTileFile pointer = .ok bytes ∧ chunkOf cf.chunkSize src chunk <+: bytes := by
  have hcount := h.count_le
  have hlt : position < noPosition := by
    rw [noPosition]
    omega
  obtain ⟨c₁, pointer, tile', hpopulate, hplaced, hoccupied, hmaxEq, hstorageEq, bytes, hbytes,
    hprefix⟩ := h.populate hstores hchunk hnew (by omega) hlt hfree (by omega)
  have hperm : (c.occupied.orderedInsert (· ≤ ·) chunk).Perm (chunk :: c.occupied) :=
    List.perm_orderedInsert _ _ _
  have hlength : (c.occupied.orderedInsert (· ≤ ·) chunk).length = c.occupied.length + 1 :=
    hperm.length_eq
  refine ⟨c₁, pointer, bytes, hpopulate, ⟨count, _, tile', hplaced, fun i hi => ?_, ?_, ?_, ?_, ?_⟩,
    hbytes, hprefix⟩
  · change i ∈ c₁.occupied.orderedInsert (· ≤ ·) chunk at hi
    change _ < (c₁.occupied.orderedInsert (· ≤ ·) chunk).length
    rw [hoccupied] at hi ⊢
    rw [hlength]
    rcases List.mem_cons.mp (hperm.mem_iff.mp hi) with hi' | hi'
    · rw [hi', update_self]
      exact hposition
    · have hne : i ≠ chunk := fun heq => hnew (heq ▸ hi')
      rw [update_of_ne hne]
      exact hslot i hi'
  · change (c₁.chunkStorage.set position pointer).length = c₁.maxOccupyCount
    rw [List.length_set, hstorageEq, hmaxEq, hstorage]
  · change (c₁.occupied.orderedInsert (· ≤ ·) chunk).length ≤ c₁.maxOccupyCount
    rw [hoccupied, hlength, hmaxEq]
    exact hroom
  · change 0 < c₁.maxOccupyCount
    rw [hmaxEq]
    omega
  · change c₁.maxOccupyCount ≤ count
    rw [hmaxEq]
    exact hmax

theorem Inv.chunkData (hstores : Stores cf lzo src) (h : Inv cf src c) (rand : Nat → Nat)
    {chunk : Nat}
    (hchunk : chunk < chunkNums cf.chunkSize src.length) :
    ∃ c' pointer bytes, chunkData cf lzo rand c chunk = .ok (c', pointer) ∧ Inv cf src c' ∧
      pointee cf c'.decTileFile pointer = .ok bytes ∧ chunkOf cf.chunkSize src chunk <+: bytes := by
  obtain ⟨count, slot, tile, h⟩ := h
  by_cases hmem : chunk ∈ c.occupied
  · obtain ⟨bytes, hbytes, hprefix⟩ := pointee_pointerOf hstores c.decTileFile hchunk
      (h.content chunk hmem)
    refine ⟨c, _, bytes, ?_, ⟨count, slot, tile, h⟩, hbytes, hprefix⟩
    rw [CompressedMmappedFile.chunkData, element_eq (h.line chunk hmem), ok_bind,
      if_pos (h.slot_lt chunk hmem), element_eq (h.pointer chunk hmem), ok_bind]
    rfl
  · have hline := element_eq (h.free chunk hchunk hmem)
    by_cases hfull : c.occupied.length ≥ c.maxOccupyCount
    · have hne : c.occupied ≠ [] := by
        intro hnil
        have hpos := h.max_pos
        rw [hnil, List.length_nil] at hfull
        omega
      obtain ⟨c₁, victim, hevict, hvictim, hplaced, hoccupied, hmax, hstorage⟩ :=
        h.toPlaced.evict rand hne
      have hslotVictim := h.slot_lt_length victim hvictim
      have hlength : c₁.occupied.length + 1 = c.occupied.length := by
        rw [hoccupied]
        exact List.length_erase_add_one hvictim
      have hin : ∀ i ∈ c₁.occupied, i ≠ victim ∧ i ∈ c.occupied := by
        intro i hi
        rw [hoccupied] at hi
        exact h.nodup.mem_erase_iff.mp hi
      have hle := h.length_le
      have hstorageLength := h.storageLength
      obtain ⟨c₂, pointer, bytes, hpopulate, hinv, hbytes, hprefix⟩ :=
        Fits.insert hstores hplaced (slot victim) hchunk (fun hi => hmem (hin chunk hi).2)
          (by omega)
          (fun i hi heq => (hin i hi).1 (h.slot_inj i (hin i hi).2 victim hvictim heq))
          (fun i hi => by rw [hlength]; exact h.slot_lt_length i (hin i hi).2) (by omega)
          (by omega) (by rw [hmax]; exact h.max_le)
      have hposition : slot victim < c₁.chunkStorage.length := by omega
      refine ⟨_, pointer, bytes, ?_, hinv, hbytes, hprefix⟩
      rw [CompressedMmappedFile.chunkData, hline, ok_bind, if_neg (Nat.lt_irrefl noPosition),
        if_pos hfull, hevict, ok_bind]
      dsimp only
      rw [element_eq (List.getElem?_eq_getElem hposition), ok_bind, hpopulate, ok_bind]
      rfl
    · have hstorageLength := h.storageLength
      obtain ⟨c₂, pointer, bytes, hpopulate, hinv, hbytes, hprefix⟩ :=
        Fits.insert hstores h.toPlaced c.occupied.length hchunk hmem (by omega)
          (fun i hi heq => Nat.lt_irrefl _ (heq ▸ h.slot_lt_length i hi))
          (fun i hi => Nat.lt_succ_of_lt (h.slot_lt_length i hi)) (by omega) hstorageLength h.max_le
      have hposition : c.occupied.length < c.chunkStorage.length := by omega
      refine ⟨_, pointer, bytes, ?_, hinv, hbytes, hprefix⟩
      rw [CompressedMmappedFile.chunkData, hline, ok_bind, if_neg (Nat.lt_irrefl noPosition),
        if_neg hfull, ok_bind]
      dsimp only
      rw [element_eq (List.getElem?_eq_getElem hposition), ok_bind, hpopulate, ok_bind]
      rfl

theorem Placed.evictAll (rand : Nat → Nat) (n : Nat) :
    ∀ {c : ChunkCache}, Placed cf src count slot tile c → c.occupied.length = n →
    ∃ c', evictAll cf rand n c = .ok c' ∧ Placed cf src count slot tile c' ∧ c'.occupied = [] ∧
      c'.maxOccupyCount = c.maxOccupyCount := by
  induction n with
  | zero =>
    intro c h hlength
    exact ⟨c, rfl, h, List.eq_nil_of_length_eq_zero hlength, rfl⟩
  | succ n ih =>
    intro c h hlength
    have hpos : c.occupied.length > 0 := by omega
    obtain ⟨c₁, victim, hevict, hvictim, hplaced, hoccupied, hmax, -⟩ :=
      h.evict rand (List.ne_nil_of_length_pos hpos)
    have hlength₁ : c₁.occupied.length = n := by
      have herase := List.length_erase_add_one hvictim
      rw [hoccupied]
      omega
    obtain ⟨c₂, hevictAll, hplaced₂, hnil, hmax₂⟩ := ih hplaced hlength₁
    refine ⟨c₂, ?_, hplaced₂, hnil, hmax₂.trans hmax⟩
    rw [CompressedMmappedFile.evictAll, if_pos hpos, hevict, ok_bind]
    exact hevictAll

theorem allTiles_eq (h : count ≤ 2 ^ 16) : allTiles count = List.range count := by
  have hid : ∀ i ∈ List.range count, u16 i = i := fun i hi =>
    Nat.mod_eq_of_lt (Nat.lt_of_lt_of_le (List.mem_range.mp hi) h)
  rw [allTiles, List.map_congr_left hid, List.map_id']

def CanResize (cf : CompressedFile) (c : ChunkCache) (newCount : Nat) : Prop :=
  1 ≤ newCount ∧ (cf.chunkSize * newCount > c.decTileFile.size →
    newCount ≤ 2 ^ 16 ∧ ∀ i ∈ c.occupied, cf.chunkTypeBitSet.isSet i = false)

variable {newCount : Nat}

theorem Placed.grow (h : Placed cf src count slot tile c) (base : Nat)
    (hcount : newCount ≤ 2 ^ 16) (hmapped : ∀ i ∈ c.occupied, cf.chunkTypeBitSet.isSet i = false) :
    Placed cf src newCount slot tile
      { c with
        decTileFile := ⟨base, cf.chunkSize * newCount, c.decTileFile.tiles⟩
        freeList := allTiles newCount } := by
  have hused : usedTiles cf tile c.occupied = [] := by
    have hfilter : c.occupied.filter cf.chunkTypeBitSet.isSet = [] := by
      refine List.filter_eq_nil_iff.mpr fun i hi => ?_
      rw [hmapped i hi]
      exact Bool.false_ne_true
    rw [usedTiles, hfilter, List.map_nil]
  refine
    { h with
      count_le := hcount
      fileSize := rfl
      pointer := fun i hi => ?_
      tiles := ?_ }
  · have hpointer := h.pointer i hi
    rw [pointerOf, hmapped i hi] at hpointer ⊢
    exact hpointer
  · change (allTiles newCount ++ usedTiles cf tile c.occupied).Perm (List.range newCount)
    rw [hused, List.append_nil, allTiles_eq hcount]

theorem Placed.resize (h : Placed cf src count slot tile c) (rand : Nat → Nat)
    (hpos : 1 ≤ newCount) (hle : newCount ≤ count) :
    ∃ c', CompressedMmappedFile.evictAll cf rand c.occupied.length
        { c with maxOccupyCount := newCount } = .ok c' ∧
      Inv cf src { c' with chunkStorage := resizeStorage c'.chunkStorage newCount } := by
  have hplaced : Placed cf src count slot tile { c with maxOccupyCount := newCount } := { h with }
  obtain ⟨c', hevictAll, hplaced', hnil, hmax⟩ := hplaced.evictAll rand _ rfl
  have hnone : ∀ i, i ∉ c'.occupied := fun i hi => List.not_mem_nil (hnil ▸ hi)
  have hmax' : c'.maxOccupyCount = newCount := hmax
  refine ⟨c', hevictAll, count, slot, tile, { hplaced' with pointer := fun i hi => ?_ },
    fun i hi => ?_, ?_, ?_, ?_, ?_⟩
  · exact absurd hi (hnone i)
  · exact absurd hi (hnone i)
  · change (resizeStorage c'.chunkStorage newCount).length = c'.maxOccupyCount
    rw [resizeStorage, List.length_append, List.length_take, List.length_replicate, hmax']
    omega
  · change c'.occupied.length ≤ c'.maxOccupyCount
    rw [hnil]
    exact Nat.zero_le _
  · change 0 < c'.maxOccupyCount
    rwa [hmax']
  · change c'.maxOccupyCount ≤ count
    rwa [hmax']

theorem Inv.setCacheCount (h : Inv cf src c) (rand : Nat → Nat) (base : Nat)
    (hresize : CanResize cf c newCount) :
    ∃ c', setCacheCount cf rand base newCount c = .ok c' ∧ Inv cf src c' := by
  obtain ⟨count, slot, tile, h⟩ := h
  obtain ⟨hpos, hgrow⟩ := hresize
  rw [CompressedMmappedFile.setCacheCount]
  by_cases hlarge : cf.chunkSize * newCount > c.decTileFile.size
  · obtain ⟨hcount, hmapped⟩ := hgrow hlarge
    obtain ⟨c', hevictAll, hinv⟩ :=
      (h.toPlaced.grow base hcount hmapped).resize rand hpos le_rfl
    refine ⟨_, ?_, hinv⟩
    rw [if_pos hlarge]
    dsimp only
    rw [hevictAll, ok_bind]
    rfl
  · have hle : newCount ≤ count := by
      rw [h.fileSize, not_lt] at hlarge
      exact Nat.le_of_mul_le_mul_left hlarge (chunkSize_pos cf)
    obtain ⟨c', hevictAll, hinv⟩ := h.toPlaced.resize rand hpos hle
    refine ⟨_, ?_, hinv⟩
    rw [if_neg hlarge]
    rw [hevictAll, ok_bind]
    rfl

end Sserialize.CompressedMmappedFile
