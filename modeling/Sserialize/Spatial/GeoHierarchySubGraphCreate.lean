import Sserialize.Spatial.GeoHierarchySubGraphCells

namespace Sserialize.GeoHierarchySubGraph

open GeoHierarchy

section

variable (gh : GeoHierarchy) (filter : Nat → Bool) (idxStore : ItemIndexStore)
  (regionCellIdxPtr : Nat → Nat)

def regionCells (id : Nat) : ItemIndex := idxStore.at (regionCellIdxPtr id)

noncomputable def regionRow (id : Nat) : RegionDesc :=
  ⟨u32 (Packed.offset (ascendingParents gh filter) id),
    (regionCells idxStore regionCellIdxPtr id).size⟩

noncomputable def foundCells : List (List Nat) :=
  (List.range gh.cellSize).map fun id => foundDirect gh filter id ++ foundRest gh filter id

noncomputable def cellRow (id : Nat) : CellDesc :=
  let begin := Packed.offset (foundCells gh filter) id
  ⟨u32 begin, u32 (begin + (foundDirect gh filter id).length), (gh.cellAt id).itemCount⟩

end

variable {gh : GeoHierarchy} {filter : Nat → Bool} {idxStore : ItemIndexStore}
  {regionCellIdxPtr : Nat → Nat} {fuel : Nat}

variable {k : Nat}

theorem moveRegions_eq (idxStore : ItemIndexStore) (regionCellIdxPtr : Nat → Nat)
    {t : TempRegionInfos}
    (hread : ∀ x < gh.regionSize, t.parents x = .ok (foundParents gh filter x))
    (hk : k ≤ gh.regionSize) :
    (List.range k).foldlM (moveRegion idxStore regionCellIdxPtr t) ⟨[], [], [], [], []⟩ =
      .ok ⟨[], ((ascendingParents gh filter).take k).flatten,
        (List.range k).map (regionRow gh filter idxStore regionCellIdxPtr), [], []⟩ := by
  induction k with
  | zero => rfl
  | succ k ih =>
    have hget : (ascendingParents gh filter)[k]? = some (foundParents gh filter k) :=
      getElem?_ascendingParents hk
    rw [List.range_succ, List.foldlM_append, ih (Nat.le_of_succ_le hk), ok_bind, List.foldlM_cons,
      moveRegion, hread k hk, ok_bind, List.take_add_one, hget, List.flatten_append, List.map_append]
    change Except.ok _ = Except.ok _
    simp [regionRow, Packed.offset, regionCells]

/-- The begins and the ends of the parents of the regions, and the parents themselves. -/
structure RegionsHold (gh : GeoHierarchy) (filter : Nat → Bool) (sub : GeoHierarchySubGraph) :
    Prop where
  ptrs : sub.regionParentsPtrs = (ascendingParents gh filter).flatten
  begins : ∀ id < gh.regionSize,
    sub.parentsBegin id = .ok (Packed.offset (ascendingParents gh filter) id)
  ends : ∀ id < gh.regionSize,
    sub.parentsEnd id = .ok (Packed.offset (ascendingParents gh filter) (id + 1))

section

variable {sub : GeoHierarchySubGraph}

theorem RegionsHold.parents (h : RegionsHold gh filter sub) {id : Nat} (hid : id < gh.regionSize) :
    sub.parents id = .ok (foundParents gh filter id) := by
  rw [GeoHierarchySubGraph.parents, h.begins id hid, ok_bind, h.ends id hid, ok_bind, h.ptrs]
  exact ptrRange_flatten (getElem?_ascendingParents hid)

theorem RegionsHold.slice (h : RegionsHold gh filter sub) {id : Nat} (hid : id < gh.regionSize) :
    slice sub.regionParentsPtrs (Packed.offset (ascendingParents gh filter) id)
      (Packed.offset (ascendingParents gh filter) (id + 1)) = foundParents gh filter id := by
  have hget : (ascendingParents gh filter)[id]? = some (foundParents gh filter id) :=
    getElem?_ascendingParents hid
  have hdrop := Packed.drop_take_flatten hget []
  rw [List.append_nil] at hdrop
  rw [h.ptrs, Sserialize.slice, Packed.offset_succ hget, Nat.add_sub_cancel_left, hdrop]

theorem RegionsHold.reads (h : RegionsHold gh filter sub) : Reads gh filter 0 sub.parents :=
  fun _ _ hx _ => h.parents hx

variable (hfits : (ascendingParents gh filter).flatten.length < 2 ^ 32)

include hfits

theorem offset_lt (i : Nat) : Packed.offset (ascendingParents gh filter) i < 2 ^ 32 :=
  (Packed.offset_le _ i).trans_lt hfits

theorem regionsHold_of_rows
    (hptrs : sub.regionParentsPtrs = (ascendingParents gh filter).flatten)
    (hdesc : sub.regionDesc =
        (List.range gh.regionSize).map (regionRow gh filter idxStore regionCellIdxPtr) ∨
      sub.regionDesc =
        (List.range gh.regionSize).map (regionRow gh filter idxStore regionCellIdxPtr) ++
          [⟨u32 (ascendingParents gh filter).flatten.length, 0⟩]) :
    RegionsHold gh filter sub := by
  have hlengthParents : (ascendingParents gh filter).length = gh.regionSize := by
    rw [ascendingParents, List.length_map, List.length_range]
  have htotal : Packed.offset (ascendingParents gh filter) gh.regionSize =
      (ascendingParents gh filter).flatten.length := by
    rw [← hlengthParents, Packed.offset_length]
  have hlength : ((List.range gh.regionSize).map
      (regionRow gh filter idxStore regionCellIdxPtr)).length = gh.regionSize := by
    rw [List.length_map, List.length_range]
  have hrow : ∀ id < gh.regionSize, ((List.range gh.regionSize).map
      (regionRow gh filter idxStore regionCellIdxPtr))[id]? =
        some (regionRow gh filter idxStore regionCellIdxPtr id) := by
    intro id hid
    rw [List.getElem?_map, List.getElem?_range hid]
    rfl
  have hat : ∀ id < gh.regionSize, checkedAt sub.regionDesc id =
      .ok (regionRow gh filter idxStore regionCellIdxPtr id) := by
    intro id hid
    refine checkedAt_of_getElem ?_
    obtain hdesc | hdesc := hdesc
    · rw [hdesc]
      exact hrow id hid
    · rw [hdesc, List.getElem?_append_left (by omega)]
      exact hrow id hid
  have hbegin : ∀ id, (regionRow gh filter idxStore regionCellIdxPtr id).parentsBegin =
      Packed.offset (ascendingParents gh filter) id := fun id => u32_of_lt (offset_lt hfits id)
  refine ⟨hptrs, fun id hid => ?_, fun id hid => ?_⟩
  · rw [parentsBegin, hat id hid, ok_bind, ← hbegin]
    rfl
  · rw [parentsEnd]
    obtain hlast | hlt := Nat.eq_or_lt_of_le (show id + 1 ≤ gh.regionSize from hid)
    · obtain hdesc | hdesc := hdesc
      · rw [if_pos (by rw [hdesc, hlength]; exact hlast), hptrs, hlast, htotal, u32_of_lt hfits]
        rfl
      · have hget : sub.regionDesc[id + 1]? =
            some ⟨u32 (ascendingParents gh filter).flatten.length, 0⟩ := by
          rw [hdesc, List.getElem?_append_right (by omega), hlength, hlast, Nat.sub_self]
          rfl
        have hne : id + 1 ≠ sub.regionDesc.length := by
          rw [hdesc, List.length_append, hlength, List.length_singleton]
          omega
        rw [if_neg hne, checkedAt_of_getElem hget, ok_bind, hlast, htotal, u32_of_lt hfits]
        rfl
    · have hne : id + 1 ≠ sub.regionDesc.length := by
        obtain hdesc | hdesc := hdesc
        · rw [hdesc, hlength]
          omega
        · rw [hdesc, List.length_append, hlength, List.length_singleton]
          omega
      rw [if_neg hne, hat (id + 1) hlt, ok_bind, ← hbegin]
      rfl

end

theorem getElem?_foundCells {id : Nat} (hid : id < gh.cellSize) :
    (foundCells gh filter)[id]? = some (foundDirect gh filter id ++ foundRest gh filter id) := by
  rw [foundCells, List.getElem?_map, List.getElem?_range hid]
  rfl

theorem addCells_eq (hgh : gh.WellFormed) (hr : gh.Reduced) (hfuel : gh.regionSize ≤ fuel)
    {ptrs : List Nat} {desc : List RegionDesc}
    (hregions : ∀ cellPtrs cells, RegionsHold gh filter ⟨cellPtrs, ptrs, desc, cells, []⟩)
    (hk : k ≤ gh.cellSize) :
    (List.range k).foldlM (addCell gh filter fuel) ⟨[], ptrs, desc, [], []⟩ =
      .ok ⟨((foundCells gh filter).take k).flatten, ptrs, desc,
        (List.range k).map (cellRow gh filter), []⟩ := by
  induction k with
  | zero => rfl
  | succ k ih =>
    have hadd := addCell_eq hgh (hregions ((foundCells gh filter).take k).flatten
      ((List.range k).map (cellRow gh filter))).reads hfuel hr hk
    rw [List.range_succ, List.foldlM_append, ih (Nat.le_of_succ_le hk), ok_bind, List.foldlM_cons,
      hadd, ok_bind, List.take_add_one, getElem?_foundCells hk, List.flatten_append,
      List.map_append]
    change Except.ok _ = Except.ok _
    simp [pushCell, cellRow, Packed.offset]

section

/-- What `m_rec` holds before and while the cells of children are taken away. -/
structure ExclusiveHolds (gh : GeoHierarchy) (filter : Nat → Bool) (idxStore : ItemIndexStore)
    (regionCellIdxPtr : Nat → Nat) (k : Nat) (exclusive : List ItemIndex) : Prop where
  length : exclusive.length = gh.regionSize + 1
  mem : ∀ id < gh.regionSize, filter id = true → ∃ cells, exclusive[id]? = some cells ∧
    ∀ c, c ∈ cells.ids ↔ c ∈ (regionCells idxStore regionCellIdxPtr id).ids ∧
      ∀ child < k, filter child = true → id ∈ foundParents gh filter child →
        c ∉ (regionCells idxStore regionCellIdxPtr child).ids

variable (gh filter idxStore regionCellIdxPtr) in
theorem allCells_holds :
    ExclusiveHolds gh filter idxStore regionCellIdxPtr 0
      (allCells gh filter idxStore regionCellIdxPtr (gh.regionSize + 1)) := by
  suffices h : ∀ k ≤ gh.regionSize, ∀ exclusive, exclusive = (List.range k).foldl
        (fun exclusive regionId =>
          if filter regionId then exclusive.set regionId (idxStore.at (regionCellIdxPtr regionId))
          else exclusive) (List.replicate (gh.regionSize + 1) ItemIndex.empty) →
      exclusive.length = gh.regionSize + 1 ∧ ∀ id < k, filter id = true →
        exclusive[id]? = some (regionCells idxStore regionCellIdxPtr id) by
    obtain ⟨hlength, hget⟩ := h gh.regionSize le_rfl _ rfl
    refine ⟨hlength, fun id hid hfilter => ⟨_, hget id hid hfilter, fun c => ?_⟩⟩
    exact ⟨fun hc => ⟨hc, fun child hchild => absurd hchild (Nat.not_lt_zero child)⟩, And.left⟩
  intro k hk
  induction k with
  | zero =>
    rintro _ rfl
    exact ⟨List.length_replicate, fun id hid => absurd hid (Nat.not_lt_zero id)⟩
  | succ k ih =>
    rintro _ rfl
    obtain ⟨hlength, hget⟩ := ih (Nat.le_of_succ_le hk) _ rfl
    rw [List.range_succ, List.foldl_append, List.foldl_cons, List.foldl_nil]
    by_cases hfilter : filter k = true
    · rw [if_pos hfilter]
      refine ⟨by rw [List.length_set]; exact hlength, fun id hid hfid => ?_⟩
      obtain rfl | hlt := Nat.eq_or_lt_of_le (Nat.lt_succ_iff.mp hid)
      · exact List.getElem?_set_self (by omega)
      · rw [List.getElem?_set_ne hlt.ne']
        exact hget id hlt hfid
    · rw [if_neg hfilter]
      refine ⟨hlength, fun id hid hfid => ?_⟩
      obtain rfl | hlt := Nat.eq_or_lt_of_le (Nat.lt_succ_iff.mp hid)
      · exact absurd hfid hfilter
      · exact hget id hlt hfid

theorem foldlM_subtractAt {ptrs : List Nat} (idx : ItemIndex) (hnodup : ptrs.Nodup)
    (hkept : ∀ p ∈ ptrs, filter p = true) :
    ∀ {exclusive : List ItemIndex}, (∀ p ∈ ptrs, p < exclusive.length) →
      ∃ exclusive', ptrs.foldlM (fun exclusive p =>
          if filter p then subtractAt exclusive p idx else .ok exclusive) exclusive =
          .ok exclusive' ∧
        exclusive'.length = exclusive.length ∧
        ∀ id, exclusive'[id]? = exclusive[id]?.map fun cells =>
          if id ∈ ptrs then ItemIndex.apply .difference cells idx else cells := by
  induction ptrs with
  | nil => exact fun {exclusive} _ => ⟨exclusive, rfl, rfl, fun id => by simp⟩
  | cons p ptrs ih =>
    intro exclusive hlt
    obtain ⟨hp, hrest⟩ := List.nodup_cons.mp hnodup
    have hplt := hlt p List.mem_cons_self
    have hget : exclusive[p]? = some exclusive[p] := List.getElem?_eq_getElem hplt
    have hltset : ∀ q ∈ ptrs,
        q < (exclusive.set p (ItemIndex.apply .difference exclusive[p] idx)).length := by
      intro q hq
      rw [List.length_set]
      exact hlt q (List.mem_cons_of_mem _ hq)
    obtain ⟨exclusive', hfold, hlength, hmap⟩ := ih hrest
      (fun q hq => hkept q (List.mem_cons_of_mem _ hq)) hltset
    refine ⟨exclusive', ?_, ?_, fun id => ?_⟩
    · rw [List.foldlM_cons, if_pos (hkept p List.mem_cons_self), subtractAt, hget]
      exact hfold
    · rw [hlength, List.length_set]
    · rw [hmap]
      by_cases heq : id = p
      · subst heq
        rw [List.getElem?_set_self hplt, hget, Option.map_some, Option.map_some, if_neg hp,
          if_pos List.mem_cons_self]
      · rw [List.getElem?_set_ne (Ne.symm heq)]
        simp only [List.mem_cons, heq, false_or]

variable {sub : GeoHierarchySubGraph}

theorem subtractCells_eq (hgh : gh.WellFormed) (hregions : RegionsHold gh filter sub) {k : Nat}
    (hk : k ≤ gh.regionSize) {start : List ItemIndex}
    (hstart : ExclusiveHolds gh filter idxStore regionCellIdxPtr 0 start) :
    ∃ exclusive, (List.range k).foldlM (subtractCells filter idxStore regionCellIdxPtr sub) start =
        .ok exclusive ∧ ExclusiveHolds gh filter idxStore regionCellIdxPtr k exclusive := by
  induction k with
  | zero => exact ⟨start, rfl, hstart⟩
  | succ k ih =>
    obtain ⟨exclusive, hfold, hholds⟩ := ih (Nat.le_of_succ_le hk)
    rw [List.range_succ, List.foldlM_append, hfold, ok_bind, List.foldlM_cons, subtractCells]
    by_cases hfilter : filter k = true
    · have hspec := foundParents_spec hgh hk hfilter
      have hlt : ∀ p ∈ foundParents gh filter k, p < exclusive.length := by
        intro p hp
        have habove := (hgh.above_lt hk (hspec.sound p hp).2).2
        rw [hholds.length]
        omega
      obtain ⟨exclusive', hsubtract, hlength, hmap⟩ := foldlM_subtractAt
        (regionCells idxStore regionCellIdxPtr k) hspec.nodup
        (fun p hp => (hspec.sound p hp).1) hlt
      rw [if_pos hfilter, hregions.begins k hk, ok_bind, hregions.ends k hk, ok_bind,
        hregions.slice hk]
      refine ⟨exclusive', ?_, hlength.trans hholds.length, fun id hid hfid => ?_⟩
      · exact (congrArg (· >>= _) hsubtract).trans rfl
      · obtain ⟨cells, hcells, hmem⟩ := hholds.mem id hid hfid
        refine ⟨_, (hmap id).trans (congrArg (Option.map _) hcells), fun c => ?_⟩
        dsimp only
        rw [Nat.forall_lt_succ_right]
        by_cases hparent : id ∈ foundParents gh filter k
        · rw [if_pos hparent, ItemIndex.mem_apply, SetOp.Holds, hmem, and_assoc]
          exact and_congr_right' (and_congr_right' ⟨fun h _ _ => h, fun h => h hfilter hparent⟩)
        · rw [if_neg hparent, hmem]
          exact and_congr_right' (and_iff_left fun _ h => absurd h hparent).symm
    · rw [if_neg hfilter]
      refine ⟨exclusive, rfl, hholds.length, fun id hid hfid => ?_⟩
      obtain ⟨cells, hcells, hmem⟩ := hholds.mem id hid hfid
      refine ⟨cells, hcells, fun c => ?_⟩
      rw [hmem, Nat.forall_lt_succ_right]
      exact and_congr_right' (and_iff_left fun h => absurd h hfilter).symm

end

end Sserialize.GeoHierarchySubGraph
