import Mathlib.Data.Finset.Card
import Sserialize.Spatial.GeoHierarchySubGraphCreate

namespace Sserialize.GeoHierarchySubGraph

open GeoHierarchy

section

variable (gh : GeoHierarchy) (filter : Nat → Bool) (idxStore : ItemIndexStore)
  (regionCellIdxPtr : Nat → Nat)

noncomputable def created (exclusive : List ItemIndex) : GeoHierarchySubGraph where
  cellParentsPtrs := (foundCells gh filter).flatten
  regionParentsPtrs := (ascendingParents gh filter).flatten
  regionDesc := (List.range gh.regionSize).map (regionRow gh filter idxStore regionCellIdxPtr) ++
    [⟨u32 (ascendingParents gh filter).flatten.length, 0⟩]
  cellDesc := (List.range gh.cellSize).map (cellRow gh filter) ++
    [⟨u32 (foundCells gh filter).flatten.length, 0, 0⟩]
  exclusive := exclusive

end

variable {gh : GeoHierarchy} {filter : Nat → Bool} {idxStore : ItemIndexStore}
  {regionCellIdxPtr : Nat → Nat} {fuel : Nat}

section

variable (hgh : gh.WellFormed) (hr : gh.Reduced) (hfuel : Enough gh filter fuel)
  (hpos : gh.regionSize ≠ 0)

include hgh hr hfuel hpos

variable (idxStore regionCellIdxPtr) in
theorem create_eq (hfits : (ascendingParents gh filter).flatten.length < 2 ^ 32) :
    ∃ exclusive, create gh filter fuel idxStore regionCellIdxPtr =
        .ok (created gh filter idxStore regionCellIdxPtr exclusive) ∧
      ExclusiveHolds gh filter idxStore regionCellIdxPtr gh.regionSize exclusive := by
  have hfits' : (descendingParents gh filter).flatten.length < 2 ^ 32 := by
    rw [descendingParents_perm.flatten.length_eq]
    exact hfits
  have hstart : TempHolds gh filter 0
      ⟨[], List.replicate gh.regionSize GeoHierarchy.npos⟩ :=
    ⟨rfl, List.length_replicate, fun j hj => absurd hj (Nat.not_lt_zero j)⟩
  obtain ⟨t, hadd, htemp⟩ := addRegions_eq hgh hr hfuel hfits' (Nat.zero_add _) hstart
  have hread : ∀ x < gh.regionSize, t.parents x = .ok (foundParents gh filter x) := by
    intro x hx
    obtain ⟨j, hj, rfl⟩ : ∃ j < gh.regionSize, x = gh.regionSize - 1 - j :=
      ⟨gh.regionSize - 1 - x, by omega, by omega⟩
    refine temp_parents_eq htemp.ptrs hj le_rfl ((Packed.offset_le _ _).trans_lt hfits')
      (htemp.desc j hj) ?_
    obtain hlast | hlt := Nat.eq_or_lt_of_le (show j + 1 ≤ gh.regionSize from hj)
    · have hzero : gh.regionSize - 1 - j = 0 := by omega
      rw [hzero, TempRegionInfos.parentsEnd, if_pos rfl, htemp.ptrs, hlast, Packed.offset]
    · rw [parentsEnd_of_pos (by omega)]
      exact checkedAt_of_getElem (htemp.desc (j + 1) hlt)
  have hlength : (ascendingParents gh filter).length = gh.regionSize := by
    rw [ascendingParents, List.length_map, List.length_range]
  have hlengthCells : (foundCells gh filter).length = gh.cellSize := by
    rw [foundCells, List.length_map, List.length_range]
  have hmove := moveRegions_eq idxStore regionCellIdxPtr hread le_rfl
  rw [List.take_of_length_le hlength.le] at hmove
  have hrows : ∀ cellPtrs cells, RegionsHold gh filter ⟨cellPtrs,
      (ascendingParents gh filter).flatten,
      (List.range gh.regionSize).map (regionRow gh filter idxStore regionCellIdxPtr), cells, []⟩ :=
    fun _ _ => regionsHold_of_rows hfits rfl (.inl rfl)
  have hcells := addCells_eq hgh hr hfuel.depth hrows le_rfl
  rw [List.take_of_length_le hlengthCells.le] at hcells
  have hregions : RegionsHold gh filter (created gh filter idxStore regionCellIdxPtr []) :=
    regionsHold_of_rows hfits rfl (.inr rfl)
  obtain ⟨exclusive, hsubtract, hholds⟩ :=
    subtractCells_eq hgh hregions le_rfl (allCells_holds gh filter idxStore regionCellIdxPtr)
  have hdesc : (created gh filter idxStore regionCellIdxPtr []).regionDesc.length =
      gh.regionSize + 1 := by
    rw [created, List.length_append, List.length_map, List.length_range, List.length_singleton]
  refine ⟨exclusive, ?_, hholds⟩
  rw [create, if_neg hpos, hadd, ok_bind, hmove, ok_bind, hcells, ok_bind]
  change ((List.range gh.regionSize).foldlM (subtractCells filter idxStore regionCellIdxPtr
      (created gh filter idxStore regionCellIdxPtr []))
    (allCells gh filter idxStore regionCellIdxPtr
      (created gh filter idxStore regionCellIdxPtr []).regionDesc.length) >>= _) = _
  rw [hdesc, hsubtract]
  rfl

end

section

variable {exclusive : List ItemIndex}

section

variable (hgh : gh.WellFormed) (hr : gh.Reduced) {id : Nat} (hid : id < gh.cellSize)

include hid

include hgh hr

end

end

/-- The hierarchy is the one of the kept regions: their parents are their minimal kept ancestors,
the parents of a cell are its kept ancestors with the minimal ones in front, and the exclusive cells
of a region are its cells without those of its kept children. -/
structure IsSubGraph (gh : GeoHierarchy) (filter : Nat → Bool) (idxStore : ItemIndexStore)
    (regionCellIdxPtr : Nat → Nat) (sub : GeoHierarchySubGraph) : Prop where
  parents : ∀ r < gh.regionSize, filter r = true →
    ∃ ptrs, sub.parents r = .ok ptrs ∧ ptrs.Nodup ∧ ∀ p, p ∈ ptrs ↔ IsMinimalKept gh filter r p
  ancestors : ∀ r < gh.regionSize, filter r = true → ∀ p,
    Relation.TransGen (fun a b => ∃ ptrs, sub.parents a = .ok ptrs ∧ b ∈ ptrs) r p ↔
      filter p = true ∧ gh.Above r p
  cellParents : ∀ id < gh.cellSize, ∃ direct rest, sub.cellParents id = .ok (direct ++ rest) ∧
    sub.directParentsSize id = .ok direct.length ∧ (direct ++ rest).Nodup ∧
    (∀ p, p ∈ direct ++ rest ↔ filter p = true ∧ gh.Ancestor id p) ∧
    ∀ p, p ∈ direct ↔ IsMinimalKeptOfCell gh filter id p
  exclusive : ∀ r < gh.regionSize, filter r = true → ∀ c,
    c ∈ (sub.regionExclusiveCells r).ids ↔ c ∈ (regionCells idxStore regionCellIdxPtr r).ids ∧
      ∀ child < gh.regionSize, filter child = true → IsMinimalKept gh filter child r →
        c ∉ (regionCells idxStore regionCellIdxPtr child).ids

section

variable (gh filter)

def Right (idxStore : ItemIndexStore) (regionCellIdxPtr : Nat → Nat) : Prop :=
  ∃ visits, ∀ fuel ≥ visits, ∃ sub, create gh filter fuel idxStore regionCellIdxPtr = .ok sub ∧
    IsSubGraph gh filter idxStore regionCellIdxPtr sub

end

section

variable (hgh : gh.WellFormed) (hr : gh.Reduced)

include hgh hr

end

/-- The parents of region 0 are 1 and 2, the parent of 1 is 4, that of 2 is 3 and that of 3 is 4. The
cell is in region 0. -/
def twoPaths : GeoHierarchy where
  regions := [⟨0, 0, 2⟩, ⟨2, 1, 1⟩, ⟨4, 1, 1⟩, ⟨6, 1, 1⟩, ⟨8, 2, 0⟩, ⟨10, 1, 0⟩, ⟨11, 0, 0⟩]
  regionPtrs := [1, 2, 0, 4, 0, 3, 2, 4, 1, 3, 4]
  cells := [⟨0, 1, 1, 0⟩, ⟨0, 0, 0, 5⟩]
  cellPtrs := [0, 1, 2, 3, 4]

theorem above_mem_of_closed {ids : List Nat} {r p : Nat} (hstart : ∀ q ∈ gh.parents r, q ∈ ids)
    (hclosed : ∀ x ∈ ids, ∀ q ∈ gh.parents x, q ∈ ids) (h : gh.Above r p) : p ∈ ids := by
  induction h with
  | single h => exact hstart _ h
  | tail _ h ih => exact hclosed _ ih _ h

theorem ancestor_twoPaths (p : Nat) : twoPaths.Ancestor 0 p ↔ p ∈ [0, 1, 2, 3, 4] := by
  have h01 : 1 ∈ twoPaths.parents 0 := by decide
  have h02 : 2 ∈ twoPaths.parents 0 := by decide
  have h23 : 3 ∈ twoPaths.parents 2 := by decide
  have h34 : 4 ∈ twoPaths.parents 3 := by decide
  constructor
  · rintro ⟨d, hd, hdp⟩
    have hdirect : twoPaths.cellDirectParents 0 = [0] := by decide
    rw [hdirect] at hd
    obtain rfl := List.mem_singleton.mp hd
    obtain rfl | habove := Relation.reflTransGen_iff_eq_or_transGen.mp hdp
    · exact List.mem_cons_self
    · exact above_mem_of_closed (by decide) (by decide) habove
  · intro hp
    refine ⟨0, by decide, ?_⟩
    simp only [List.mem_cons, List.not_mem_nil, or_false] at hp
    obtain rfl | rfl | rfl | rfl | rfl := hp
    · exact .refl
    · exact .single h01
    · exact .single h02
    · exact .tail (.single h02) h23
    · exact .tail (.tail (.single h02) h23) h34

theorem wellFormed_twoPaths : twoPaths.WellFormed where
  regionRows := by decide
  cellRows := by decide
  regionPtrsSize := by decide
  cellPtrsSize := by decide
  regionPtrsEnd := by decide
  cellPtrsEnd := by decide
  cellPtrsAscend := by decide
  itemCounts := by decide
  parentsLarger := by decide
  parentsNodup := by decide
  childrenNodup := by decide
  mem_children := by
    have hlt : ∀ p < twoPaths.regionSize, ∀ id ∈ twoPaths.children p, id < twoPaths.regionSize := by
      decide
    have hiff : ∀ p < twoPaths.regionSize, ∀ id < twoPaths.regionSize,
        (id ∈ twoPaths.children p ↔ p ∈ twoPaths.parents id) := by
      decide
    intro p hp id
    constructor
    · exact fun h => ⟨hlt p hp id h, (hiff p hp id (hlt p hp id h)).mp h⟩
    · exact fun h => (hiff p hp id h.1).mpr h.2
  cellParentsInside := by decide
  cellParentsNodup := by decide
  mem_cellParents := by
    intro id hid p
    obtain rfl : id = 0 := Nat.lt_one_iff.mp hid
    have hparents : twoPaths.cellParents 0 = [0, 1, 2, 3, 4] := by decide
    rw [hparents, ancestor_twoPaths]

end Sserialize.GeoHierarchySubGraph
