import Sserialize.Spatial.GridRegionTree

namespace Sserialize.GridRegionTree

structure Correct (r : GeoRegion) : Prop where
  intersects : ∀ (bounds : GeoRect) (p : GeoPoint), bounds.contains p = true →
    r.contains p = true → r.intersects bounds = true
  encloses : ∀ (bounds : GeoRect) (p : GeoPoint), r.encloses bounds = true →
    bounds.contains p = true → r.contains p = true

variable (regions : List GeoRegion) (refiner : GridRefiner)

def regionContains (p : GeoPoint) (id : Nat) : Bool := regions[id]?.any fun r => r.contains p

/-- The grids of a refiner are valid, and cover what their regions have of a tile. -/
structure Covers [Rounding] : Prop where
  valid : ∀ bounds ids grid, refiner bounds ids = some grid → grid.Valid
  contains : ∀ bounds ids grid, refiner bounds ids = some grid → ∀ p : GeoPoint,
    bounds.contains p = true → (∃ id ∈ ids, regionContains regions p id = true) →
      grid.contains p = true

theorem setDifference_nil (xs : List Nat) : setDifference xs [] = xs := by
  cases xs with
  | nil => rfl
  | cons x xs => rfl

theorem setDifference_filter (p : Nat → Bool) {xs : List Nat} (h : xs.Pairwise (· < ·)) :
    setDifference xs (xs.filter p) = xs.filter fun x => !p x := by
  induction xs with
  | nil => rfl
  | cons x xs ih =>
    rw [List.pairwise_cons] at h
    have ih := ih h.2
    by_cases hp : p x = true
    · have hnot : ((x :: xs).filter fun x => !p x) = xs.filter fun x => !p x :=
        List.filter_cons_of_neg (by simp [hp])
      have hdrop : (x :: xs.filter p).dropWhile (· < x) = x :: xs.filter p :=
        List.dropWhile_cons_of_neg (by simp)
      rw [List.filter_cons_of_pos hp, hnot, setDifference, hdrop]
      dsimp only
      rw [if_neg (Nat.lt_irrefl x), ih]
    · have hnot : ((x :: xs).filter fun x => !p x) = x :: xs.filter fun x => !p x :=
        List.filter_cons_of_pos (by simpa using hp)
      have hlt : ∀ y ∈ xs.filter p, x < y := fun y hy => h.1 y (List.mem_of_mem_filter hy)
      rw [List.filter_cons_of_neg hp, hnot, ← ih]
      generalize xs.filter p = ys at hlt
      cases ys with
      | nil =>
        rw [setDifference_nil, setDifference_nil]
      | cons y ys =>
        have hxy := hlt y List.mem_cons_self
        have hdrop : (y :: ys).dropWhile (· < x) = y :: ys :=
          List.dropWhile_cons_of_neg (by simpa using hxy.le)
        rw [setDifference, hdrop]
        exact if_pos hxy

variable {sortedRegions : List Nat}

theorem remaining_eq (h : sortedRegions.Pairwise (· < ·)) (bounds : GeoRect) :
    remaining regions bounds sortedRegions =
      sortedRegions.filter fun id => !regions[id]?.any (regionEncloses bounds) :=
  setDifference_filter _ h

theorem pairwise_remaining (h : sortedRegions.Pairwise (· < ·)) (bounds : GeoRect) :
    (remaining regions bounds sortedRegions).Pairwise (· < ·) := by
  rw [remaining_eq regions h]
  exact h.filter _

theorem pairwise_intersecting (h : sortedRegions.Pairwise (· < ·)) (bounds : GeoRect) :
    (intersecting regions bounds sortedRegions).Pairwise (· < ·) :=
  h.filter _

variable {regions refiner}

theorem exists_of_any {id : Nat} {f : GeoRegion → Bool} (h : regions[id]?.any f = true) :
    ∃ r ∈ regions, regions[id]? = some r ∧ f r = true := by
  cases hr : regions[id]? with
  | none =>
    rw [hr] at h
    exact absurd h Bool.false_ne_true
  | some r =>
    rw [hr] at h
    exact ⟨r, List.mem_of_getElem? hr, rfl, h⟩

section

variable (hregions : ∀ r ∈ regions, Correct r)

include hregions

variable {bounds : GeoRect}

theorem regionContains_of_encloses {p : GeoPoint} {id : Nat} (hp : bounds.contains p = true)
    (hid : regions[id]?.any (regionEncloses bounds) = true) : regionContains regions p id = true := by
  obtain ⟨r, hmem, hr, hencloses⟩ := exists_of_any hid
  have hencl : r.encloses bounds = true := by
    rw [regionEncloses] at hencloses
    cases htype : r.type <;> rw [htype] at hencloses <;>
      first
        | exact hencloses
        | exact absurd hencloses Bool.false_ne_true
  rw [regionContains, hr]
  exact (hregions r hmem).encloses bounds p hencl hp

theorem filter_intersecting {p : GeoPoint} (hp : bounds.contains p = true) (ids : List Nat) :
    (intersecting regions bounds ids).filter (regionContains regions p) =
      ids.filter (regionContains regions p) := by
  rw [intersecting, List.filter_filter]
  refine List.filter_congr fun id _ => ?_
  cases hcontains : regionContains regions p id with
  | false => rfl
  | true =>
    obtain ⟨r, hmem, hr, hcontains'⟩ := exists_of_any hcontains
    rw [Bool.true_and, hr]
    exact (hregions r hmem).intersects bounds p hp hcontains'

theorem enclosing_append_perm {sortedRegions : List Nat} (h : sortedRegions.Pairwise (· < ·))
    {p : GeoPoint} (hp : bounds.contains p = true) :
    (getEnclosing regions bounds sortedRegions ++
        (remaining regions bounds sortedRegions).filter (regionContains regions p)).Perm
      (sortedRegions.filter (regionContains regions p)) := by
  have hperm := List.filter_append_perm (fun id => regions[id]?.any (regionEncloses bounds))
    sortedRegions
  have hfilter := hperm.filter (regionContains regions p)
  rw [List.filter_append] at hfilter
  have hall : (getEnclosing regions bounds sortedRegions).filter (regionContains regions p) =
      getEnclosing regions bounds sortedRegions := by
    refine List.filter_eq_self.mpr fun id hid => ?_
    exact regionContains_of_encloses hregions hp (List.mem_filter.mp hid).2
  rw [← getEnclosing, hall, ← remaining_eq regions h] at hfilter
  exact hfilter

end

def HasIds (leafInfo : List Nat) (valueBegin : Nat) (ids : List Nat) : Prop :=
  valueBegin ≤ leafInfo.length ∧ ids <+: leafInfo.drop valueBegin

section Rounded

variable [Rounding]

/-- A node represents a tile with the regions that intersect it. The nodes and the child pointers
below it have `N` and `S`. -/
inductive Represents (regions : List GeoRegion) (refiner : GridRefiner) (b : Builder)
    (N S : Nat → Prop) : Nat → List Nat → GeoRect → Prop
  | leaf {n valueBegin : Nat} {ids : List Nat} {bounds : GeoRect} (hn : N n)
      (hnode : b.nodes[n]? = some (.leaf valueBegin (getEnclosing regions bounds ids).length
        (remaining regions bounds ids).length))
      (hleafInfo : HasIds b.leafInfo valueBegin
        (getEnclosing regions bounds ids ++ remaining regions bounds ids))
      (hrefiner : refiner bounds (remaining regions bounds ids) = none) :
      Represents regions refiner b N S n ids bounds
  | internal {n gridPtr valueBegin childrenBegin : Nat} {ids : List Nat} {bounds : GeoRect}
      {grid : GeoGrid} (child : Nat → Nat) (hn : N n)
      (hnode : b.nodes[n]? = some (.internal gridPtr valueBegin
        (getEnclosing regions bounds ids).length childrenBegin))
      (hleafInfo : HasIds b.leafInfo valueBegin (getEnclosing regions bounds ids))
      (hrefiner : refiner bounds (remaining regions bounds ids) = some grid)
      (hgrid : b.nodeGrids[gridPtr]? = some grid)
      (hslot : ∀ tile < grid.tileCount, S (childrenBegin + tile))
      (hnull : ∀ tile < grid.tileCount,
        intersecting regions (grid.cellBoundary (grid.selectTile tile))
          (remaining regions bounds ids) = [] →
        b.nodePtr[childrenBegin + tile]? = some NullNodePtr)
      (hchild : ∀ tile < grid.tileCount,
        intersecting regions (grid.cellBoundary (grid.selectTile tile))
          (remaining regions bounds ids) ≠ [] →
        b.nodePtr[childrenBegin + tile]? = some (child tile) ∧ child tile ≠ NullNodePtr)
      (hrepresents : ∀ tile < grid.tileCount,
        intersecting regions (grid.cellBoundary (grid.selectTile tile))
          (remaining regions bounds ids) ≠ [] →
        Represents regions refiner b N S (child tile)
          (intersecting regions (grid.cellBoundary (grid.selectTile tile))
            (remaining regions bounds ids))
          (grid.cellBoundary (grid.selectTile tile))) :
      Represents regions refiner b N S n ids bounds

/-- The tile that a grid selects for a point. -/
def selected (grid : GeoGrid) (p : GeoPoint) : GeoRect := grid.cellBoundary (grid.select p)

/-- The grids that `find` comes to, with the regions that they were made for. -/
inductive Visited (regions : List GeoRegion) (refiner : GridRefiner) (initial : GeoGrid)
    (p : GeoPoint) : GeoGrid → List Nat → Prop
  | root : Visited regions refiner initial p initial (List.range regions.length)
  | next {grid below : GeoGrid} {ids : List Nat} (h : Visited regions refiner initial p grid ids)
      (hbelow : refiner (selected grid p) (remaining regions (selected grid p)
        (intersecting regions (selected grid p) ids)) = some below) :
      Visited regions refiner initial p below (remaining regions (selected grid p)
        (intersecting regions (selected grid p) ids))

/-- All grids on the way to a point select tiles whose boundaries have it. -/
def AllSelect (regions : List GeoRegion) (refiner : GridRefiner) (initial : GeoGrid)
    (p : GeoPoint) : Prop :=
  ∀ grid ids, Visited regions refiner initial p grid ids → grid.contains p = true → grid.Selects p

variable {ids : List Nat} {initial : GeoGrid}

omit [Rounding] in
theorem HasIds.mono {leafInfo leafInfo' : List Nat} {valueBegin : Nat}
    (h : HasIds leafInfo valueBegin ids) (hextends : leafInfo <+: leafInfo') :
    HasIds leafInfo' valueBegin ids := by
  obtain ⟨rest, rfl⟩ := hextends
  obtain ⟨hle, rest', hrest'⟩ := h
  refine ⟨?_, ?_⟩
  · rw [List.length_append]
    exact Nat.le_add_right_of_le hle
  · rw [List.drop_append_of_le_length hle, ← hrest', List.append_assoc]
    exact List.prefix_append _ _

omit [Rounding] in
theorem getElem?_of_extends {α : Type} {l m : List α} {n : Nat} {x : α} (h : l <+: m)
    (hx : l[n]? = some x) : m[n]? = some x := by
  obtain ⟨rest, rfl⟩ := h
  rw [List.getElem?_append_left (List.getElem?_eq_some_iff.mp hx).1]
  exact hx

/-- A node goes on to represent its tile while the nodes and child pointers below it are left
alone. -/
theorem Represents.keeps {b b' : Builder} {N N' S S' : Nat → Prop} {n : Nat} {bounds : GeoRect}
    (h : Represents regions refiner b N S n ids bounds)
    (hN : ∀ n, N n → N' n ∧ b'.nodes[n]? = b.nodes[n]?)
    (hS : ∀ j, S j → S' j ∧ b'.nodePtr[j]? = b.nodePtr[j]?)
    (hgrids : b.nodeGrids <+: b'.nodeGrids) (hleafInfo : b.leafInfo <+: b'.leafInfo) :
    Represents regions refiner b' N' S' n ids bounds := by
  induction h with
  | leaf hn hnode hids hrefiner =>
    obtain ⟨hn', hsame⟩ := hN _ hn
    exact .leaf hn' (hsame.trans hnode) (hids.mono hleafInfo) hrefiner
  | internal child hn hnode hids hrefiner hgrid hslot hnull hchild _ ih =>
    obtain ⟨hn', hsame⟩ := hN _ hn
    refine .internal child hn' (hsame.trans hnode) (hids.mono hleafInfo) hrefiner
      (getElem?_of_extends hgrids hgrid) (fun tile htile => (hS _ (hslot tile htile)).1)
      (fun tile htile hnil => ?_) (fun tile htile hne => ?_) ih
    · rw [(hS _ (hslot tile htile)).2]
      exact hnull tile htile hnil
    · rw [(hS _ (hslot tile htile)).2]
      exact hchild tile htile hne

omit [Rounding] in
theorem HasIds.range {b : Builder} {valueBegin : Nat} {ids rest : List Nat}
    (h : HasIds b.leafInfo valueBegin (ids ++ rest)) :
    leafInfoRange b valueBegin ids.length = .ok ids ∧
      HasIds b.leafInfo (valueBegin + ids.length) rest := by
  obtain ⟨hle, behind, hbehind⟩ := h
  have hlength := congrArg List.length hbehind
  rw [List.length_append, List.length_append, List.length_drop] at hlength
  refine ⟨?_, by omega, behind, ?_⟩
  · rw [leafInfoRange, if_pos (by omega), ← hbehind, List.append_assoc, List.take_left]
  · rw [← List.drop_drop, ← hbehind, List.append_assoc, List.drop_left]

/-- At an internal node `find` goes on with the selected child, if the grid has the point. -/
theorem findLoop_internal {b : Builder} {p : GeoPoint}
    {n gridPtr valueBegin enclosedCount childrenBegin : Nat} {grid : GeoGrid}
    {definite : List Nat} (hn : n ≠ NullNodePtr)
    (hnode : b.nodes[n]? = some (.internal gridPtr valueBegin enclosedCount childrenBegin))
    (hdefinite : leafInfoRange b valueBegin enclosedCount = .ok definite)
    (hgrid : b.nodeGrids[gridPtr]? = some grid) (fuel : Nat) :
    (∀ child, grid.contains p = true →
        b.nodePtr[childrenBegin + (grid.select p).tile]? = some child →
        findLoop regions b p (fuel + 1) n =
          findLoop regions b p fuel child >>= fun ids => .ok (definite ++ ids)) ∧
      (grid.contains p ≠ true → findLoop regions b p (fuel + 1) n = .ok definite) := by
  rw [findLoop, if_neg hn, hnode]
  dsimp only
  rw [hdefinite, ok_bind, hgrid]
  constructor
  · intro child hgridp hptr
    dsimp only
    rw [if_pos hgridp, hptr]
    rfl
  · intro hgridp
    exact if_neg hgridp

theorem Represents.findLoop (hregions : ∀ r ∈ regions, Correct r)
    (hcovers : Covers regions refiner) {b : Builder} {N S : Nat → Prop} {n : Nat}
    {bounds : GeoRect} {p : GeoPoint} (h : Represents regions refiner b N S n ids bounds)
    (hn : n ≠ NullNodePtr) (hids : ids.Pairwise (· < ·)) (hp : bounds.contains p = true)
    (hselects : AllSelect regions refiner initial p)
    (hvisited : ∀ grid, refiner bounds (remaining regions bounds ids) = some grid →
      Visited regions refiner initial p grid (remaining regions bounds ids)) :
    ∃ visits, ∀ fuel ≥ visits, ∃ out, findLoop regions b p fuel n = .ok out ∧
      out.Perm (ids.filter (regionContains regions p)) := by
  induction h with
  | leaf _ hnode hleafInfo _ =>
    refine ⟨1, fun fuel hfuel => ⟨_, ?_, enclosing_append_perm hregions hids hp⟩⟩
    obtain ⟨fuel, rfl⟩ : ∃ m, fuel = m + 1 := ⟨fuel - 1, by omega⟩
    obtain ⟨hdefinite, hrest⟩ := hleafInfo.range
    rw [← List.append_nil (remaining _ _ _)] at hrest
    rw [GridRegionTree.findLoop, if_neg hn, hnode]
    dsimp only
    rw [hdefinite, ok_bind, hrest.range.1, ok_bind]
    rfl
  | @internal n gridPtr valueBegin childrenBegin ids bounds grid child _ hnode hleafInfo hrefiner
      hgrid _ hnull hchild _ ih =>
    have hperm := enclosing_append_perm hregions hids hp
    rw [← List.append_nil (getEnclosing _ _ _)] at hleafInfo
    by_cases hgridp : grid.contains p = true
    · have hvisit := hvisited grid hrefiner
      have hselects' := hselects grid _ hvisit hgridp
      obtain ⟨htile, hselect⟩ := hselects'.tile (hcovers.valid _ _ _ hrefiner) hgridp
      have hcell := hselects'.contains
      have hfilter := filter_intersecting hregions hcell (remaining regions bounds ids)
      rw [← hselect] at hfilter hcell
      by_cases hnil : intersecting regions
          (grid.cellBoundary (grid.selectTile (grid.select p).tile))
          (remaining regions bounds ids) = []
      · rw [hnil, List.filter_nil] at hfilter
        rw [← hfilter, List.append_nil] at hperm
        refine ⟨2, fun fuel hfuel => ⟨_, ?_, hperm⟩⟩
        obtain ⟨fuel, rfl⟩ : ∃ m, fuel = m + 1 + 1 := ⟨fuel - 2, by omega⟩
        rw [(findLoop_internal hn hnode hleafInfo.range.1 hgrid _).1 _ hgridp (hnull _ htile hnil),
          GridRegionTree.findLoop, if_pos rfl, ok_bind, List.append_nil]
      · obtain ⟨hptr, hne⟩ := hchild _ htile hnil
        obtain ⟨visits, hvisits⟩ := ih _ htile hnil hne
          (pairwise_intersecting regions (pairwise_remaining regions hids _) _) hcell
          (by
            rw [hselect]
            exact fun below hbelow => hvisit.next hbelow)
        refine ⟨visits + 1, fun fuel hfuel => ?_⟩
        obtain ⟨fuel, rfl⟩ : ∃ m, fuel = m + 1 := ⟨fuel - 1, by omega⟩
        obtain ⟨out, hout, houtPerm⟩ := hvisits fuel (by omega)
        rw [hfilter] at houtPerm
        refine ⟨_, ?_, (houtPerm.append_left _).trans hperm⟩
        rw [(findLoop_internal hn hnode hleafInfo.range.1 hgrid _).1 _ hgridp hptr, hout, ok_bind]
    · have hnone : (remaining regions bounds ids).filter (regionContains regions p) = [] := by
        refine List.filter_eq_nil_iff.mpr fun id hid hcontains => ?_
        exact hgridp (hcovers.contains _ _ _ hrefiner p hp ⟨id, hid, hcontains⟩)
      rw [hnone, List.append_nil] at hperm
      refine ⟨1, fun fuel hfuel => ⟨_, ?_, hperm⟩⟩
      obtain ⟨fuel, rfl⟩ : ∃ m, fuel = m + 1 := ⟨fuel - 1, by omega⟩
      exact (findLoop_internal hn hnode hleafInfo.range.1 hgrid _).2 hgridp

end Rounded

end Sserialize.GridRegionTree
