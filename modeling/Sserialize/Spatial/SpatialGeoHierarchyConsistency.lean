import Sserialize.Library.SignedBisection
import Sserialize.Spatial.GridRegionTree
import Sserialize.Spatial.SpatialGeoHierarchy

namespace Sserialize

/-- `std::is_sorted`. -/
def isSorted (xs : List Nat) : Bool := xs.IsChain (· ≤ ·)

def binarySearch (xs : List Nat) (val : Nat) : Bool :=
  let pos := HalvingSearch.search (fun i => !decide (xs.getD i 0 < val)) xs.length 0 xs.length
  decide (pos < xs.length) && !decide (val < xs.getD pos 0)

def haveCommonValueOrdered : List Nat → List Nat → Bool
  | [], _ => false
  | a :: as, bs =>
    match bs.dropWhile (· < a) with
    | [] => false
    | b :: bs => if a = b then true else haveCommonValueOrdered as (b :: bs)

/-- `subset_of`, with `set2lg`. The first range has to be a proper part of the second one. -/
def subsetOf (set2lg : Bool) : List Nat → List Nat → Bool
  | [], bs => set2lg || !bs.isEmpty
  | a :: as, bs =>
    match bs.dropWhile (· < a) with
    | [] => false
    | b :: rest =>
      if a < b then false
      else subsetOf (set2lg || decide (rest.length + 1 < bs.length)) as rest

theorem pairwise_of_isSorted {xs : List Nat} (h : isSorted xs = true) : xs.Pairwise (· ≤ ·) :=
  List.isChain_iff_pairwise.mp (of_decide_eq_true h)

theorem mem_of_binarySearch {xs : List Nat} {val : Nat} (h : binarySearch xs val = true) :
    val ∈ xs := by
  rw [binarySearch, Bool.and_eq_true, decide_eq_true_eq, Bool.not_eq_true',
    decide_eq_false_iff_not] at h
  obtain ⟨hlt, hle⟩ := h
  have hge := HalvingSearch.holds_at_search (Nat.le_refl _) (hlt.trans_eq (Nat.zero_add _).symm)
  rw [Bool.not_eq_true', decide_eq_false_iff_not] at hge
  rw [List.getD_eq_getElem _ 0 hlt] at hge hle
  have heq := Nat.le_antisymm (Nat.not_lt.mp hle) (Nat.not_lt.mp hge)
  exact heq ▸ List.getElem_mem hlt

theorem allM_eq_ok_true_iff {α : Type} {f : α → Except Fault Bool} {xs : List α} :
    xs.allM f = .ok true ↔ ∀ x ∈ xs, f x = .ok true := by
  induction xs with
  | nil => exact iff_of_true rfl fun _ hx => absurd hx List.not_mem_nil
  | cons x xs ih =>
    rw [List.forall_mem_cons, ← ih]
    change (f x >>= fun b => _) = _ ↔ _
    cases f x with
    | error e =>
      refine iff_of_false (fun h => ?_) fun h => ?_
      · cases h
      · cases h.1
    | ok b =>
      cases b with
      | false =>
        refine iff_of_false (fun h => ?_) fun h => ?_
        · cases h
        · cases h.1
      | true => exact (and_iff_right rfl).symm

namespace SpatialGeoHierarchy

variable {Rect : Type} (ops : GeoRectOps Rect) (gh : SpatialGeoHierarchy Rect)

def neighborsMatched (i : Nat) (r : Region Rect) : Except Fault Bool :=
  (r.neighbors gh.regionData).allM fun n => do
    let rn ← MMVector.at gh.regions n
    return decide (i ∈ rn.neighbors gh.regionData)

def containsCells (_ : Nat) (r : Region Rect) : Except Fault Bool :=
  (r.cells gh.regionData).allM fun x => do
    let c ← MMVector.at gh.cells x
    return ops.contains r.boundary c.boundary

def childrenSorted (_ : Nat) (r : Region Rect) : Except Fault Bool :=
  .ok !(decide (r.childrenSize ≠ 0) && !isSorted (r.children gh.regionData))

def parentsSorted (_ : Nat) (r : Region Rect) : Except Fault Bool :=
  .ok !(decide (r.parentsSize ≠ 0) && !isSorted (r.parents gh.regionData))

def parentsNoChildren (_ : Nat) (r : Region Rect) : Except Fault Bool :=
  .ok !haveCommonValueOrdered (r.parents gh.regionData) (r.children gh.regionData)

def checkChildren (check : Nat → Nat → Region Rect → Region Rect → Bool) (i : Nat)
    (r : Region Rect) : Except Fault Bool :=
  (r.children gh.regionData).allM fun x => do
    let cr ← MMVector.at gh.regions x
    return check i x r cr

def hasParentPointer (i _ : Nat) (_ cr : Region Rect) : Bool :=
  !(decide (cr.parentsSize ≠ 0) && !binarySearch (cr.parents gh.regionData) i)

def noBackPointer (i _ : Nat) (_ cr : Region Rect) : Bool :=
  !(decide (cr.childrenSize ≠ 0) && binarySearch (cr.children gh.regionData) i)

def spansChild (_ _ : Nat) (r cr : Region Rect) : Bool :=
  ops.contains r.boundary cr.boundary ||
    subsetOf false (cr.cells gh.regionData) (r.cells gh.regionData)

def idOrder (i : Nat) (r : Region Rect) : Except Fault Bool :=
  (r.children gh.regionData).allM fun x => do
    if i ≤ x then
      let _ ← MMVector.at gh.regions x
      return false
    else return true

def isParentOfCells (i : Nat) (r : Region Rect) : Except Fault Bool :=
  (r.cells gh.regionData).allM fun x => do
    let c ← MMVector.at gh.cells x
    return binarySearch c.parents i

def isCellOfParents (i : Nat) (c : Cell Rect) : Except Fault Bool :=
  c.parents.allM fun p => do
    let r ← MMVector.at gh.regions p
    return binarySearch (r.cells gh.regionData) i

def checkRegions (check : Nat → Region Rect → Except Fault Bool) : Except Fault Bool :=
  (List.range gh.regions.length).allM fun i => do
    let r ← MMVector.at gh.regions i
    check i r

def checkCells (check : Nat → Cell Rect → Except Fault Bool) : Except Fault Bool :=
  (List.range gh.cells.length).allM fun i => do
    let c ← MMVector.at gh.cells i
    check i c

def isolatedInRoot : Except Fault Bool := do
  let isolated ← (List.range gh.regions.length).filterM fun i => do
    let r ← MMVector.at gh.regions i
    return decide (r.parentsSize = 0) && decide (r.childrenSize = 0)
  return (GridRegionTree.setDifference isolated (gh.rootRegion.children gh.regionData)).isEmpty

def checkConsistency : Except Fault Bool :=
  [gh.checkRegions gh.neighborsMatched,
    gh.checkRegions (gh.containsCells ops),
    gh.checkRegions gh.childrenSorted,
    gh.checkRegions gh.parentsSorted,
    gh.checkRegions gh.parentsNoChildren,
    gh.isolatedInRoot,
    gh.checkRegions (gh.checkChildren gh.hasParentPointer),
    gh.checkRegions (gh.checkChildren gh.noBackPointer),
    gh.checkRegions (gh.checkChildren (gh.spansChild ops)),
    gh.checkRegions gh.idOrder,
    gh.checkCells fun _ c => .ok (isSorted c.items),
    gh.checkCells fun _ c => .ok (isSorted c.parents),
    gh.checkRegions gh.isParentOfCells,
    gh.checkCells gh.isCellOfParents].allM id

def cellParentsOf (id : Nat) : List Nat :=
  match gh.cells[id]? with
  | some c => c.parents
  | none => []

structure Consistent : Prop where
  children_lt : ∀ i, ∀ x ∈ gh.childrenOf i, x < i
  neighbors_symm : ∀ i, ∀ n ∈ gh.neighborsOf i, i ∈ gh.neighborsOf n
  parents_sorted : ∀ c, (gh.cellParentsOf c).Pairwise (· ≤ ·)
  mem_cellsOf_iff : ∀ i c, c ∈ gh.cellsOf i ↔ i ∈ gh.cellParentsOf c

variable {gh} {ops}

theorem cellParentsOf_of_getElem {id : Nat} {c : Cell Rect} (h : gh.cells[id]? = some c) :
    gh.cellParentsOf id = c.parents := by
  rw [cellParentsOf, h]

theorem lt_of_mem_cellParentsOf {id p : Nat} (h : p ∈ gh.cellParentsOf id) :
    id < gh.cells.length := by
  rw [cellParentsOf] at h
  cases hc : gh.cells[id]? with
  | none =>
    rw [hc] at h
    exact absurd h List.not_mem_nil
  | some c => exact (List.getElem?_eq_some_iff.mp hc).choose

theorem exists_region_of_mem_cellsOf {i c : Nat} (h : c ∈ gh.cellsOf i) :
    ∃ r, gh.regions[i]? = some r ∧ c ∈ r.cells gh.regionData := by
  cases hr : gh.regions[i]? with
  | none =>
    rw [cellsOf, hr] at h
    exact absurd h List.not_mem_nil
  | some r => exact ⟨r, rfl, cellsOf_of_getElem hr ▸ h⟩

theorem exists_region_of_mem_childrenOf {i x : Nat} (h : x ∈ gh.childrenOf i) :
    ∃ r, gh.regions[i]? = some r ∧ x ∈ r.children gh.regionData := by
  cases hr : gh.regions[i]? with
  | none =>
    rw [childrenOf, hr] at h
    exact absurd h List.not_mem_nil
  | some r => exact ⟨r, rfl, childrenOf_of_getElem hr ▸ h⟩

theorem exists_region_of_mem_neighborsOf {i n : Nat} (h : n ∈ gh.neighborsOf i) :
    ∃ r, gh.regions[i]? = some r ∧ n ∈ r.neighbors gh.regionData := by
  cases hr : gh.regions[i]? with
  | none =>
    rw [neighborsOf, hr] at h
    exact absurd h List.not_mem_nil
  | some r => exact ⟨r, rfl, neighborsOf_of_getElem hr ▸ h⟩

theorem at_eq_ok_iff {α : Type} {v : List α} {pos : Nat} {x : α} :
    MMVector.at v pos = .ok x ↔ v[pos]? = some x := by
  rw [MMVector.at]
  cases v[pos]? with
  | none =>
    constructor
    · intro h
      cases h
    · intro h
      cases h
  | some y => rw [Except.ok.injEq, Option.some.injEq]

theorem checkRegions_spec {check : Nat → Region Rect → Except Fault Bool}
    (h : gh.checkRegions check = .ok true) {i : Nat} {r : Region Rect}
    (hr : gh.regions[i]? = some r) : check i r = .ok true := by
  have hi : i < gh.regions.length := (List.getElem?_eq_some_iff.mp hr).choose
  have hcheck := allM_eq_ok_true_iff.mp h i (List.mem_range.mpr hi)
  rwa [at_eq_ok_iff.mpr hr, ok_bind] at hcheck

theorem checkCells_spec {check : Nat → Cell Rect → Except Fault Bool}
    (h : gh.checkCells check = .ok true) {i : Nat} {c : Cell Rect}
    (hc : gh.cells[i]? = some c) : check i c = .ok true := by
  have hi : i < gh.cells.length := (List.getElem?_eq_some_iff.mp hc).choose
  have hcheck := allM_eq_ok_true_iff.mp h i (List.mem_range.mpr hi)
  rwa [at_eq_ok_iff.mpr hc, ok_bind] at hcheck

theorem exists_of_at_bind {α : Type} {v : List α} {pos : Nat} {f : α → Bool}
    (h : (MMVector.at v pos >>= fun x => (.ok (f x) : Except Fault Bool)) = .ok true) :
    ∃ x, v[pos]? = some x ∧ f x = true := by
  obtain ⟨x, hx, hf⟩ := bind_eq_ok h
  exact ⟨x, at_eq_ok_iff.mp hx, Except.ok.inj hf⟩

theorem consistent_of_checkConsistency (h : gh.checkConsistency ops = .ok true) :
    gh.Consistent := by
  have hall := allM_eq_ok_true_iff.mp h
  simp only [List.forall_mem_cons, id] at hall
  obtain ⟨hneighbors, -, -, -, -, -, -, -, -, horder, -, hsorted, hregions, hcells, -⟩ := hall
  refine ⟨?_, ?_, ?_, fun i c => ⟨?_, ?_⟩⟩
  · intro i x hx
    obtain ⟨r, hr, hx⟩ := exists_region_of_mem_childrenOf hx
    have hcheck := allM_eq_ok_true_iff.mp (checkRegions_spec horder hr) x hx
    by_contra hle
    rw [if_pos (Nat.not_lt.mp hle)] at hcheck
    obtain ⟨_, -, hfalse⟩ := bind_eq_ok hcheck
    cases hfalse
  · intro i n hn
    obtain ⟨r, hr, hn⟩ := exists_region_of_mem_neighborsOf hn
    obtain ⟨rn, hrn, hmem⟩ :=
      exists_of_at_bind (allM_eq_ok_true_iff.mp (checkRegions_spec hneighbors hr) n hn)
    rw [neighborsOf_of_getElem hrn]
    exact of_decide_eq_true hmem
  · intro c
    cases hc : gh.cells[c]? with
    | none =>
      rw [cellParentsOf, hc]
      exact List.Pairwise.nil
    | some cell =>
      rw [cellParentsOf_of_getElem hc]
      exact pairwise_of_isSorted (Except.ok.inj (checkCells_spec hsorted hc))
  · intro hmem
    obtain ⟨r, hr, hmem⟩ := exists_region_of_mem_cellsOf hmem
    obtain ⟨cell, hcell, hfound⟩ :=
      exists_of_at_bind (allM_eq_ok_true_iff.mp (checkRegions_spec hregions hr) c hmem)
    rw [cellParentsOf_of_getElem hcell]
    exact mem_of_binarySearch hfound
  · intro hmem
    have hlt := lt_of_mem_cellParentsOf hmem
    have hc := List.getElem?_eq_getElem hlt
    rw [cellParentsOf_of_getElem hc] at hmem
    obtain ⟨r, hr, hfound⟩ :=
      exists_of_at_bind (allM_eq_ok_true_iff.mp (checkCells_spec hcells hc) i hmem)
    rw [cellsOf_of_getElem hr]
    exact mem_of_binarySearch hfound

def unitOps : GeoRectOps Unit where
  new := ()
  enlarge _ _ := ()
  contains _ _ := true

end SpatialGeoHierarchy

end Sserialize
