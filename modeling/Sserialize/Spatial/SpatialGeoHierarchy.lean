import Sserialize.ItemIndex.ItemIndexFactory
import Sserialize.Library.LongestWalk
import Sserialize.Spatial.GeoHierarchy

/-!
# `spatial::GeoHierarchy`

The hierarchy in memory, from which the static one is written. The ids of a region stand one behind
the other in the data of all regions, in the order children, parents, neighbors and cells. The
rectangles are compared with floating point numbers, so that they are a parameter.
-/

namespace Sserialize

/-- `operator[]`, which checks nothing. -/
def subscript {α : Type} (v : List α) (pos : Nat) : Except Fault α :=
  match v[pos]? with
  | some x => .ok x
  | none => .error .undefinedBehaviour

def subscriptSet {α : Type} (v : List α) (pos : Nat) (x : α) : Except Fault (List α) :=
  if pos < v.length then .ok (v.set pos x) else .error .undefinedBehaviour

theorem subscript_of_lt {α : Type} {v : List α} {pos : Nat} (h : pos < v.length) :
    subscript v pos = .ok v[pos] := by
  rw [subscript, List.getElem?_eq_getElem h]

theorem subscriptSet_of_lt {α : Type} {v : List α} {pos : Nat} (h : pos < v.length) (x : α) :
    subscriptSet v pos x = .ok (v.set pos x) := if_pos h

theorem MMVector.at_of_lt {α : Type} {v : List α} {pos : Nat} (h : pos < v.length) :
    MMVector.at v pos = .ok v[pos] := by
  rw [MMVector.at, List.getElem?_eq_getElem h]

structure GeoRectOps (Rect : Type) where
  new : Rect
  enlarge : Rect → Rect → Rect
  contains : Rect → Rect → Bool

namespace SpatialGeoHierarchy

structure Cell (Rect : Type) where
  parentsData : List Nat
  parentsSize : Nat
  items : List Nat
  boundary : Rect

structure Region (Rect : Type) where
  off : Nat
  childrenSize : Nat
  parentsSize : Nat
  neighborsSize : Nat
  cellsSize : Nat
  ghId : Nat
  storeId : Nat
  boundary : Rect

end SpatialGeoHierarchy

/-- `spatial::GeoHierarchy`. The root region is not one of the regions. -/
structure SpatialGeoHierarchy (Rect : Type) where
  cells : List (SpatialGeoHierarchy.Cell Rect)
  regionData : List Nat
  regions : List (SpatialGeoHierarchy.Region Rect)
  rootRegion : SpatialGeoHierarchy.Region Rect

namespace SpatialGeoHierarchy

variable {Rect : Type}

namespace Cell

def parents (c : Cell Rect) : List Nat := c.parentsData.take c.parentsSize

end Cell

namespace Region

variable (r : Region Rect)

def childrenEnd : Nat := r.off + r.childrenSize

def parentsEnd : Nat := r.childrenEnd + r.parentsSize

def neighborsEnd : Nat := r.parentsEnd + r.neighborsSize

def cellsEnd : Nat := r.neighborsEnd + r.cellsSize

def children (data : List Nat) : List Nat := slice data r.off r.childrenEnd

def parents (data : List Nat) : List Nat := slice data r.childrenEnd r.parentsEnd

def neighbors (data : List Nat) : List Nat := slice data r.parentsEnd r.neighborsEnd

def cells (data : List Nat) : List Nat := slice data r.neighborsEnd r.cellsEnd

end Region

variable (gh : SpatialGeoHierarchy Rect)

/-! ## `createRootRegion` -/

/-- The children of the root region are the regions without a parent. A second call throws a
`std::runtime_error`. -/
def createRootRegion (ops : GeoRectOps Rect) : Except Fault (SpatialGeoHierarchy Rect) :=
  if gh.rootRegion.cellsSize ≠ 0 then .error .configuration
  else
    let children := (gh.regions.filter fun r => r.parentsSize = 0).map Region.ghId
    let boundary := gh.regions.foldl (fun b r => ops.enlarge b r.boundary) ops.new
    .ok { gh with
      regionData := gh.regionData ++ children ++ List.range gh.cells.length
      rootRegion :=
        { off := gh.regionData.length
          childrenSize := children.length
          parentsSize := 0
          neighborsSize := 0
          cellsSize := gh.cells.length
          ghId := gh.regions.length
          storeId := 0
          boundary := boundary } }

/-! ## `getAncestors` and `compactify` -/

/-- `getAncestors`, with the depth of the recursion. -/
def getAncestors : Nat → Nat → Finset Nat → Except Fault (Finset Nat)
  | 0, _, _ => .error .undefinedBehaviour
  | depth + 1, regionId, out => do
    let r ← subscript gh.regions regionId
    (r.parents gh.regionData).foldlM (fun out parent => getAncestors depth parent out)
      (out ∪ (r.parents gh.regionData).toFinset)

def keepParent (depth : Nat) (s : List Nat × Finset Nat) (cellParent : Nat) :
    Except Fault (List Nat × Finset Nat) :=
  if cellParent ∈ s.2 then .ok s
  else do
    let removed ← gh.getAncestors depth cellParent s.2
    return (s.1 ++ [cellParent], removed)

/-- The loop that writes the kept parents: the position of the pointer and the memory. The
increment is one of the id that was written, and the pointer stays where it is. -/
def writeKept : List Nat → Nat → List Nat → Except Fault (Nat × List Nat)
  | [], pIt, data => .ok (pIt, data)
  | x :: kept, pIt, data => do
    let data ← subscriptSet data pIt x
    let data ← subscriptSet data pIt (u32 (x + 1))
    writeKept kept pIt data

def compactifyCell (depth : Nat) (cell : Cell Rect) : Except Fault (Cell Rect) := do
  let (kept, _) ← cell.parents.foldlM (gh.keepParent depth) ([], ∅)
  let (pIt, data) ← writeKept kept 0 cell.parentsData
  return { cell with parentsData := data, parentsSize := pIt }

def compactify (depth : Nat) : Except Fault (SpatialGeoHierarchy Rect) := do
  let cells ← gh.cells.mapM (gh.compactifyCell depth)
  return { gh with cells := cells }

/-! ## `depths` and `getRegionsInLevelOrder` -/

/-- `depths`, with the depth of the recursion. A depth is at most the number of regions, so that it
fits in 32 bits. -/
def depths : Nat → List Nat → Nat → Except Fault (List Nat)
  | 0, _, _ => .error .undefinedBehaviour
  | depth + 1, d, me => do
    let r ← MMVector.at gh.regions me
    (r.children gh.regionData).foldlM (fun d child => do
      let childDepth ← subscript d child
      let myDepth ← subscript d me
      if childDepth ≤ myDepth then
        let d ← subscriptSet d child (myDepth + 1)
        depths depth d child
      else return d) d

def pushLevel (levels : List (List Nat)) (level i : Nat) : Except Fault (List (List Nat)) := do
  let regions ← MMVector.at levels level
  return levels.set level (regions ++ [i])

/-- `getRegionsInLevelOrder`: the depths of the regions and the order. -/
def levelOrder (depth : Nat) : Except Fault (List Nat × List Nat) :=
  if gh.regions = [] then .ok ([], [])
  else do
    let children := gh.rootRegion.children gh.regionData
    let d := List.replicate gh.regions.length 0
    let d ← children.foldlM (fun d child => subscriptSet d child 1) d
    let d ← children.foldlM (gh.depths depth) d
    let levels := List.replicate (d.foldl max 0 + 1) []
    let levels ← (List.range gh.regions.length).foldlM (fun levels i => do
      let level ← subscript d i
      pushLevel levels level i) levels
    return (d, levels.flatten)

def getRegionsInLevelOrder (depth : Nat) : Except Fault (List Nat) := do
  let (_, order) ← gh.levelOrder depth
  return order

/-! ## The graph of the regions -/

def childrenOf (id : Nat) : List Nat :=
  match gh.regions[id]? with
  | some r => r.children gh.regionData
  | none => []

def parentsOf (id : Nat) : List Nat :=
  match gh.regions[id]? with
  | some r => r.parents gh.regionData
  | none => []

def cellsOf (id : Nat) : List Nat :=
  match gh.regions[id]? with
  | some r => r.cells gh.regionData
  | none => []

def neighborsOf (id : Nat) : List Nat :=
  match gh.regions[id]? with
  | some r => r.neighbors gh.regionData
  | none => []

/-- `ancestor` is a parent of the region, or a parent of an ancestor of it. -/
def Ancestor (region ancestor : Nat) : Prop :=
  Relation.TransGen (fun r p => p ∈ gh.parentsOf r) region ancestor

/-- The regions form a directed acyclic graph whose pointers are within the data. -/
structure IsDag : Prop where
  inside : ∀ r ∈ gh.regions, r.cellsEnd ≤ gh.regionData.length
  ghId : ∀ (id : Nat) (r : Region Rect), gh.regions[id]? = some r → r.ghId = id
  mem_children : ∀ p < gh.regions.length, ∀ id,
    id ∈ gh.childrenOf p ↔ id < gh.regions.length ∧ p ∈ gh.parentsOf id
  parents_lt : ∀ id, ∀ p ∈ gh.parentsOf id, p < gh.regions.length
  irrefl : ∀ id, ¬ gh.Ancestor id id

variable {gh}

variable {r : Region Rect} {id : Nat}

theorem parentsOf_of_getElem (h : gh.regions[id]? = some r) :
    gh.parentsOf id = r.parents gh.regionData := by
  rw [parentsOf, h]

theorem childrenOf_of_getElem (h : gh.regions[id]? = some r) :
    gh.childrenOf id = r.children gh.regionData := by
  rw [childrenOf, h]

theorem cellsOf_of_getElem (h : gh.regions[id]? = some r) : gh.cellsOf id = r.cells gh.regionData := by
  rw [cellsOf, h]

theorem neighborsOf_of_getElem (h : gh.regions[id]? = some r) :
    gh.neighborsOf id = r.neighbors gh.regionData := by
  rw [neighborsOf, h]

theorem lt_of_ancestor (h : ∀ id, ∀ p ∈ gh.parentsOf id, id < p) {id p : Nat}
    (hp : gh.Ancestor id p) : id < p := by
  induction hp with
  | single hparent => exact h _ _ hparent
  | tail _ hparent ih => exact ih.trans (h _ _ hparent)

namespace IsDag

theorem parents_acyclic (h : gh.IsDag) :
    LongestWalk.Acyclic gh.parentsOf (Finset.range gh.regions.length) where
  closed _ _ y hy := Finset.mem_range.mpr (h.parents_lt _ y hy)
  irrefl x _ := h.irrefl x

theorem children_lt (h : gh.IsDag) {p id : Nat} (hp : p < gh.regions.length)
    (hid : id ∈ gh.childrenOf p) : id < gh.regions.length :=
  ((h.mem_children p hp id).mp hid).1

theorem mem_parents_of_mem_children (h : gh.IsDag) {p id : Nat} (hp : p < gh.regions.length)
    (hid : id ∈ gh.childrenOf p) : p ∈ gh.parentsOf id :=
  ((h.mem_children p hp id).mp hid).2

theorem transGen_children_iff (h : gh.IsDag) {p id : Nat} (hp : p < gh.regions.length) :
    Relation.TransGen (fun a b => b ∈ gh.childrenOf a) p id ↔
      id < gh.regions.length ∧ gh.Ancestor id p := by
  constructor
  · intro hchain
    induction hchain with
    | single hchild =>
      exact ⟨h.children_lt hp hchild, .single (h.mem_parents_of_mem_children hp hchild)⟩
    | tail _ hchild ih =>
      exact ⟨h.children_lt ih.1 hchild,
        .head (h.mem_parents_of_mem_children ih.1 hchild) ih.2⟩
  · rintro ⟨hid, hancestor⟩
    induction hancestor using Relation.TransGen.head_induction_on with
    | single hparent => exact .single ((h.mem_children p hp _).mpr ⟨hid, hparent⟩)
    | head hparent _ ih =>
      have hlt := h.parents_lt _ _ hparent
      exact (ih hlt).tail ((h.mem_children _ hlt _).mpr ⟨hid, hparent⟩)

theorem children_acyclic (h : gh.IsDag) :
    LongestWalk.Acyclic gh.childrenOf (Finset.range gh.regions.length) where
  closed _ hx _ hy := Finset.mem_range.mpr (h.children_lt (Finset.mem_range.mp hx) hy)
  irrefl x hx hcycle :=
    h.irrefl x ((h.transGen_children_iff (Finset.mem_range.mp hx)).mp hcycle).2

end IsDag

end SpatialGeoHierarchy

end Sserialize
