import Sserialize.Spatial.CellQueryResult

/-!
# `Static::spatial::GeoHierarchy`

The tables of the static hierarchy: a row for every region, for the root region and for the end of
the pointers, and a row for every cell and for the end of its pointers. The pointers of a region are
its children, its parents and its neighbors; those of a cell are its direct parents and then the
other ancestors of them.
-/

namespace Sserialize

structure RegionDescription where
  childrenBegin : Nat
  parentsOffset : Nat
  neighborsOffset : Nat
  deriving Repr, DecidableEq

structure CellDescription where
  itemPtr : Nat
  itemCount : Nat
  directParentsOffset : Nat
  parentsBegin : Nat
  deriving Repr, DecidableEq

structure GeoHierarchy where
  regions : List RegionDescription
  regionPtrs : List Nat
  cells : List CellDescription
  cellPtrs : List Nat

def checkedAt {α : Type} (xs : List α) (pos : Nat) : Except Fault α :=
  match xs[pos]? with
  | some x => .ok x
  | none => .error .outOfBounds

theorem checkedAt_of_getElem {α : Type} {xs : List α} {pos : Nat} {x : α}
    (h : xs[pos]? = some x) : checkedAt xs pos = .ok x := by
  rw [checkedAt, h]

namespace GeoHierarchy

def npos : Nat := 0xFFFFFFFF

def cellSize (gh : GeoHierarchy) : Nat :=
  if gh.cells.length > 0 then gh.cells.length - 1 else 0

def regionSize (gh : GeoHierarchy) : Nat :=
  if gh.regions.length > 0 then sub32 gh.regions.length 2 else 0

def cellParentsBegin (gh : GeoHierarchy) (id : Nat) : Except Fault Nat := do
  let row ← checkedAt gh.cells id
  return row.parentsBegin

def cellDirectParentsEnd (gh : GeoHierarchy) (id : Nat) : Except Fault Nat := do
  let row ← checkedAt gh.cells id
  return u32 (row.parentsBegin + row.directParentsOffset)

def cellParentsEnd (gh : GeoHierarchy) (id : Nat) : Except Fault Nat :=
  gh.cellParentsBegin (u32 (id + 1))

def cellPtr (gh : GeoHierarchy) (pos : Nat) : Except Fault Nat := checkedAt gh.cellPtrs pos

def cellItemsCount (gh : GeoHierarchy) (id : Nat) : Except Fault Nat := do
  let row ← checkedAt gh.cells id
  return row.itemCount

def regionChildrenBegin (gh : GeoHierarchy) (id : Nat) : Except Fault Nat := do
  let row ← checkedAt gh.regions id
  return row.childrenBegin

def regionParentsBegin (gh : GeoHierarchy) (id : Nat) : Except Fault Nat := do
  let row ← checkedAt gh.regions id
  return u32 (row.childrenBegin + row.parentsOffset)

def regionParentsEnd (gh : GeoHierarchy) (id : Nat) : Except Fault Nat := do
  let row ← checkedAt gh.regions id
  return u32 (u32 (row.childrenBegin + row.parentsOffset) + row.neighborsOffset)

def regionPtr (gh : GeoHierarchy) (pos : Nat) : Except Fault Nat := checkedAt gh.regionPtrs pos

end GeoHierarchy

/-- The positions of a loop that counts a `uint32_t` up from `b` until it equals `e`. -/
def loopPositions (b e : Nat) : List Nat :=
  (List.range (sub32 e b)).map fun i => u32 (b + i)

theorem loopPositions_eq {b e : Nat} (hbe : b ≤ e) (he : e < 2 ^ 32) :
    loopPositions b e = List.range' b (e - b) := by
  have hrange : List.range' b (e - b) = (List.range (e - b)).map fun i => b + i :=
    List.range'_eq_map_range
  rw [loopPositions, sub32_of_le hbe he, hrange]
  apply List.map_congr_left
  intro i hi
  have hlt := List.mem_range.mp hi
  exact u32_of_lt (by omega)

/-- What the pointers of the positions `b` to `e` are. -/
def slice (ptrs : List Nat) (b e : Nat) : List Nat := (ptrs.drop b).take (e - b)

theorem mapM_checkedAt {ptrs : List Nat} {b e : Nat} (hbe : b ≤ e) (he : e ≤ ptrs.length)
    (hlt : ptrs.length < 2 ^ 32) :
    (loopPositions b e).mapM (checkedAt ptrs) = .ok (slice ptrs b e) := by
  rw [loopPositions_eq hbe (by omega)]
  obtain ⟨n, rfl⟩ : ∃ n, e = b + n := ⟨e - b, by omega⟩
  rw [Nat.add_sub_cancel_left, slice, Nat.add_sub_cancel_left]
  clear hbe
  induction n generalizing b with
  | zero => simp
  | succ n ih =>
    have hb : b < ptrs.length := by omega
    have hread : checkedAt ptrs b = .ok ptrs[b] :=
      checkedAt_of_getElem (List.getElem?_eq_getElem hb)
    have hdrop : ptrs.drop b = ptrs[b] :: ptrs.drop (b + 1) := List.drop_eq_getElem_cons hb
    rw [List.range'_succ, List.mapM_cons, hread, ok_bind, ih (by omega), ok_bind, hdrop,
      List.take_succ_cons]
    rfl

namespace GeoHierarchy

variable (gh : GeoHierarchy)

/-! ## The hierarchy that the tables stand for -/

def regionAt (id : Nat) : RegionDescription := gh.regions.getD id ⟨0, 0, 0⟩

def cellAt (id : Nat) : CellDescription := gh.cells.getD id ⟨0, 0, 0, 0⟩

def children (id : Nat) : List Nat :=
  let row := gh.regionAt id
  slice gh.regionPtrs row.childrenBegin (row.childrenBegin + row.parentsOffset)

def parents (id : Nat) : List Nat :=
  let row := gh.regionAt id
  slice gh.regionPtrs (row.childrenBegin + row.parentsOffset)
    (row.childrenBegin + row.parentsOffset + row.neighborsOffset)

def cellDirectParents (id : Nat) : List Nat :=
  let row := gh.cellAt id
  slice gh.cellPtrs row.parentsBegin (row.parentsBegin + row.directParentsOffset)

def cellParents (id : Nat) : List Nat :=
  slice gh.cellPtrs (gh.cellAt id).parentsBegin (gh.cellAt (id + 1)).parentsBegin

def cellInfo : CellInfo where
  cellSize := gh.cellSize
  cellItemsCount id := u32 (gh.cellAt id).itemCount
  cellItemsPtr id := (gh.cellAt id).itemPtr
  countInRange _ := u32_lt _

def Ancestor (cellId region : Nat) : Prop :=
  ∃ p ∈ gh.cellDirectParents cellId, Relation.ReflTransGen (fun c r => r ∈ gh.parents c) p region

/-- The tables of a hierarchy: the pointers are within their arrays, parent and child pointers match
and have no repetitions, and regions have larger ids than their children. -/
structure Tables : Prop where
  regionRows : 2 ≤ gh.regions.length ∧ gh.regions.length < 2 ^ 32
  cellRows : 1 ≤ gh.cells.length ∧ gh.cells.length < 2 ^ 32
  regionPtrsSize : gh.regionPtrs.length < 2 ^ 32
  cellPtrsSize : gh.cellPtrs.length < 2 ^ 32
  regionPtrsEnd : ∀ row ∈ gh.regions,
    row.childrenBegin + row.parentsOffset + row.neighborsOffset ≤ gh.regionPtrs.length
  cellPtrsEnd : ∀ row ∈ gh.cells,
    row.parentsBegin + row.directParentsOffset ≤ gh.cellPtrs.length
  cellPtrsAscend : ∀ id < gh.cellSize,
    (gh.cellAt id).parentsBegin + (gh.cellAt id).directParentsOffset ≤
      (gh.cellAt (id + 1)).parentsBegin
  itemCounts : ∀ row ∈ gh.cells, row.itemCount < 2 ^ 32
  parentsLarger : ∀ id < gh.regionSize, ∀ p ∈ gh.parents id, id < p ∧ p < gh.regionSize
  parentsNodup : ∀ id < gh.regionSize, (gh.parents id).Nodup
  childrenNodup : ∀ id < gh.regionSize, (gh.children id).Nodup
  mem_children : ∀ p < gh.regionSize, ∀ id,
    id ∈ gh.children p ↔ id < gh.regionSize ∧ p ∈ gh.parents id

/-- And a cell lists all its ancestors. -/
structure WellFormed : Prop extends gh.Tables where
  cellParentsInside : ∀ id < gh.cellSize, ∀ p ∈ gh.cellParents id, p < gh.regionSize
  cellParentsNodup : ∀ id < gh.cellSize, (gh.cellParents id).Nodup
  mem_cellParents : ∀ id < gh.cellSize, ∀ p, p ∈ gh.cellParents id ↔ gh.Ancestor id p

end GeoHierarchy

end Sserialize
