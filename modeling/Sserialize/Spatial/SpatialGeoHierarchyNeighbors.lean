import Mathlib.Data.Finset.Sort
import Sserialize.Spatial.SpatialGeoHierarchyConsistency
import Sserialize.Spatial.SpatialGeoHierarchyLevels

namespace Sserialize

/-!
# `spatial::GeoHierarchy::createNeighborPointers`

The data of the regions is written anew, with the neighbors. The root region is not one of the
regions: it keeps its offset.
-/

/-- The graph of the cells: neighbors of cells are cells, and they are neighbors of each other. -/
structure CellGraph (size : Nat) where
  neighbors : Nat → List Nat
  lt_size : ∀ c < size, ∀ d ∈ neighbors c, d < size
  symm : ∀ c < size, ∀ d ∈ neighbors c, c ∈ neighbors d

namespace SpatialGeoHierarchy

variable {Rect : Type} (gh : SpatialGeoHierarchy Rect) (cellGraph : CellGraph gh.cells.length)

def regionBoundary (regionCells : Finset Nat) : Finset Nat :=
  regionCells.biUnion fun cellId => (cellGraph.neighbors cellId).toFinset \ regionCells

def AdjacentRegion (i j : Nat) : Prop :=
  (∃ c ∈ gh.cellsOf i, ∃ d ∈ cellGraph.neighbors c, d ∈ gh.cellsOf j) ∧
    ∀ c ∈ gh.cellsOf i, c ∉ gh.cellsOf j

instance (i j : Nat) : Decidable (gh.AdjacentRegion cellGraph i j) :=
  inferInstanceAs (Decidable (_ ∧ _))

def block (regionData : List Nat) (r : Region Rect × List Nat) : List Nat :=
  r.1.children regionData ++ r.1.parents regionData ++ r.2 ++ r.1.cells regionData

variable {gh} {cellGraph}

theorem AdjacentRegion.lt_length {i j : Nat} (h : gh.AdjacentRegion cellGraph i j) :
    j < gh.regions.length := by
  obtain ⟨⟨_, -, _, -, hj⟩, -⟩ := h
  obtain ⟨r, hr, -⟩ := exists_region_of_mem_cellsOf hj
  exact (List.getElem?_eq_some_iff.mp hr).choose

def twoCells : CellGraph 2 where
  neighbors c := if c = 0 then [1] else if c = 1 then [0] else []
  lt_size := by decide
  symm := by decide

end SpatialGeoHierarchy

end Sserialize
