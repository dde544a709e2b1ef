import Sserialize.Library.Interleaving
import Sserialize.Spatial.GeoGrid

/-!
# `GridRegionTree`

Nested grids over a set of regions. A node says which regions enclose its tile; the other ones that
intersect it are passed on to a finer grid, or become the candidates of a leaf. The tiles of the
root grid are distributed over threads, which build the subtrees into common arrays. What they do
under the lock is one action. A child pointer below the root is stored without the lock: the address
of its array is read first, and may be that of a buffer that was given up when the store follows.
-/

namespace Sserialize

open Interleaving

inductive GeoShapeType where
  | point
  | way
  | polygon
  | multiPolygon
  | unionShape
  deriving Repr, DecidableEq

/-- A region through its geometric predicates; `encloses` is about the polygon of a rectangle. -/
structure GeoRegion where
  type : GeoShapeType
  contains : GeoPoint → Bool
  intersects : GeoRect → Bool
  encloses : GeoRect → Bool

namespace GridRegionTree

/-- The refiner of a tree with given regions: a grid for a tile and the regions that intersect but
do not enclose it, or none. -/
abbrev GridRefiner := GeoRect → List Nat → Option GeoGrid

def NullNodePtr : Nat := 2 ^ 32 - 1

inductive Node where
  | invalid
  | internal (gridPtr valueBegin enclosedCount childrenBegin : Nat)
  | leaf (valueBegin enclosedCount intersectedCount : Nat)
  deriving Repr, DecidableEq

/-- The arrays of the tree, the counter of the tiles, and the buffer of `m_nodePtr`: its capacity,
and how often it was replaced. -/
structure Builder where
  nodes : List Node
  nodeGrids : List GeoGrid
  nodePtr : List Nat
  leafInfo : List Nat
  ti : Nat
  capacity : Nat
  buffer : Nat
  deriving Repr, DecidableEq

/-! ## The actions of a thread -/

inductive Action where
  | fetchTile
  | pushNode
  | setInternal (nodePtr : Nat) (enclosed : List Nat) (newGrid : GeoGrid)
  | setLeaf (nodePtr : Nat) (enclosed sortedRegions : List Nat)
  | setChild (pos val : Nat)
  | loadBuffer
  | storeChild (buffer pos val : Nat)
  | outOfFuel
  deriving Repr, DecidableEq

def internalNode (gridPtr valueBegin enclosedCount childrenBegin : Nat) : Node :=
  .internal (gridPtr % 2 ^ 30) (valueBegin % 2 ^ 30) (enclosedCount % 2 ^ 24)
    (childrenBegin % 2 ^ 40)

def leafNode (valueBegin enclosedCount intersectedCount : Nat) : Node :=
  .leaf (valueBegin % 2 ^ 30) (enclosedCount % 2 ^ 24) (intersectedCount % 2 ^ 24)

/-- `m_nodePtr.resize`, with the capacity that a vector grows to. -/
def resizeNodePtr (grow : Nat → Nat → Nat) (b : Builder) (n : Nat) : Builder :=
  let nodePtr := b.nodePtr ++ List.replicate n NullNodePtr
  if b.nodePtr.length + n > b.capacity then
    { b with
      nodePtr := nodePtr
      capacity := grow b.nodePtr.length n
      buffer := b.buffer + 1 }
  else { b with nodePtr := nodePtr }

/-- The result of an action and the state behind it. `none` is an access that is not defined. -/
def exec (grow : Nat → Nat → Nat) : Action → Builder → Option (Nat × Builder)
  | .fetchTile, b => some (b.ti, { b with ti := u32 (b.ti + 1) })
  | .pushNode, b => some (u32 b.nodes.length, { b with nodes := b.nodes ++ [.invalid] })
  | .setInternal nodePtr enclosed newGrid, b =>
    let childPtr := u32 b.nodePtr.length
    let node := internalNode b.nodeGrids.length b.leafInfo.length enclosed.length childPtr
    some (childPtr, resizeNodePtr grow
      { b with
        nodes := b.nodes.set nodePtr node
        nodeGrids := b.nodeGrids ++ [newGrid]
        leafInfo := b.leafInfo ++ enclosed } newGrid.tileCount)
  | .setLeaf nodePtr enclosed sortedRegions, b =>
    let node := leafNode b.leafInfo.length enclosed.length sortedRegions.length
    some (0, { b with
      nodes := b.nodes.set nodePtr node
      leafInfo := b.leafInfo ++ enclosed ++ sortedRegions })
  | .setChild pos val, b =>
    if pos < b.nodePtr.length then some (0, { b with nodePtr := b.nodePtr.set pos val }) else none
  | .loadBuffer, b => some (b.buffer, b)
  | .storeChild buffer pos val, b =>
    if buffer = b.buffer ∧ pos < b.nodePtr.length then
      some (0, { b with nodePtr := b.nodePtr.set pos val })
    else none
  | .outOfFuel, _ => none

/-! ## `create` -/

def setDifference : List Nat → List Nat → List Nat
  | [], _ => []
  | x :: xs, ys =>
    match ys.dropWhile (· < x) with
    | [] => x :: xs
    | y :: ys => if x < y then x :: setDifference xs (y :: ys) else setDifference xs ys

variable [Rounding] (regions : List GeoRegion) (refiner : GridRefiner)

def regionEncloses (bounds : GeoRect) (r : GeoRegion) : Bool :=
  match r.type with
  | .polygon | .multiPolygon => r.encloses bounds
  | _ => false

def getEnclosing (bounds : GeoRect) (ids : List Nat) : List Nat :=
  ids.filter fun id => regions[id]?.any (regionEncloses bounds)

def intersecting (bounds : GeoRect) (ids : List Nat) : List Nat :=
  ids.filter fun id => regions[id]?.any fun r => r.intersects bounds

def remaining (bounds : GeoRect) (sortedRegions : List Nat) : List Nat :=
  setDifference sortedRegions (getEnclosing regions bounds sortedRegions)

def insertTiles
    (insert : List Nat → GeoRect → (Nat → Prog Action Nat) → Prog Action Nat)
    (newGrid : GeoGrid) (sortedRegions : List Nat) (childPtr : Nat) (next : Prog Action Nat) :
    List Nat → Prog Action Nat
  | [] => next
  | tile :: tiles =>
    let gridBin := newGrid.selectTile tile
    let tmpRect := newGrid.cellBoundary gridBin
    let tmp := intersecting regions tmpRect sortedRegions
    let rest := insertTiles insert newGrid sortedRegions childPtr next tiles
    if tmp.length ≠ 0 then
      insert tmp tmpRect fun tmpRet =>
        .act .loadBuffer fun buffer =>
          .act (.storeChild buffer (u32 (childPtr + gridBin.tile)) tmpRet) fun _ => rest
    else rest

/-- `insert`, with the number of nested grids that it may add, and what follows it. -/
def insert : Nat → List Nat → GeoRect → (Nat → Prog Action Nat) → Prog Action Nat
  | 0, _, _, _ => .act .outOfFuel fun _ => .done
  | depth + 1, sortedRegions, maxBounds, next =>
    .act .pushNode fun nodePtr =>
      let enclosed := getEnclosing regions maxBounds sortedRegions
      let sortedRegions := remaining regions maxBounds sortedRegions
      match refiner maxBounds sortedRegions with
      | some newGrid =>
        .act (.setInternal nodePtr enclosed newGrid) fun childPtr =>
          insertTiles regions (insert depth) newGrid sortedRegions childPtr (next nodePtr)
            (List.range newGrid.tileCount)
      | none => .act (.setLeaf nodePtr enclosed sortedRegions) fun _ => next nodePtr

variable (initial : GeoGrid) (depth : Nat)

def rootBounds (tile : Nat) : GeoRect := initial.cellBoundary (initial.selectTile tile)

def rootRegions (tile : Nat) : List Nat :=
  intersecting regions (rootBounds initial tile) (List.range regions.length)

def worker : Nat → Prog Action Nat
  | 0 => .act .outOfFuel fun _ => .done
  | n + 1 =>
    .act .fetchTile fun tile =>
      if tile ≥ initial.tileCount then .done
      else if (rootRegions regions initial tile).length ≠ 0 then
        insert regions refiner depth (rootRegions regions initial tile) (rootBounds initial tile)
          fun tmpRet =>
            .act (.setChild (initial.selectTile tile).tile tmpRet) fun _ => worker n
      else worker n

def start : Builder :=
  { nodes := [.internal 0 0 0 0]
    nodeGrids := [initial]
    nodePtr := List.replicate initial.tileCount NullNodePtr
    leafInfo := []
    ti := 0
    capacity := initial.tileCount
    buffer := 0 }

/-- The threads of `create`. A thread fetches one tile more than there are. -/
def create (threads : Nat) : Pool Action Nat Builder (Fin threads) :=
  ⟨start initial, fun _ => worker regions refiner initial depth (initial.tileCount + 1)⟩

/-! ## `find` -/

def leafInfoRange (b : Builder) (valueBegin n : Nat) : Except Fault (List Nat) :=
  if valueBegin + n ≤ b.leafInfo.length then .ok ((b.leafInfo.drop valueBegin).take n)
  else .error .undefinedBehaviour

def checked (p : GeoPoint) (ids : List Nat) : List Nat :=
  ids.filter fun id => regions[id]?.any fun r => r.contains p

/-- The loop of `find`, with the number of nodes that it may visit. -/
def findLoop (b : Builder) (p : GeoPoint) : Nat → Nat → Except Fault (List Nat)
  | 0, _ => .error .undefinedBehaviour
  | fuel + 1, nodePtr =>
    if nodePtr = NullNodePtr then .ok []
    else
      match b.nodes[nodePtr]? with
      | none => .error .undefinedBehaviour
      | some .invalid => .ok []
      | some (.internal gridPtr valueBegin enclosedCount childrenBegin) => do
        let definite ← leafInfoRange b valueBegin enclosedCount
        match b.nodeGrids[gridPtr]? with
        | none => .error .undefinedBehaviour
        | some grid =>
          if grid.contains p then
            match b.nodePtr[childrenBegin + (grid.select p).tile]? with
            | none => .error .undefinedBehaviour
            | some child => do
              let ids ← findLoop b p fuel child
              return definite ++ ids
          else return definite
      | some (.leaf valueBegin enclosedCount intersectedCount) => do
        let definite ← leafInfoRange b valueBegin enclosedCount
        let candidates ← leafInfoRange b (valueBegin + enclosedCount) intersectedCount
        return definite ++ checked regions p candidates

/-- `find`: the ids in the order of the output. -/
def find (b : Builder) (p : GeoPoint) (fuel : Nat) : Except Fault (List Nat) :=
  if b.nodes.length = 0 then .ok []
  else
    match b.nodeGrids[0]? with
    | none => .error .undefinedBehaviour
    | some grid => if grid.contains p then findLoop regions b p fuel 0 else .ok []

end GridRegionTree

end Sserialize
