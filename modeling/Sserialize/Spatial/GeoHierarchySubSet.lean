import Sserialize.Library.OrderedMap
import Sserialize.Spatial.GeoHierarchy

namespace Sserialize

def CellSpace.idxSize (sp : CellSpace) (c : Cell) : Except Fault Nat :=
  if c.fetched then do
    let i ← c.idx
    return i.size
  else if c.fullMatch then .ok (sp.ci.cellItemsCount c.cellId)
  else do
    let id ← c.idxPtr
    return (sp.idxStore.at id).size

namespace SubSet

structure Node where
  ghId : Nat
  children : List Nat
  maxItemsSize : Nat
  cellPositions : List Nat
  deriving Repr, DecidableEq

namespace Node

def create (ghId itemSize : Nat) : Node := ⟨ghId, [], itemSize, []⟩

def addCell (pos itemsInCell : Nat) (n : Node) : Node :=
  { n with
    maxItemsSize := u32 (n.maxItemsSize + itemsInCell)
    cellPositions := n.cellPositions ++ [pos] }

def pushBack (child : Nat) (n : Node) : Node := { n with children := n.children ++ [child] }

end Node

structure Container (T : Type) where
  find : T → Nat → Except Fault (Option Nat)
  assign : T → Nat → Nat → Except Fault T

def array : Container (List (Option Nat)) where
  find nodes id :=
    match nodes[id]? with
    | some slot => .ok slot
    | none => .error .undefinedBehaviour
  assign nodes id n :=
    if id < nodes.length then .ok (nodes.set id (some n)) else .error .undefinedBehaviour

/-- `std::unordered_map`. -/
def hashMap : Container (List (Nat × Nat)) where
  find nodes id := .ok (OrderedMap.lookup id nodes)
  assign nodes id n := .ok (OrderedMap.assign id n nodes)

structure State (T : Type) where
  heap : List Node
  nodes : T

variable {T : Type}

def State.nodeOf (C : Container T) (st : State T) (id : Nat) : Except Fault (Nat × State T) := do
  match ← C.find st.nodes id with
  | some n => return (n, st)
  | none =>
    let nodes ← C.assign st.nodes id st.heap.length
    return (st.heap.length, ⟨st.heap ++ [Node.create id 0], nodes⟩)

def State.modify (st : State T) (n : Nat) (f : Node → Node) : State T :=
  { st with heap := st.heap.modify n f }

def rootNode : Nat := 0

def State.start (nodes : T) : State T := ⟨[Node.create GeoHierarchy.npos 0], nodes⟩

end SubSet

namespace GeoHierarchy

open SubSet

variable {T : Type} (gh : GeoHierarchy) (sp : CellSpace) (C : Container T)

def itemsInCell (c : Cell) : Except Fault Nat :=
  if c.fullMatch then gh.cellItemsCount c.cellId else sp.idxSize c

def visitParent (pos items : Nat) (st : State T) (cPIt : Nat) : Except Fault (State T) := do
  let cP ← gh.cellPtr cPIt
  let (n, st) ← st.nodeOf C cP
  return st.modify n (Node.addCell pos items)

def visitCell (st : State T) (c : Cell × Nat) : Except Fault (State T) := do
  let items ← gh.itemsInCell sp c.1
  let st := st.modify rootNode (Node.addCell c.2 items)
  let cPBegin ← gh.cellParentsBegin c.1.cellId
  let cPEnd ← gh.cellParentsEnd c.1.cellId
  (loopPositions cPBegin cPEnd).foldlM (gh.visitParent C c.2 items) st

/-- The part of the loop over the nodes that links a node to the parents of its region. `parentNode`
finds the node of a parent. -/
def linkNode (parentNode : State T → Nat → Except Fault (Nat × State T)) (regionId n : Nat)
    (st : State T) : Except Fault (State T) := do
  let rPBegin ← gh.regionParentsBegin regionId
  let rPEnd ← gh.regionParentsEnd regionId
  if rPBegin ≠ rPEnd then
    (loopPositions rPBegin rPEnd).foldlM (fun st rPIt => do
      let rp ← gh.regionPtr rPIt
      let (p, st) ← parentNode st rp
      return st.modify p (Node.pushBack n)) st
  else return st.modify rootNode (Node.pushBack n)

def linkSlot (st : State (List (Option Nat))) (regionId : Nat) :
    Except Fault (State (List (Option Nat))) := do
  match ← array.find st.nodes regionId with
  | some n => gh.linkNode (State.nodeOf array) regionId n st
  | none => return st

def createSubSetArray (cqr : CellQueryResult) (size : Nat) :
    Except Fault (State (List (Option Nat))) := do
  let st ← cqr.cells.zipIdx.foldlM (gh.visitCell cqr.space array)
    (State.start (List.replicate size none))
  (List.range size).foldlM gh.linkSlot st

/-- `nodes[rp]->` on a map, which is a null pointer for a region without a node. -/
def existingNode (st : State (List (Nat × Nat))) (rp : Nat) :
    Except Fault (Nat × State (List (Nat × Nat))) := do
  match ← hashMap.find st.nodes rp with
  | some n => return (n, st)
  | none => throw .undefinedBehaviour

/-- `createSubSet` with a hash map. `order` is the order in which the map is iterated. -/
def createSubSetMap (order : List (Nat × Nat) → List (Nat × Nat)) (cqr : CellQueryResult) :
    Except Fault (State (List (Nat × Nat))) := do
  let st ← cqr.cells.zipIdx.foldlM (gh.visitCell cqr.space hashMap) (State.start [])
  (order st.nodes).foldlM (fun st it => gh.linkNode existingNode it.1 it.2 st) st

def subSet (order : List (Nat × Nat) → List (Nat × Nat)) (cqr : CellQueryResult) :
    Except Fault (List Node) := do
  if cqr.cells.length * 2 > gh.cellSize then
    let st ← gh.createSubSetArray cqr (gh.regionSize + 1)
    return st.heap
  else
    let st ← gh.createSubSetMap order cqr
    return st.heap

end GeoHierarchy

end Sserialize
