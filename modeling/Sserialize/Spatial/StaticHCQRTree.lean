import Sserialize.Spatial.HCQRSpatialGrid
import Sserialize.Storage.FixedWidth

/-!
# The tree of `Static::impl::HCQRSpatialGrid`

The nodes of a hierarchical result in pre-order, one record each. A record holds the position of its
pixel among the children of the parent pixel and the distance to the next node, which is the right
sibling or, for a last child, the parent. `Tree` is the data behind its header; assertions are not
modelled.
-/

namespace Sserialize

namespace SpatialGrid

/-- The loop of `childPosition(parent, child)`, `rest` children before its end. -/
def childPositionLoop (sg : SpatialGrid) (parent child : Nat) : Nat → Nat → Except Fault Nat
  | 0, _ => .error .domainError
  | rest + 1, i => do
    let pixel ← sg.index parent i
    if pixel = child then return i else childPositionLoop sg parent child rest (i + 1)

def childPosition (sg : SpatialGrid) (parent child : Nat) : Except Fault Nat :=
  childPositionLoop sg parent child (sg.childrenCount parent) 0

end SpatialGrid

namespace StaticHCQRSpatialGrid

abbrev Source := HCQRSpatialGrid.TreeNode

def IS_INTERNAL : Nat := 0x1

def IS_PARTIAL_MATCH : Nat := 0x2

def IS_FULL_MATCH : Nat := 0x4

def IS_FETCHED : Nat := 0x8

def HAS_PADDING : Nat := 0x10

def NEXT_NODE_IS_PARENT : Nat := 0x20

def IS_ROOT_NODE : Nat := 0x40

def HAS_INDEX : Nat := IS_PARTIAL_MATCH ||| IS_FETCHED

def IS_LEAF : Nat := IS_PARTIAL_MATCH ||| IS_FULL_MATCH ||| IS_FETCHED

def COMPATIBLE_FLAGS : Nat := IS_INTERNAL ||| IS_PARTIAL_MATCH ||| IS_FULL_MATCH ||| IS_FETCHED

def npos : Nat := 2 ^ 32 - 1

structure TreeNode where
  pixelId : Nat
  itemIndexId : Nat := npos
  nextNodeOffset : Nat := 2 ^ 32 - 1
  flags : Nat
  padding : Nat := 0
  deriving Repr, DecidableEq

structure NodePosition where
  parent : Nat
  dataOffset : Nat
  deriving Repr, DecidableEq

structure NodeInfo where
  node : TreeNode
  position : NodePosition
  deriving Repr, DecidableEq

namespace TreeNode

def isInternal (n : TreeNode) : Bool := n.flags &&& IS_INTERNAL ≠ 0

def isLeaf (n : TreeNode) : Bool := n.flags &&& IS_LEAF ≠ 0

def isRoot (n : TreeNode) : Bool := n.flags &&& IS_ROOT_NODE ≠ 0

def hasIndex (n : TreeNode) : Bool := n.flags &&& HAS_INDEX ≠ 0

def hasParent (n : TreeNode) : Bool := n.flags &&& NEXT_NODE_IS_PARENT ≠ 0

def hasSibling (n : TreeNode) : Bool := !n.hasParent && !n.isRoot

/-! ## Reading a record -/

def readPixelId (sg : SpatialGrid) (data : Bytes) (parent flags : Nat) :
    Except Fault (Nat × Nat) :=
  if flags &&& IS_ROOT_NODE ≠ 0 then .ok (sg.rootPixelId, 5)
  else do
    let (childPos, len) ← getVlPackedUint32At data 5
    let pixelId ← sg.index parent childPos
    return (pixelId, 5 + len)

def readItemIndexId (data : Bytes) (flags p : Nat) : Except Fault (Nat × Nat) :=
  if flags &&& HAS_INDEX ≠ 0 then do
    let (itemIndexId, len) ← getVlPackedUint32At data p
    return (itemIndexId, p + len)
  else .ok (npos, p)

def readPadding (data : Bytes) (flags p : Nat) : Except Fault Nat :=
  if flags &&& HAS_PADDING ≠ 0 then getUint 1 data p else .ok 0

def read (sg : SpatialGrid) (data : Bytes) (parent : Nat) : Except Fault TreeNode := do
  let flags ← getUint 1 data 0
  let nextNodeOffset ← getUint 4 data 1
  let (pixelId, p) ← readPixelId sg data parent flags
  let (itemIndexId, p) ← readItemIndexId data flags p
  let padding ← readPadding data flags p
  return ⟨pixelId, itemIndexId, nextNodeOffset, flags, padding⟩

/-! ## Writing a record -/

def childNumber (sg : SpatialGrid) (n : TreeNode) : Except Fault Nat := do
  let parent ← sg.parent n.pixelId
  sg.childPosition parent n.pixelId

def childNumberSize (sg : SpatialGrid) (n : TreeNode) : Except Fault Nat :=
  if n.isRoot then .ok 0
  else do
    let childPos ← n.childNumber sg
    return psizeVu32 childPos

def minSizeInBytes (sg : SpatialGrid) (n : TreeNode) : Except Fault Nat := do
  let ds ← n.childNumberSize sg
  return 1 + 4 + ds + if n.hasIndex then psizeVu32 n.itemIndexId else 0

def getSizeInBytes (sg : SpatialGrid) (n : TreeNode) : Except Fault Nat := do
  let ds ← n.minSizeInBytes sg
  return if n.flags &&& HAS_PADDING ≠ 0 then ds + 1 + n.padding else ds

def childNumberBytes (sg : SpatialGrid) (n : TreeNode) : Except Fault Bytes :=
  if n.isRoot then .ok []
  else do
    let childPos ← n.childNumber sg
    return pVu32 childPos

/-- `update(dest, node, targetSize, sg)`: the bytes at `dest`, which grows when it is too short. The
padding bytes are not written, only their number. -/
def update (sg : SpatialGrid) (dest : Bytes) (node : TreeNode) (targetSize : Nat) :
    Except Fault Bytes := do
  let minDataSize ← node.minSizeInBytes sg
  if minDataSize > targetSize then .error .typeOverflow
  else
    let flags := node.flags &&& 0xEF
    let flags := if minDataSize < targetSize then flags ||| HAS_PADDING else flags
    let childNumber ← node.childNumberBytes sg
    let index := if flags &&& HAS_INDEX ≠ 0 then pVu32 node.itemIndexId else []
    let padding :=
      if flags &&& HAS_PADDING ≠ 0 then leBytes 1 (targetSize - minDataSize - 1) else []
    let written :=
      leBytes 1 flags ++ leBytes 4 node.nextNodeOffset ++ childNumber ++ index ++ padding
    return written ++ dest.drop written.length

end TreeNode

/-- `Tree`: the size in the header and the node data up to the put pointer. -/
structure Tree where
  dataSize : Nat
  nodeData : Bytes
  deriving Repr, DecidableEq

namespace Tree

def getSizeInBytes (t : Tree) : Nat := t.dataSize + 4

def hasNodes (t : Tree) : Bool := t.dataSize ≠ 0

def data (t : Tree) : Bytes := leBytes 4 t.dataSize ++ t.nodeData

/-! ## Navigation -/

variable (sg : SpatialGrid)

def rootNodePosition : NodePosition := ⟨0, 0⟩

def node (t : Tree) (np : NodePosition) : Except Fault TreeNode :=
  if np.dataOffset + 5 > t.nodeData.length then .error .outOfBounds
  else TreeNode.read sg (t.nodeData.drop np.dataOffset) np.parent

def nodeInfo (t : Tree) (np : NodePosition) : Except Fault NodeInfo := do
  let n ← t.node sg np
  return ⟨n, np⟩

/-- `nextNode(ni)`. An offset that wraps around is out of bounds. -/
def nextNode (t : Tree) (ni : NodeInfo) : Except Fault NodeInfo :=
  if ni.position.dataOffset = 0 then .error .outOfBounds
  else if ni.node.hasParent then do
    let grandParentPId ← sg.parent ni.position.parent
    if ni.node.nextNodeOffset ≤ ni.position.dataOffset then
      t.nodeInfo sg ⟨grandParentPId, ni.position.dataOffset - ni.node.nextNodeOffset⟩
    else .error .outOfBounds
  else t.nodeInfo sg ⟨ni.position.parent, ni.position.dataOffset + ni.node.nextNodeOffset⟩

/-- The loop of `parent(ni)`. It only ends when each step moves forward, so that the length of the
data is enough. -/
def parentLoop (t : Tree) : Nat → NodeInfo → Except Fault NodeInfo
  | 0, _ => .error .undefinedBehaviour
  | fuel + 1, nni =>
    if nni.node.hasParent then t.nextNode sg nni
    else do
      let nni ← t.nextNode sg nni
      parentLoop t fuel nni

def parent (t : Tree) (ni : NodeInfo) : Except Fault NodeInfo :=
  if ni.position.dataOffset = 0 then .error .outOfBounds
  else if ni.node.hasParent then t.nextNode sg ni
  else do
    let nni ← t.nextNode sg ni
    t.parentLoop sg t.nodeData.length nni

def firstChild (t : Tree) (ni : NodeInfo) : Except Fault NodeInfo :=
  if ni.node.isInternal then do
    let size ← ni.node.getSizeInBytes sg
    t.nodeInfo sg ⟨ni.node.pixelId, ni.position.dataOffset + size⟩
  else .error .outOfBounds

def childrenLoop (t : Tree) : Nat → NodeInfo → Except Fault (List NodeInfo)
  | 0, _ => .error .undefinedBehaviour
  | fuel + 1, ni =>
    if ni.node.hasSibling then do
      let next ← t.nextNode sg ni
      let infos ← childrenLoop t fuel next
      return ni :: infos
    else .ok [ni]

def children (t : Tree) (ni : NodeInfo) : Except Fault (List NodeInfo) := do
  let first ← t.firstChild sg ni
  t.childrenLoop sg t.nodeData.length first

/-! ## Modification -/

def push (t : Tree) (node : TreeNode) : Except Fault (Tree × NodePosition) := do
  let nds ← node.minSizeInBytes sg
  let ndp := t.nodeData.length
  let written ← TreeNode.update sg [] node nds
  let nodeData := UByteArrayAdapter.resize (t.nodeData ++ written) (ndp + nds)
  let t := ⟨u32 (ndp + nds), nodeData⟩
  if node.isRoot then return (t, ⟨0, ndp⟩)
  else do
    let parent ← sg.parent node.pixelId
    return (t, ⟨parent, ndp⟩)

def update (t : Tree) (pos : NodePosition) (node : TreeNode) : Except Fault Tree := do
  let nd := t.nodeData.drop pos.dataOffset
  let oldNode ← TreeNode.read sg nd pos.parent
  let size ← oldNode.getSizeInBytes sg
  let nd ← TreeNode.update sg nd node size
  return { t with nodeData := t.nodeData.take pos.dataOffset ++ nd }

def updateNextNode (t : Tree) (target nextNodePosition : NodePosition) : Except Fault Tree := do
  let tn ← t.node sg target
  let tn :=
    if nextNodePosition.dataOffset < target.dataOffset then
      { tn with
        flags := tn.flags ||| NEXT_NODE_IS_PARENT
        nextNodeOffset := u32 (target.dataOffset - nextNodePosition.dataOffset) }
    else { tn with nextNodeOffset := u32 (nextNodePosition.dataOffset - target.dataOffset) }
  t.update sg target tn

end Tree

/-! ## `Tree::create` -/

namespace Recurser

def convert (node : Source) : TreeNode :=
  if node.flags &&& HAS_INDEX ≠ 0 then
    { pixelId := node.pixelId, flags := node.flags, itemIndexId := node.itemIndexId }
  else { pixelId := node.pixelId, flags := node.flags }

mutual

def recurse (sg : SpatialGrid) (t : Tree) : Source → Except Fault (Tree × NodePosition)
  | .node p f i cs => do
    let (t, np) ← t.push sg (convert (.node p f i cs))
    if cs.isEmpty then return (t, np)
    else do
      let (t, last) ← processChildren sg t cs
      let t ← t.updateNextNode sg last np
      return (t, np)

def processChildren (sg : SpatialGrid) (t : Tree) :
    List Source → Except Fault (Tree × NodePosition)
  | [] => .error .outOfRange
  | c :: cs => do
    let (t, prev) ← recurse sg t c
    processSiblings sg t prev cs

def processSiblings (sg : SpatialGrid) (t : Tree) (prev : NodePosition) :
    List Source → Except Fault (Tree × NodePosition)
  | [] => .ok (t, prev)
  | c :: cs => do
    let (t, newPrev) ← recurse sg t c
    let t ← t.updateNextNode sg prev newPrev
    processSiblings sg t newPrev cs

end

def run (sg : SpatialGrid) (t : Tree) (root : Source) : Except Fault Tree := do
  let rootNode := convert root
  let rootNode := { rootNode with flags := rootNode.flags ||| IS_ROOT_NODE }
  let (t, np) ← t.push sg rootNode
  if root.isLeaf then return t
  else do
    let (t, last) ← processChildren sg t root.children
    t.updateNextNode sg last np

end Recurser

def Tree.create (sg : SpatialGrid) (root : Option Source) : Except Fault Tree :=
  match root with
  | none => .ok ⟨0, []⟩
  | some root => Recurser.run sg ⟨0, []⟩ root

end StaticHCQRSpatialGrid

end Sserialize
