import Sserialize.Spatial.CellQueryResult

/-!
# `TreedCQRImp`

A cell query result whose operators do not compute indices. Cells that need it have an operator
tree, and the trees of all cells are stored one after another in a flat array, in prefix order. The
first child of a node is the next one, the second child has an offset from its parent.
-/

namespace Sserialize

namespace TreedCQRImp

inductive OpType where
  | intersect
  | unite
  | diff
  | symDiff
  deriving Repr, DecidableEq

inductive FlatNode where
  | pmLeaf (pmIdxId : Nat)
  | fmLeaf
  | fetchedLeaf (internalIdxId : Nat)
  | toFm
  | opNode (type : OpType) (childB : Nat)
  deriving Repr, DecidableEq

def notree : Nat := 0xFFFFFFFF

/-- Positions in the array of the trees are `uint32_t`. -/
structure CellDesc where
  fullMatch : Bool
  hasFetchedNode : Bool
  cellId : Nat
  pmIdxId : Nat
  treeBegin : Nat
  treeEnd : Nat
  deriving Repr, DecidableEq

namespace CellDesc

def plain (fullMatch : Bool) (cellId pmIdxId : Nat) : CellDesc where
  fullMatch := fullMatch
  hasFetchedNode := false
  cellId := cellId
  pmIdxId := pmIdxId
  treeBegin := notree
  treeEnd := notree

def treeSize (cd : CellDesc) : Nat := sub32 cd.treeEnd cd.treeBegin

def hasTree (cd : CellDesc) : Bool := cd.treeSize ≠ 0

def leaf (cd : CellDesc) : FlatNode :=
  if cd.fullMatch then .fmLeaf else .pmLeaf cd.pmIdxId

end CellDesc

end TreedCQRImp

structure TreedCQRImp where
  space : CellSpace
  desc : List TreedCQRImp.CellDesc
  trees : List TreedCQRImp.FlatNode
  fetchedIdx : List ItemIndex

namespace TreedCQRImp

def empty (space : CellSpace) : TreedCQRImp where
  space := space
  desc := []
  trees := []
  fetchedIdx := []

def slice (trees : List FlatNode) (first last : Nat) : Except Fault (List FlatNode) :=
  if first ≤ last ∧ last ≤ trees.length then .ok ((trees.take last).drop first)
  else .error .undefinedBehaviour

/-- The loop over nodes whose fetched indices are those of `src`, which are appended to the fetched
indices of the destination. -/
def copyIndices (src : List ItemIndex) :
    List ItemIndex → List FlatNode → Except Fault (List FlatNode × List ItemIndex)
  | dest, [] => .ok ([], dest)
  | dest, .fetchedLeaf srcInternalIdxId :: nodes =>
    match src[srcInternalIdxId]? with
    | none => .error .outOfRange
    | some idx => do
      let (nodes, dest') ← copyIndices src (dest ++ [idx]) nodes
      return (.fetchedLeaf dest.length :: nodes, dest')
  | dest, n :: nodes => do
    let (nodes, dest') ← copyIndices src dest nodes
    return (n :: nodes, dest')

def copyTree (src : TreedCQRImp) (cd : CellDesc) (dest : TreedCQRImp) :
    Except Fault TreedCQRImp := do
  let dTreeBegin := u32 dest.trees.length
  let tree ← slice src.trees cd.treeBegin cd.treeEnd
  let trees := dest.trees ++ tree
  if cd.hasFetchedNode then
    let (nodes, fetchedIdx) ← copyIndices src.fetchedIdx dest.fetchedIdx (trees.drop dTreeBegin)
    return { dest with trees := trees.take dTreeBegin ++ nodes, fetchedIdx := fetchedIdx }
  else return { dest with trees := trees }

def copyFetchedIndices (src dest : TreedCQRImp) (destCD : CellDesc) :
    Except Fault TreedCQRImp := do
  if !destCD.hasFetchedNode then return dest
  let tree ← slice dest.trees destCD.treeBegin destCD.treeEnd
  let (nodes, fetchedIdx) ← copyIndices src.fetchedIdx dest.fetchedIdx tree
  return { dest with
    trees := dest.trees.take destCD.treeBegin ++ nodes ++ dest.trees.drop destCD.treeEnd,
    fetchedIdx := fetchedIdx }

def pushCell (cd : CellDesc) (r : TreedCQRImp) : TreedCQRImp :=
  { r with desc := r.desc ++ [cd] }

def pushTree (src : TreedCQRImp) (srcCD cd : CellDesc) (r : TreedCQRImp) :
    Except Fault TreedCQRImp := do
  let r' ← copyTree src srcCD r
  return r'.pushCell
    { cd with treeBegin := u32 r.trees.length, treeEnd := u32 r'.trees.length }

def operand (src : TreedCQRImp) (cd : CellDesc) (r : TreedCQRImp) : Except Fault TreedCQRImp :=
  if cd.hasTree then copyTree src cd r
  else .ok { r with trees := r.trees ++ [cd.leaf] }

/-- A cell with a new tree. The offset of the second child, which is set behind the first one, is
already known in front of it. -/
def pushOp (type : OpType) (my o : TreedCQRImp) (myCD oCD : CellDesc) (hasFetchedNode : Bool)
    (r : TreedCQRImp) : Except Fault TreedCQRImp := do
  let childB := if myCD.hasTree then u32 (1 + myCD.treeSize) else 2
  let r₁ := { r with trees := r.trees ++ [.opNode type childB] }
  let r₂ ← operand my myCD r₁
  let r₃ ← operand o oCD r₂
  return r₃.pushCell
    ⟨false, hasFetchedNode, myCD.cellId, 0, u32 r.trees.length, u32 r₃.trees.length⟩

def copyCell (src : TreedCQRImp) (cd : CellDesc) (r : TreedCQRImp) : Except Fault TreedCQRImp :=
  if cd.hasTree then pushTree src cd cd r else .ok (r.pushCell cd)

/-! ## Cells of both operands -/

def intersectCell (my o : TreedCQRImp) (myCD oCD : CellDesc) (r : TreedCQRImp) :
    Except Fault TreedCQRImp :=
  if !myCD.hasTree && !oCD.hasTree then
    match myCD.fullMatch, oCD.fullMatch with
    | false, false => pushOp .intersect my o myCD oCD false r
    | true, false => .ok (r.pushCell oCD)
    | false, true => .ok (r.pushCell myCD)
    | true, true => .ok (r.pushCell (.plain true myCD.cellId 0))
  else
    let hasFetchedNode := myCD.hasFetchedNode || oCD.hasFetchedNode
    if myCD.fullMatch then
      pushTree o oCD ⟨false, hasFetchedNode, myCD.cellId, 0, notree, notree⟩ r
    else if oCD.fullMatch then
      pushTree my myCD ⟨false, hasFetchedNode, oCD.cellId, 0, notree, notree⟩ r
    else pushOp .intersect my o myCD oCD hasFetchedNode r

def uniteCell (my o : TreedCQRImp) (myCD oCD : CellDesc) (r : TreedCQRImp) :
    Except Fault TreedCQRImp :=
  if myCD.fullMatch || oCD.fullMatch then .ok (r.pushCell (.plain true myCD.cellId 0))
  else pushOp .unite my o myCD oCD (myCD.hasFetchedNode || oCD.hasFetchedNode) r

def diffCell (my o : TreedCQRImp) (myCD oCD : CellDesc) (r : TreedCQRImp) :
    Except Fault TreedCQRImp :=
  if !oCD.fullMatch then pushOp .diff my o myCD oCD (myCD.hasFetchedNode || oCD.hasFetchedNode) r
  else .ok r

def symDiffCell (my o : TreedCQRImp) (myCD oCD : CellDesc) (r : TreedCQRImp) :
    Except Fault TreedCQRImp :=
  if !myCD.fullMatch || !oCD.fullMatch then
    pushOp .symDiff my o myCD oCD (myCD.hasFetchedNode || oCD.hasFetchedNode) r
  else .ok r

/-! ## Operators -/

/-- The loop over the cells of both operands, up to the end of one of them. The cells of one operand
only are kept or skipped. -/
def walk (keepMy keepO : Bool) (my o : TreedCQRImp)
    (cell : CellDesc → CellDesc → TreedCQRImp → Except Fault TreedCQRImp) :
    List CellDesc → List CellDesc → TreedCQRImp →
    Except Fault (TreedCQRImp × List CellDesc × List CellDesc)
  | [], oDesc, r => .ok (r, [], oDesc)
  | myCD :: myDesc, [], r => .ok (r, myCD :: myDesc, [])
  | myCD :: myDesc, oCD :: oDesc, r =>
    if myCD.cellId < oCD.cellId then do
      let r ← if keepMy then copyCell my myCD r else .ok r
      walk keepMy keepO my o cell myDesc (oCD :: oDesc) r
    else if oCD.cellId < myCD.cellId then do
      let r ← if keepO then copyCell o oCD r else .ok r
      walk keepMy keepO my o cell (myCD :: myDesc) oDesc r
    else do
      let r ← cell myCD oCD r
      walk keepMy keepO my o cell myDesc oDesc r
termination_by myDesc oDesc => myDesc.length + oDesc.length

/-- A position of a tree behind its move by `lastTreeBegin - rTreesBegin`, which is an `int64_t`. -/
def movePos (lastTreeBegin rTreesBegin pos : Nat) : Nat :=
  (((pos : Int) - ((lastTreeBegin : Int) - rTreesBegin)) % 2 ^ 32).toNat

def adjustCells (src : TreedCQRImp) (lastTreeBegin rTreesBegin : Nat) :
    List CellDesc → TreedCQRImp → Except Fault TreedCQRImp
  | [], r => .ok r
  | cd :: desc, r =>
    if cd.hasTree then do
      let cd' := { cd with
        treeBegin := movePos lastTreeBegin rTreesBegin cd.treeBegin,
        treeEnd := movePos lastTreeBegin rTreesBegin cd.treeEnd }
      let r ← copyFetchedIndices src r cd'
      adjustCells src lastTreeBegin rTreesBegin desc (r.pushCell cd')
    else adjustCells src lastTreeBegin rTreesBegin desc (r.pushCell cd)

/-- Copies the rest of the cells. All trees from the first one of these cells on are copied at
once. -/
def copyRest (src : TreedCQRImp) : List CellDesc → TreedCQRImp → Except Fault TreedCQRImp
  | [], r => .ok r
  | cd :: desc, r =>
    if !cd.hasTree then copyRest src desc (r.pushCell cd)
    else do
      let trees ← slice src.trees cd.treeBegin src.trees.length
      adjustCells src cd.treeBegin r.trees.length (cd :: desc)
        { r with trees := r.trees ++ trees }

def intersect (my o : TreedCQRImp) : Except Fault TreedCQRImp := do
  let (r, _, _) ← walk false false my o (intersectCell my o) my.desc o.desc (empty my.space)
  return r

def unite (my o : TreedCQRImp) : Except Fault TreedCQRImp := do
  let (r, myDesc, oDesc) ← walk true true my o (uniteCell my o) my.desc o.desc (empty my.space)
  if myDesc ≠ [] then copyRest my myDesc r else copyRest o oDesc r

def diff (my o : TreedCQRImp) : Except Fault TreedCQRImp := do
  let (r, myDesc, _) ← walk true false my o (diffCell my o) my.desc o.desc (empty my.space)
  copyRest my myDesc r

def symDiff (my o : TreedCQRImp) : Except Fault TreedCQRImp := do
  let (r, myDesc, oDesc) ← walk true true my o (symDiffCell my o) my.desc o.desc (empty my.space)
  if myDesc ≠ [] then copyRest my myDesc r else copyRest o oDesc r

def allToFullLoop (my : TreedCQRImp) : List CellDesc → TreedCQRImp → Except Fault TreedCQRImp
  | [], r => .ok r
  | myCD :: desc, r =>
    if myCD.hasTree then do
      let r' ← copyTree my myCD { r with trees := r.trees ++ [.toFm] }
      allToFullLoop my desc (r'.pushCell
        ⟨false, myCD.hasFetchedNode, myCD.cellId, 0, u32 r.trees.length, u32 r'.trees.length⟩)
    else allToFullLoop my desc (r.pushCell (.plain true myCD.cellId 0))

def allToFull (my : TreedCQRImp) : Except Fault TreedCQRImp :=
  allToFullLoop my my.desc (empty my.space)

/-! ## Construction from a cell query result -/

def ofCell (c : Cell) (r : TreedCQRImp) : Except Fault TreedCQRImp :=
  if c.fetched then do
    let idx ← c.idx
    return { r with
      desc := r.desc ++ [{ CellDesc.plain false c.cellId 0 with
        hasFetchedNode := true, treeBegin := u32 r.trees.length,
        treeEnd := u32 (r.trees.length + 1) }],
      trees := r.trees ++ [.fetchedLeaf r.fetchedIdx.length],
      fetchedIdx := r.fetchedIdx ++ [idx] }
  else if c.fullMatch then .ok (r.pushCell (.plain true c.cellId 0))
  else do
    let id ← c.idxPtr
    return r.pushCell (.plain false c.cellId id)

def ofCells : List Cell → TreedCQRImp → Except Fault TreedCQRImp
  | [], r => .ok r
  | c :: cells, r => do
    let r ← ofCell c r
    ofCells cells r

def ofCellQueryResult (cqr : CellQueryResult) : Except Fault TreedCQRImp :=
  ofCells cqr.cells (empty cqr.space)

end TreedCQRImp

end Sserialize
