import Sserialize.Library.KeyedPairs
import Sserialize.ItemIndex.ItemIndex
import Sserialize.Storage.Bytes

/-!
# `detail::CellQueryResult`

The cells of a query result with a description and an index slot each. A slot is a union of an item
index and the id of an index in the store; the description says which of them it holds, and a full
cell whose index was not fetched has neither. Uninitialised memory is a slot with any id.
-/

namespace Sserialize

open KeyedPairs

/-- `CQRCellInfoIface`. Sizes are `uint32_t`. -/
structure CellInfo where
  cellSize : Nat
  cellItemsCount : Nat → Nat
  cellItemsPtr : Nat → Nat
  countInRange : ∀ cellId, cellItemsCount cellId < 2 ^ 32

structure CellDesc where
  fullMatch : Bool
  fetched : Bool
  cellId : Nat
  deriving Repr, DecidableEq

/-- The union of an index and an id. -/
inductive IndexDesc where
  | idx (i : ItemIndex)
  | idxPtr (id : Nat)
  deriving DecidableEq

def IndexDesc.isIdx : IndexDesc → Bool
  | .idx _ => true
  | .idxPtr _ => false

structure Cell where
  desc : CellDesc
  slot : IndexDesc
  deriving DecidableEq

namespace Cell

abbrev cellId (c : Cell) : Nat := c.desc.cellId

abbrev fullMatch (c : Cell) : Bool := c.desc.fullMatch

abbrev fetched (c : Cell) : Bool := c.desc.fetched

def idx (c : Cell) : Except Fault ItemIndex :=
  match c.slot with
  | .idx i => .ok i
  | .idxPtr _ => .error .undefinedBehaviour

def idxPtr (c : Cell) : Except Fault Nat :=
  match c.slot with
  | .idx _ => .error .undefinedBehaviour
  | .idxPtr id => .ok id

def copy (c : Cell) : Except Fault Cell := do
  if c.fetched then
    let i ← c.idx
    return { desc := c.desc, slot := .idx i }
  else
    let id ← c.idxPtr
    return { desc := c.desc, slot := .idxPtr id }

end Cell

def FF_CELL_LOCAL_ITEM_IDS : Nat := 0x2

def FF_CELL_GLOBAL_ITEM_IDS : Nat := 0x4

/-- What the results of a query share: the cells, the store and the id space. -/
structure CellSpace where
  ci : CellInfo
  idxStore : ItemIndexStore
  flags : Nat

namespace CellSpace

def isLocal (sp : CellSpace) : Bool := sp.flags &&& FF_CELL_LOCAL_ITEM_IDS ≠ 0

def isGlobal (sp : CellSpace) : Bool := sp.flags &&& FF_CELL_GLOBAL_ITEM_IDS ≠ 0

def cellIdx (sp : CellSpace) (cellId : Nat) : ItemIndex :=
  sp.idxStore.at (sp.ci.cellItemsPtr cellId)

def fullIdx (sp : CellSpace) (cellId : Nat) : ItemIndex :=
  if sp.isLocal then
    IdList.firstIds (sp.ci.cellItemsCount cellId) (Nat.le_of_lt (sp.ci.countInRange cellId))
  else sp.cellIdx cellId

def idx (sp : CellSpace) (c : Cell) : Except Fault ItemIndex :=
  if c.fetched then c.idx
  else if c.fullMatch then .ok (sp.fullIdx c.cellId)
  else do
    let id ← c.idxPtr
    return sp.idxStore.at id

/-- The cell that `idx(pos)` leaves behind, which keeps the index. -/
def fetch (sp : CellSpace) (c : Cell) : Except Fault Cell := do
  let i ← sp.idx c
  return { desc := { c.desc with fetched := true }, slot := .idx i }

def toGlobal (cellIdx : ItemIndex) (ids : List Nat) : Except Fault (List Nat) :=
  ids.mapM fun localId =>
    match cellIdx.ids[localId]? with
    | some globalId => .ok globalId
    | none => .error .outOfRange

def create (ids : List Nat) : Except Fault ItemIndex :=
  if h : ids.Pairwise (· < ·) ∧ ∀ id ∈ ids, id < 2 ^ 32 then
    .ok { ids := ids, ascending := h.1, inRange := h.2 }
  else .error .undefinedBehaviour

def items (sp : CellSpace) (c : Cell) : Except Fault ItemIndex :=
  if sp.isGlobal then sp.idx c
  else if c.fullMatch then .ok (sp.cellIdx c.cellId)
  else do
    let i ← sp.idx c
    let ids ← toGlobal (sp.cellIdx c.cellId) i.ids
    create ids

end CellSpace

structure CellQueryResult where
  space : CellSpace
  cells : List Cell

namespace CellQueryResult

/-! ## Constructors -/

def fullCell (mem : Nat → Nat) (pos cellId : Nat) : Cell where
  desc := ⟨true, false, cellId⟩
  slot := .idxPtr (mem pos)

def partialCell (cellId : Nat) (items : IndexDesc) : Cell where
  desc := ⟨false, items.isIdx, cellId⟩
  slot := items

def ofCell (mem : Nat → Nat) (space : CellSpace) (fullMatch : Bool) (cellId cellIdxId : Nat) :
    CellQueryResult where
  space := space
  cells := [if fullMatch then fullCell mem 0 cellId else partialCell cellId (.idxPtr cellIdxId)]

/-! ## Operators -/

def sameIdxPtr (my o : Cell) : Except Fault Bool :=
  if my.fetched || o.fetched then .ok false
  else do
    let myId ← my.idxPtr
    let oId ← o.idxPtr
    return decide (myId = oId)

def fetchedCell (cellId : Nat) (res : ItemIndex) : List Cell :=
  if res.size ≠ 0 then [{ desc := ⟨false, true, cellId⟩, slot := .idx res }] else []

def diffCell (sp : CellSpace) : Pairing Cell → Except Fault (List Cell)
  | .first my => do
    let c ← my.copy
    return [c]
  | .second _ => .ok []
  | .both my o => do
    if o.fullMatch then return []
    else if ← sameIdxPtr my o then return []
    else
      let myPIdx ← sp.idx my
      let oPIdx ← sp.idx o
      return fetchedCell my.cellId (ItemIndex.apply .difference myPIdx oPIdx)

def symDiffCell (sp : CellSpace) : Pairing Cell → Except Fault (List Cell)
  | .first my => do
    let c ← my.copy
    return [c]
  | .second o => do
    let c ← o.copy
    return [c]
  | .both my o => do
    if my.fullMatch && o.fullMatch then return []
    else if ← sameIdxPtr my o then return []
    else
      let myPIdx ← sp.idx my
      let oPIdx ← sp.idx o
      return fetchedCell my.cellId (ItemIndex.apply .symmetricDifference myPIdx oPIdx)

def diff (a b : CellQueryResult) : Except Fault CellQueryResult := do
  let cells ← collect (diffCell a.space) (pairUp Cell.cellId a.cells b.cells)
  return { space := a.space, cells := cells }

def symDiff (a b : CellQueryResult) : Except Fault CellQueryResult := do
  let cells ← collect (symDiffCell a.space) (pairUp Cell.cellId a.cells b.cells)
  return { space := a.space, cells := cells }

/-! ## Id spaces -/

/-- A loop that writes every position of the result. Threads take the positions in any order and
write no other position. -/
def convertCells (f : Nat → Cell → Except Fault Cell) : Nat → List Cell → Except Fault (List Cell)
  | _, [] => .ok []
  | i, c :: cells => do
    let c' ← f i c
    let cells' ← convertCells f (i + 1) cells
    return c' :: cells'

def sourceIdx (sp : CellSpace) (c : Cell) : Except Fault ItemIndex :=
  if c.fetched then sp.idx c
  else do
    let id ← c.idxPtr
    return sp.idxStore.at id

def toGlobalCell (mem : Nat → Nat) (sp : CellSpace) (i : Nat) (c : Cell) : Except Fault Cell := do
  if c.fullMatch then return { desc := c.desc, slot := .idxPtr (mem i) }
  else
    let srcIdx ← sourceIdx sp c
    let tmpidx ← CellSpace.toGlobal (sp.cellIdx c.cellId) srcIdx.ids
    let res ← CellSpace.create tmpidx
    return { desc := ⟨false, true, c.cellId⟩, slot := .idx res }

def localIds : Nat → List Nat → List Nat → Except Fault (List Nat)
  | _, [], _ => .ok []
  | _, _ :: _, [] => .error .undefinedBehaviour
  | localId, src :: srcIdx, id :: cellIdx =>
    if src = id then do
      let tmpidx ← localIds (localId + 1) srcIdx cellIdx
      return localId :: tmpidx
    else localIds (localId + 1) (src :: srcIdx) cellIdx

def toLocalCell (mem : Nat → Nat) (sp : CellSpace) (i : Nat) (c : Cell) : Except Fault Cell := do
  if c.fullMatch then return { desc := c.desc, slot := .idxPtr (mem i) }
  else
    let srcIdx ← sourceIdx sp c
    let tmpidx ← localIds 0 srcIdx.ids (sp.cellIdx c.cellId).ids
    let res ← CellSpace.create tmpidx
    return { desc := ⟨false, true, c.cellId⟩, slot := .idx res }

def toGlobalItemIds (mem : Nat → Nat) (r : CellQueryResult) : Except Fault CellQueryResult := do
  if !r.space.isLocal || r.space.isGlobal then throw .typeMissMatch
  let newFlags := r.space.flags - FF_CELL_LOCAL_ITEM_IDS + FF_CELL_GLOBAL_ITEM_IDS
  let cells ← convertCells (toGlobalCell mem r.space) 0 r.cells
  return { space := { r.space with flags := newFlags }, cells := cells }

def toCellLocalItemIds (mem : Nat → Nat) (r : CellQueryResult) : Except Fault CellQueryResult := do
  if !r.space.isGlobal || r.space.isLocal then throw .typeMissMatch
  let newFlags := r.space.flags - FF_CELL_GLOBAL_ITEM_IDS + FF_CELL_LOCAL_ITEM_IDS
  let cells ← convertCells (toLocalCell mem r.space) 0 r.cells
  return { space := { r.space with flags := newFlags }, cells := cells }

end CellQueryResult

end Sserialize
