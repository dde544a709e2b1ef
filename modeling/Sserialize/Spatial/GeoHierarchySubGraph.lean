import Sserialize.Library.BreadthFirst
import Sserialize.Spatial.GeoHierarchy

namespace Sserialize

namespace GeoHierarchySubGraph

structure RegionDesc where
  parentsBegin : Nat
  cellCount : Nat
  deriving Repr, DecidableEq

structure CellDesc where
  parentsBegin : Nat
  directParentsEnd : Nat
  itemsCount : Nat
  deriving Repr, DecidableEq

end GeoHierarchySubGraph

structure GeoHierarchySubGraph where
  cellParentsPtrs : List Nat
  regionParentsPtrs : List Nat
  regionDesc : List GeoHierarchySubGraph.RegionDesc
  cellDesc : List GeoHierarchySubGraph.CellDesc
  exclusive : List ItemIndex

namespace GeoHierarchySubGraph

def ptrRange (ptrs : List Nat) (b e : Nat) : Except Fault (List Nat) :=
  if b ≤ e ∧ e ≤ ptrs.length then .ok (slice ptrs b e) else .error .undefinedBehaviour

/-- `getAncestors`, with the depth of the recursion. -/
def getAncestors (parents : Nat → Except Fault (List Nat)) :
    Nat → Nat → List Nat → Except Fault (List Nat)
  | 0, _, _ => .error .undefinedBehaviour
  | depth + 1, rid, dest => do
    let ptrs ← parents rid
    ptrs.foldlM (fun dest it => do
      let dest ← getAncestors parents depth it dest
      return dest.insert it) dest

def ancestorsOf (parents : Nat → Except Fault (List Nat)) (depth : Nat) (added : List Nat) :
    Except Fault (List Nat) :=
  added.foldlM (fun dest x => getAncestors parents depth x dest) []

/-- The parents of the regions visited so far. The parents of a region end where those of the region
before it begin. -/
structure TempRegionInfos where
  regionParentsPtrs : List Nat
  regionDesc : List Nat
  deriving Repr, DecidableEq

namespace TempRegionInfos

variable (t : TempRegionInfos) (rid : Nat)

def parentsBegin : Except Fault Nat := checkedAt t.regionDesc rid

def parentsEnd : Except Fault Nat :=
  if rid = 0 then .ok (u32 t.regionParentsPtrs.length) else checkedAt t.regionDesc (rid - 1)

def parents : Except Fault (List Nat) := do
  let b ← t.parentsBegin rid
  let e ← t.parentsEnd rid
  ptrRange t.regionParentsPtrs b e

end TempRegionInfos

structure Search where
  added : List Nat
  ancestors : List Nat
  deriving Repr, DecidableEq

variable (gh : GeoHierarchy) (filter : Nat → Bool) (fuel : Nat)

def regionParents (id : Nat) : Except Fault (List Nat) := do
  let b ← gh.regionParentsBegin id
  let e ← gh.regionParentsEnd id
  (loopPositions b e).mapM gh.regionPtr

/-- An iteration of the loop over `removed`, with what it appends. -/
def visitRemoved (t : TempRegionInfos) (s : Search) (candidateParent : Nat) :
    Except Fault (Search × List Nat) := do
  if candidateParent ∈ s.ancestors then return (s, [])
  else if filter candidateParent then
    let ancestors ←
      getAncestors t.parents fuel candidateParent (s.ancestors.insert candidateParent)
    return (⟨s.added ++ [candidateParent], ancestors⟩, [])
  else
    let parents ← regionParents gh candidateParent
    return (s, parents)

def newParents (t : TempRegionInfos) (i : Nat) : Except Fault (List Nat) := do
  let parents ← regionParents gh i
  let added := parents.filter filter
  let removed := parents.filter fun rId => !filter rId
  if removed.length ≠ 0 then
    let ancestors ← ancestorsOf t.parents fuel added
    let s ← BreadthFirst.loop (visitRemoved gh filter fuel t) fuel ⟨added, ancestors⟩ removed
    return s.added.mergeSort
  else return added

def addRegion (t : TempRegionInfos) (i : Nat) : Except Fault TempRegionInfos := do
  let t := { t with regionDesc := t.regionDesc.set i (u32 t.regionParentsPtrs.length) }
  if filter i then
    let added ← newParents gh filter fuel t i
    return { t with regionParentsPtrs := t.regionParentsPtrs ++ added }
  else return t

def addRegions : Nat → TempRegionInfos → Except Fault TempRegionInfos
  | 0, t => .ok t
  | i + 1, t => do
    let t ← addRegion gh filter fuel t i
    addRegions i t

variable (idxStore : ItemIndexStore) (regionCellIdxPtr : Nat → Nat)

def moveRegion (t : TempRegionInfos) (sub : GeoHierarchySubGraph) (rId : Nat) :
    Except Fault GeoHierarchySubGraph := do
  let parents ← t.parents rId
  let cellCount := (idxStore.at (regionCellIdxPtr rId)).size
  return { sub with
    regionDesc := sub.regionDesc ++ [⟨u32 sub.regionParentsPtrs.length, cellCount⟩]
    regionParentsPtrs := sub.regionParentsPtrs ++ parents }

section

variable (sub : GeoHierarchySubGraph) (rid : Nat)

def parentsBegin : Except Fault Nat := do
  let rd ← checkedAt sub.regionDesc rid
  return rd.parentsBegin

def parentsEnd : Except Fault Nat := do
  if rid + 1 = sub.regionDesc.length then return u32 sub.regionParentsPtrs.length
  else
    let rd ← checkedAt sub.regionDesc (rid + 1)
    return rd.parentsBegin

def parents : Except Fault (List Nat) := do
  let b ← sub.parentsBegin rid
  let e ← sub.parentsEnd rid
  ptrRange sub.regionParentsPtrs b e

end

structure CellSearch where
  added : List Nat
  ancestors : List Nat
  nonDirectParents : List Nat
  deriving Repr, DecidableEq

def visitIndirect (sub : GeoHierarchySubGraph) (s : CellSearch) (rId : Nat) :
    Except Fault CellSearch := do
  if filter rId then
    if rId ∈ s.ancestors then
      return { s with nonDirectParents := s.nonDirectParents ++ [rId] }
    else
      let ancestors ← getAncestors sub.parents fuel rId s.ancestors
      return { s with added := s.added ++ [rId], ancestors := ancestors }
  else return s

def pushCell (sub : GeoHierarchySubGraph) (direct rest : List Nat) (itemsCount : Nat) :
    GeoHierarchySubGraph :=
  let parentsBegin := u32 sub.cellParentsPtrs.length
  let directParentsEnd := u32 (sub.cellParentsPtrs ++ direct).length
  { sub with
    cellParentsPtrs := sub.cellParentsPtrs ++ direct ++ rest
    cellDesc := sub.cellDesc ++ [⟨parentsBegin, directParentsEnd, itemsCount⟩] }

def addCell (sub : GeoHierarchySubGraph) (i : Nat) : Except Fault GeoHierarchySubGraph := do
  let cPIt ← gh.cellParentsBegin i
  let cdPEnd ← gh.cellDirectParentsEnd i
  let cPEnd ← gh.cellParentsEnd i
  let itemsCount ← gh.cellItemsCount i
  let direct ← (loopPositions cPIt cdPEnd).mapM gh.cellPtr
  let indirect ← (loopPositions cdPEnd cPEnd).mapM gh.cellPtr
  let added := direct.filter filter
  let removed := direct.filter fun rId => !filter rId
  if removed.length ≠ 0 then
    let ancestors ← ancestorsOf sub.parents fuel added
    let s ← indirect.foldlM (visitIndirect filter fuel sub) ⟨added, ancestors, []⟩
    return sub.pushCell s.added.mergeSort s.nonDirectParents itemsCount
  else return sub.pushCell added (indirect.filter filter) itemsCount

def allCells (size : Nat) : List ItemIndex :=
  (List.range gh.regionSize).foldl (fun exclusive regionId =>
    if filter regionId then exclusive.set regionId (idxStore.at (regionCellIdxPtr regionId))
    else exclusive) (List.replicate size ItemIndex.empty)

def subtractAt (exclusive : List ItemIndex) (rid : Nat) (idx : ItemIndex) :
    Except Fault (List ItemIndex) :=
  match exclusive[rid]? with
  | some cells => .ok (exclusive.set rid (ItemIndex.apply .difference cells idx))
  | none => .error .undefinedBehaviour

def subtractCells (sub : GeoHierarchySubGraph) (exclusive : List ItemIndex) (regionId : Nat) :
    Except Fault (List ItemIndex) := do
  if filter regionId then
    let myIdx := idxStore.at (regionCellIdxPtr regionId)
    let pit ← sub.parentsBegin regionId
    let pend ← sub.parentsEnd regionId
    (slice sub.regionParentsPtrs pit pend).foldlM (fun exclusive p =>
      if filter p then subtractAt exclusive p myIdx else .ok exclusive) exclusive
  else return exclusive

def pushEnd (sub : GeoHierarchySubGraph) : GeoHierarchySubGraph :=
  { sub with
    regionDesc := sub.regionDesc ++ [⟨u32 sub.regionParentsPtrs.length, 0⟩]
    cellDesc := sub.cellDesc ++ [⟨u32 sub.cellParentsPtrs.length, 0, 0⟩] }

/-- The constructor. `regionCellIdxPtr` is the column of the table of regions with the indices of
their cells; `fuel` bounds the search for parents and the depth of the recursion. -/
def create : Except Fault GeoHierarchySubGraph := do
  if gh.regionSize = 0 then return ⟨[], [], [], [], []⟩
  else
    let t ← addRegions gh filter fuel gh.regionSize
      ⟨[], List.replicate gh.regionSize GeoHierarchy.npos⟩
    let sub ← (List.range gh.regionSize).foldlM (moveRegion idxStore regionCellIdxPtr t)
      ⟨[], [], [], [], []⟩
    let sub ← (List.range gh.cellSize).foldlM (addCell gh filter fuel) sub
    let sub := sub.pushEnd
    let exclusive ← (List.range gh.regionSize).foldlM
      (subtractCells filter idxStore regionCellIdxPtr sub)
      (allCells gh filter idxStore regionCellIdxPtr sub.regionDesc.length)
    return { sub with exclusive := exclusive }

section

variable (sub : GeoHierarchySubGraph)

def regionExclusiveCells (regionId : Nat) : ItemIndex :=
  sub.exclusive.getD regionId ItemIndex.empty

def directParentsSize (cellId : Nat) : Except Fault Nat := do
  let cd ← checkedAt sub.cellDesc cellId
  return sub32 cd.directParentsEnd cd.parentsBegin

def cellParents (cellId : Nat) : Except Fault (List Nat) := do
  let cd ← checkedAt sub.cellDesc cellId
  let next ← checkedAt sub.cellDesc (cellId + 1)
  ptrRange sub.cellParentsPtrs cd.parentsBegin next.parentsBegin

end

end GeoHierarchySubGraph

end Sserialize
