import Sserialize.Spatial.SpatialGrid

/-!
# `dgg::impl::HCQRSpatialGrid`

A hierarchical query result is a tree of pixels. Its leaves are pixels that match in full and pixels
with the items of an index, which is in the store or in the list of fetched indices.
-/

namespace Sserialize

namespace HCQRSpatialGrid

def IS_INTERNAL : Nat := 0x1

def IS_PARTIAL_MATCH : Nat := 0x2

def IS_FULL_MATCH : Nat := 0x4

def IS_FETCHED : Nat := 0x8

def npos : Nat := 2 ^ 32 - 1

inductive TreeNode where
  | node (pixelId flags itemIndexId : Nat) (children : List TreeNode)

namespace TreeNode

def pixelId : TreeNode → Nat
  | node p _ _ _ => p

def flags : TreeNode → Nat
  | node _ f _ _ => f

def itemIndexId : TreeNode → Nat
  | node _ _ i _ => i

def children : TreeNode → List TreeNode
  | node _ _ _ cs => cs

def isInternal (t : TreeNode) : Bool := !t.children.isEmpty

def isLeaf (t : TreeNode) : Bool := t.children.isEmpty

def isFullMatch (t : TreeNode) : Bool := t.flags &&& IS_FULL_MATCH ≠ 0

def isFetched (t : TreeNode) : Bool := t.flags &&& IS_FETCHED ≠ 0

def valid (t : TreeNode) : Bool :=
  (t.flags = IS_INTERNAL && t.isInternal) || (t.flags = IS_FULL_MATCH && t.itemIndexId = npos) ||
    (t.flags = IS_FETCHED && t.itemIndexId ≠ npos) ||
    (t.flags = IS_PARTIAL_MATCH && t.itemIndexId ≠ npos)

def sortChildren : TreeNode → TreeNode
  | node p f i cs => node p f i (cs.insertionSort fun a b => a.pixelId ≤ b.pixelId)

def pushChild : TreeNode → TreeNode → TreeNode
  | node p f i cs, x => node p f i (cs ++ [x])

theorem induct {P : TreeNode → Prop}
    (h : ∀ p f i cs, (∀ c ∈ cs, P c) → P (node p f i cs)) : ∀ t, P t
  | node p f i cs => h p f i cs fun c _ => induct h c

end TreeNode

structure Space where
  sg : SpatialGrid
  sgi : SpatialGridInfo
  idxStore : ItemIndexStore

def uniteAll (idcs : List ItemIndex) : ItemIndex :=
  idcs.foldl (ItemIndex.apply .unite) ItemIndex.empty

theorem mem_uniteAll {idcs : List ItemIndex} {id : Nat} :
    id ∈ (uniteAll idcs).ids ↔ ∃ i ∈ idcs, id ∈ i.ids := by
  have hgen : ∀ acc : ItemIndex, id ∈ (idcs.foldl (ItemIndex.apply .unite) acc).ids ↔
      id ∈ acc.ids ∨ ∃ i ∈ idcs, id ∈ i.ids := by
    induction idcs with
    | nil => simp
    | cons i idcs ih =>
      intro acc
      rw [List.foldl_cons, ih, ItemIndex.mem_apply]
      simp [SetOp.Holds, or_assoc]
  rw [uniteAll, hgen]
  simp [ItemIndex.empty]

def leafItems (sp : Space) (fetchedItems : List ItemIndex) (t : TreeNode) :
    Except Fault ItemIndex :=
  if t.isFullMatch then .ok (sp.sgi.items t.pixelId)
  else if t.isFetched then
    match fetchedItems[t.itemIndexId]? with
    | some i => .ok i
    | none => .error .outOfRange
  else .ok (sp.idxStore.at t.itemIndexId)

theorem leafItems_full (sp : Space) (fetchedItems : List ItemIndex) (p i : Nat)
    (cs : List TreeNode) :
    leafItems sp fetchedItems (.node p IS_FULL_MATCH i cs) = .ok (sp.sgi.items p) := by
  simp [leafItems, TreeNode.isFullMatch, TreeNode.flags, TreeNode.pixelId, IS_FULL_MATCH]

theorem leafItems_fetched (sp : Space) {fetchedItems : List ItemIndex} (p : Nat) {i : Nat}
    {idx : ItemIndex} (hi : fetchedItems[i]? = some idx) (cs : List TreeNode) :
    leafItems sp fetchedItems (.node p IS_FETCHED i cs) = .ok idx := by
  simp [leafItems, TreeNode.isFullMatch, TreeNode.isFetched, TreeNode.flags, TreeNode.itemIndexId,
    IS_FULL_MATCH, IS_FETCHED, hi]

theorem leafItems_partialMatch (sp : Space) (fetchedItems : List ItemIndex) (p i : Nat)
    (cs : List TreeNode) :
    leafItems sp fetchedItems (.node p IS_PARTIAL_MATCH i cs) = .ok (sp.idxStore.at i) := by
  simp [leafItems, TreeNode.isFullMatch, TreeNode.isFetched, TreeNode.flags, TreeNode.itemIndexId,
    IS_FULL_MATCH, IS_FETCHED, IS_PARTIAL_MATCH]

mutual

def items (sp : Space) (fetchedItems : List ItemIndex) : TreeNode → Except Fault ItemIndex
  | .node p f i [] => leafItems sp fetchedItems (.node p f i [])
  | .node _ _ _ (c :: cs) => do
    let x ← items sp fetchedItems c
    let xs ← itemsOfList sp fetchedItems cs
    return uniteAll (x :: xs)

def itemsOfList (sp : Space) (fetchedItems : List ItemIndex) :
    List TreeNode → Except Fault (List ItemIndex)
  | [] => .ok []
  | c :: cs => do
    let x ← items sp fetchedItems c
    let xs ← itemsOfList sp fetchedItems cs
    return x :: xs

end

mutual

def leaves : TreeNode → List TreeNode
  | .node p f i [] => [.node p f i []]
  | .node _ _ _ (c :: cs) => leaves c ++ leavesOfList cs

def leavesOfList : List TreeNode → List TreeNode
  | [] => []
  | c :: cs => leaves c ++ leavesOfList cs

end

theorem leavesOfList_eq (cs : List TreeNode) : leavesOfList cs = cs.flatMap leaves := by
  induction cs with
  | nil => rfl
  | cons c cs ih => rw [leavesOfList, ih, List.flatMap_cons]

theorem leaves_internal {p f i : Nat} {cs : List TreeNode} (h : cs ≠ []) :
    leaves (.node p f i cs) = cs.flatMap leaves := by
  cases cs with
  | nil => exact absurd rfl h
  | cons c cs => rw [leaves, leavesOfList_eq, List.flatMap_cons]

/-- The inner structure of a tree: the children of a node are child pixels of it in ascending
order. -/
inductive Shaped (sg : SpatialGrid) (Pixel : Nat → Prop) : TreeNode → Prop where
  | leaf {p f i : Nat} (hp : Pixel p) : Shaped sg Pixel (.node p f i [])
  | internal {p i : Nat} {cs : List TreeNode} (hp : Pixel p) (hne : cs ≠ [])
      (hparent : ∀ c ∈ cs, 0 < sg.level c.pixelId ∧ sg.parent c.pixelId = .ok p)
      (hsorted : cs.Pairwise fun a b => a.pixelId < b.pixelId)
      (hcs : ∀ c ∈ cs, Shaped sg Pixel c) : Shaped sg Pixel (.node p IS_INTERNAL i cs)

/-- A leaf of a result: its index is there and its items are items of its pixel. -/
inductive LeafOk (sp : Space) (fetchedItems : List ItemIndex) : TreeNode → Prop where
  | full {p : Nat} : LeafOk sp fetchedItems (.node p IS_FULL_MATCH npos [])
  | fetched {p i : Nat} {idx : ItemIndex} (hi : fetchedItems[i]? = some idx)
      (hitems : ∀ id ∈ idx.ids, id ∈ (sp.sgi.items p).ids) :
      LeafOk sp fetchedItems (.node p IS_FETCHED i [])
  | partialMatch {p i : Nat} (hi : i < sp.idxStore.size) (hpos : i ≠ npos)
      (hitems : ∀ id ∈ (sp.idxStore.at i).ids, id ∈ (sp.sgi.items p).ids) :
      LeafOk sp fetchedItems (.node p IS_PARTIAL_MATCH i [])

structure Valid (sp : Space) (Pixel : Nat → Prop) (fetchedItems : List ItemIndex) (t : TreeNode) :
    Prop where
  shaped : Shaped sp.sg Pixel t
  leafOk : ∀ l ∈ leaves t, LeafOk sp fetchedItems l

end HCQRSpatialGrid

open HCQRSpatialGrid in
structure HCQRSpatialGrid where
  root : Option TreeNode
  fetchedItems : List ItemIndex

end Sserialize
