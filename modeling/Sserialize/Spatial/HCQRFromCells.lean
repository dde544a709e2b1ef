import Sserialize.Library.OrderedMap
import Sserialize.Spatial.CellQueryResult
import Sserialize.Spatial.HCQRSpatialGrid

/-!
# The hierarchical result of a cell query result

The cells become leaves, which are grouped below their parent pixels level by level until the root
pixel is reached. The levels are hash maps, which are iterated in any order.
-/

namespace Sserialize

open scoped List

namespace HCQRSpatialGrid

abbrev LevelMap := List (Nat × TreeNode)

def cellNode (sp : Space) (c : Cell) (fetchedItems : List ItemIndex) :
    Except Fault (TreeNode × List ItemIndex) := do
  let pId := sp.sgi.pixelId c.cellId
  if c.fullMatch then return (.node pId IS_FULL_MATCH npos [], fetchedItems)
  else if c.fetched then
    let i ← c.idx
    let fetchedItems := fetchedItems ++ [i]
    -- the index behind the one that was pushed
    return (.node pId IS_FETCHED (u32 fetchedItems.length) [], fetchedItems)
  else
    let id ← c.idxPtr
    return (.node pId IS_PARTIAL_MATCH id [], fetchedItems)

def cellNodes (sp : Space) (st : LevelMap × List ItemIndex) (c : Cell) :
    Except Fault (LevelMap × List ItemIndex) := do
  let (n, fetchedItems) ← cellNode sp c st.2
  return (OrderedMap.assign n.pixelId n st.1, fetchedItems)

def moveToParent (sp : Space) (plevel : LevelMap) (x : Nat × TreeNode) : Except Fault LevelMap := do
  let pPId ← sp.sg.parent x.2.pixelId
  let parent := (OrderedMap.lookup pPId plevel).getD (.node pPId IS_INTERNAL npos [])
  return OrderedMap.assign pPId (parent.pushChild x.2) plevel

variable (sp : Space) (order : LevelMap → LevelMap)

def parentLevel (clevel : LevelMap) : Except Fault LevelMap := do
  let plevel ← (order clevel).foldlM (moveToParent sp) []
  return plevel.map fun x => (x.1, x.2.sortChildren)

def buildLevels : Nat → LevelMap → Except Fault (Option LevelMap)
  | 0, _ => .ok none
  | fuel + 1, clevel =>
    match order clevel with
    | [] => .ok (some [])
    | x :: _ =>
      if clevel.length > 1 || sp.sg.level x.2.pixelId > 0 then do
        let plevel ← parentLevel sp order clevel
        buildLevels fuel plevel
      else .ok (some clevel)

def ofCellQueryResult (fuel : Nat) (cqr : CellQueryResult) :
    Except Fault (Option HCQRSpatialGrid) := do
  let st ← cqr.cells.foldlM (cellNodes sp) ([], [])
  let levels ← buildLevels sp order fuel st.1
  return levels.map fun clevel =>
    { root := (order clevel).head?.map Prod.snd, fetchedItems := st.2 }

end HCQRSpatialGrid

def HCQRSpatialGrid.allItems (sp : HCQRSpatialGrid.Space) (r : HCQRSpatialGrid) :
    Except Fault ItemIndex :=
  match r.root with
  | some t => HCQRSpatialGrid.items sp r.fetchedItems t
  | none => .ok ItemIndex.empty

def HCQRSpatialGrid.allLeaves (r : HCQRSpatialGrid) : List HCQRSpatialGrid.TreeNode :=
  match r.root with
  | some t => HCQRSpatialGrid.leaves t
  | none => []

namespace HCQRSpatialGrid

/-! ## The items of a tree -/

variable {fetchedItems : List ItemIndex}

theorem items_of_leaf {sp : Space} {p f i : Nat} :
    items sp fetchedItems (.node p f i []) = leafItems sp fetchedItems (.node p f i []) := by
  rw [items]

theorem items_eq {sp : Space} {t : TreeNode}
    (h : ∀ l ∈ leaves t, ∃ i, leafItems sp fetchedItems l = .ok i) :
    ∃ i, items sp fetchedItems t = .ok i ∧ ∀ id, id ∈ i.ids ↔
      ∃ l ∈ leaves t, ∃ j, leafItems sp fetchedItems l = .ok j ∧ id ∈ j.ids := by
  induction t using TreeNode.induct with
  | h p f k cs ih =>
    by_cases hnil : cs = []
    · obtain rfl := hnil
      rw [leaves] at h ⊢
      obtain ⟨i, hi⟩ := h _ (List.mem_singleton_self _)
      refine ⟨i, by rw [items_of_leaf, hi], fun id => ?_⟩
      simp [hi]
    · have hlist : ∀ ds : List TreeNode, (∀ d ∈ ds, d ∈ cs) →
          ∃ js, itemsOfList sp fetchedItems ds = .ok js ∧ ∀ id, (∃ j ∈ js, id ∈ j.ids) ↔
            ∃ l ∈ ds.flatMap leaves, ∃ j, leafItems sp fetchedItems l = .ok j ∧ id ∈ j.ids := by
        intro ds
        induction ds with
        | nil => exact fun _ => ⟨[], rfl, fun id => by simp⟩
        | cons d ds ihds =>
          intro hds
          have hd := hds d List.mem_cons_self
          obtain ⟨j, hj, hmem⟩ := ih d hd fun l hl => h l (by
            rw [leaves_internal hnil]
            exact List.mem_flatMap.mpr ⟨d, hd, hl⟩)
          obtain ⟨js, hjs, hmems⟩ := ihds fun e he => hds e (List.mem_cons_of_mem _ he)
          refine ⟨j :: js, by rw [itemsOfList, hj, ok_bind, hjs, ok_bind]; rfl, fun id => ?_⟩
          simp only [List.mem_cons, List.flatMap_cons, List.mem_append, or_and_right, exists_or,
            exists_eq_left]
          rw [hmem, hmems]
      obtain ⟨js, hjs, hmem⟩ := hlist cs fun d hd => hd
      refine ⟨uniteAll js, ?_, fun id => ?_⟩
      · cases cs with
        | nil => exact absurd rfl hnil
        | cons c cs =>
          rw [itemsOfList] at hjs
          rw [items]
          obtain ⟨x, hx, hjs⟩ := bind_eq_ok hjs
          obtain ⟨xs, hxs, hjs⟩ := bind_eq_ok hjs
          rw [hx, ok_bind, hxs, ok_bind, ← Except.ok.inj hjs]
          rfl
      · rw [mem_uniteAll, hmem, leaves_internal hnil]

end HCQRSpatialGrid

end Sserialize
