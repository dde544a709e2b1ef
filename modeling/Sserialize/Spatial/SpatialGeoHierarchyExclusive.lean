import Sserialize.ItemIndex.ItemIndexFactoryNames
import Sserialize.Spatial.SpatialGeoHierarchyConsistency

namespace Sserialize.SpatialGeoHierarchy

open ItemIndexFactory

variable {Rect : Type} (gh : SpatialGeoHierarchy Rect)

/-- The columns `RD_CELL_LIST_PTR` and `RD_EXCLUSIVE_CELL_LIST_PTR` of the regions. -/
structure CellListPtrs where
  cellListIndexPtrs : List Nat
  exclusiveCellListIndexPtrs : List Nat

def exclusiveCells (i : Nat) (cells : List Nat) : Except Fault (List Nat) :=
  cells.foldlM (fun tmp cellId => do
    let c ← MMVector.at gh.cells cellId
    let parent ← subscript c.parentsData 0
    return if parent = i then tmp ++ [cellId] else tmp) []

variable {DataHashKey : Type} [DecidableEq DataHashKey] (codec : ItemIndexCodec)
  (hashFunc : Bytes → DataHashKey)

def appendExclusive (i : Nat) (r : Region Rect) (cellListIndexPtr : Nat)
    (idxFactory : ItemIndexFactory DataHashKey) :
    Except Fault (Nat × ItemIndexFactory DataHashKey) :=
  if r.childrenSize ≠ 0 then do
    let tmp ← gh.exclusiveCells i (r.cells gh.regionData)
    idxFactory.addIndex codec hashFunc tmp
  else .ok (cellListIndexPtr, idxFactory)

def appendRegion (s : CellListPtrs × ItemIndexFactory DataHashKey) (i : Nat) :
    Except Fault (CellListPtrs × ItemIndexFactory DataHashKey) := do
  let r ← subscript gh.regions i
  let (cellListIndexPtr, idxFactory) ← s.2.addIndex codec hashFunc (r.cells gh.regionData)
  let (exclusiveCellListIndexPtr, idxFactory) ←
    gh.appendExclusive codec hashFunc i r cellListIndexPtr idxFactory
  return (⟨s.1.cellListIndexPtrs ++ [cellListIndexPtr],
    s.1.exclusiveCellListIndexPtrs ++ [exclusiveCellListIndexPtr]⟩, idxFactory)

/-- The part of `append` that adds the cell lists of the regions and of the root region. The
exclusive cells of the root region are the first index of the factory. Behind the root region is the
dummy region. -/
def appendCellLists (idxFactory : ItemIndexFactory DataHashKey) :
    Except Fault (CellListPtrs × ItemIndexFactory DataHashKey) := do
  let (ptrs, idxFactory) ← (List.range gh.regions.length).foldlM
    (gh.appendRegion codec hashFunc) (⟨[], []⟩, idxFactory)
  let (rootRegionCellListIndexPtr, idxFactory) ←
    idxFactory.addIndex codec hashFunc (gh.rootRegion.cells gh.regionData)
  return (⟨ptrs.cellListIndexPtrs ++ [rootRegionCellListIndexPtr, 0],
    ptrs.exclusiveCellListIndexPtrs ++ [0, 0]⟩, idxFactory)

def Exclusive (r : Region Rect) (c : Nat) : Prop :=
  c ∈ r.cells gh.regionData ∧ ∀ x ∈ r.children gh.regionData, c ∉ gh.cellsOf x

def NamesExclusive (ptrs : CellListPtrs) (entries : List Entry) (pos : Nat) (r : Region Rect) :
    Prop :=
  ∃ ptr cells, ptrs.exclusiveCellListIndexPtrs[pos]? = some ptr ∧
    Names codec entries ptr cells ∧ ∀ c, c ∈ cells ↔ gh.Exclusive r c

def ExclusiveRight (ptrs : CellListPtrs) (entries : List Entry) : Prop :=
  (∀ i r, gh.regions[i]? = some r → gh.NamesExclusive codec ptrs entries i r) ∧
    gh.NamesExclusive codec ptrs entries gh.regions.length gh.rootRegion

/-- An exclusive cell of a region with children has no parent below the region, and the children of
the root region cover it. -/
def SmallestParents : Prop :=
  (∀ i r, gh.regions[i]? = some r → r.childrenSize ≠ 0 →
    ∀ c, gh.Exclusive r c → ∀ p ∈ gh.cellParentsOf c, i ≤ p) ∧
  ∀ c, ¬ gh.Exclusive gh.rootRegion c

def exclusiveList (i : Nat) (r : Region Rect) : List Nat :=
  if r.childrenSize ≠ 0 then
    (r.cells gh.regionData).filter fun c => (gh.cellParentsOf c).head? = some i
  else r.cells gh.regionData

variable {gh} {codec} {hashFunc}

theorem Cell.head?_parents {c : Cell Rect} (h : c.parents ≠ []) :
    c.parentsData.head? = c.parents.head? := by
  rw [Cell.parents] at h ⊢
  cases hsize : c.parentsSize with
  | zero =>
    rw [hsize, List.take_zero] at h
    exact absurd rfl h
  | succ n =>
    cases c.parentsData with
    | nil => rfl
    | cons p ps => rfl

namespace Consistent

theorem subscript_parent (h : gh.Consistent) {i c : Nat} (hc : c ∈ gh.cellsOf i) :
    ∃ cell parent, MMVector.at gh.cells c = .ok cell ∧ subscript cell.parentsData 0 = .ok parent ∧
      (gh.cellParentsOf c).head? = some parent := by
  have hparent := (h.mem_cellsOf_iff i c).mp hc
  obtain ⟨cell, hcell⟩ : ∃ cell, gh.cells[c]? = some cell :=
    ⟨_, List.getElem?_eq_getElem (lt_of_mem_cellParentsOf hparent)⟩
  rw [cellParentsOf_of_getElem hcell] at hparent ⊢
  have hhead := Cell.head?_parents (List.ne_nil_of_mem hparent)
  cases hdata : cell.parentsData with
  | nil =>
    rw [Cell.parents, hdata, List.take_nil] at hparent
    exact absurd hparent List.not_mem_nil
  | cons p ps =>
    refine ⟨_, p, at_eq_ok_iff.mpr hcell, ?_, ?_⟩
    · rw [hdata]
      rfl
    · rw [← hhead, hdata]
      rfl

theorem exclusiveCells_eq (h : gh.Consistent) {i j : Nat} {cells : List Nat}
    (hcells : ∀ c ∈ cells, c ∈ gh.cellsOf j) : gh.exclusiveCells i cells =
      .ok (cells.filter fun c => (gh.cellParentsOf c).head? = some i) := by
  rw [exclusiveCells]
  suffices hloop : ∀ tmp : List Nat, cells.foldlM (fun tmp cellId => do
      let c ← MMVector.at gh.cells cellId
      let parent ← subscript c.parentsData 0
      return if parent = i then tmp ++ [cellId] else tmp) tmp =
        (.ok (tmp ++ cells.filter fun c => (gh.cellParentsOf c).head? = some i) :
          Except Fault (List Nat)) from hloop []
  induction cells with
  | nil =>
    intro tmp
    rw [List.filter_nil, List.append_nil]
    rfl
  | cons c cells ih =>
    intro tmp
    obtain ⟨cell, parent, hcell, hread, hhead⟩ := h.subscript_parent (hcells c List.mem_cons_self)
    rw [List.foldlM_cons, hcell, ok_bind, hread, ok_bind, pure_bind,
      ih fun d hd => hcells d (List.mem_cons_of_mem _ hd)]
    by_cases hparent : parent = i
    · rw [if_pos hparent, List.filter_cons_of_pos (by rw [hhead, hparent, decide_eq_true rfl]),
        List.append_assoc, List.singleton_append]
    · rw [if_neg hparent, List.filter_cons_of_neg]
      rw [hhead, decide_eq_true_eq, Option.some.injEq]
      exact hparent

theorem exclusive_of_head (h : gh.Consistent) {i c : Nat} {r : Region Rect}
    (hr : gh.regions[i]? = some r) (hc : c ∈ r.cells gh.regionData)
    (hhead : (gh.cellParentsOf c).head? = some i) : gh.Exclusive r c := by
  refine ⟨hc, fun x hx hmem => ?_⟩
  have hlt := h.children_lt i x (childrenOf_of_getElem hr ▸ hx)
  have hparent := (h.mem_cellsOf_iff x c).mp hmem
  have hsorted := h.parents_sorted c
  cases hparents : gh.cellParentsOf c with
  | nil =>
    rw [hparents] at hparent
    exact absurd hparent List.not_mem_nil
  | cons p ps =>
    rw [hparents] at hparent hhead hsorted
    cases hhead
    obtain rfl | hrest := List.mem_cons.mp hparent
    · exact absurd hlt (Nat.lt_irrefl _)
    · exact absurd ((List.pairwise_cons.mp hsorted).1 x hrest) (Nat.not_le.mpr hlt)

theorem head_eq_iff (h : gh.Consistent) {i c : Nat} (hparent : i ∈ gh.cellParentsOf c) :
    (gh.cellParentsOf c).head? = some i ↔ ∀ p ∈ gh.cellParentsOf c, i ≤ p := by
  have hsorted := h.parents_sorted c
  cases hparents : gh.cellParentsOf c with
  | nil =>
    rw [hparents] at hparent
    exact absurd hparent List.not_mem_nil
  | cons q ps =>
    rw [hparents] at hparent hsorted
    have hfirst := (List.pairwise_cons.mp hsorted).1
    rw [List.head?_cons, Option.some.injEq]
    constructor
    · rintro rfl p hp
      obtain rfl | hp := List.mem_cons.mp hp
      · exact Nat.le_refl _
      · exact hfirst p hp
    · intro hall
      obtain rfl | hrest := List.mem_cons.mp hparent
      · rfl
      · exact Nat.le_antisymm (hfirst i hrest) (hall q List.mem_cons_self)

/-- The list of a region is right if the region has no children or its exclusive cells have no
parent below it. -/
theorem exclusiveList_right_iff (h : gh.Consistent) {i : Nat} {r : Region Rect}
    (hr : gh.regions[i]? = some r) :
    (∀ c, c ∈ gh.exclusiveList i r ↔ gh.Exclusive r c) ↔
      (r.childrenSize ≠ 0 → ∀ c, gh.Exclusive r c → ∀ p ∈ gh.cellParentsOf c, i ≤ p) := by
  rw [exclusiveList]
  by_cases hchildren : r.childrenSize ≠ 0
  · rw [if_pos hchildren]
    have hparent : ∀ c ∈ r.cells gh.regionData, i ∈ gh.cellParentsOf c := fun c hc =>
      (h.mem_cellsOf_iff i c).mp (cellsOf_of_getElem hr ▸ hc)
    constructor
    · intro hright _ c hc
      have hmem := (List.mem_filter.mp ((hright c).mpr hc)).2
      exact (h.head_eq_iff (hparent c hc.1)).mp (of_decide_eq_true hmem)
    · intro hsmallest c
      rw [List.mem_filter, decide_eq_true_eq]
      constructor
      · rintro ⟨hc, hhead⟩
        exact h.exclusive_of_head hr hc hhead
      · intro hc
        exact ⟨hc.1, (h.head_eq_iff (hparent c hc.1)).mpr (hsmallest hchildren c hc)⟩
  · rw [if_neg hchildren]
    refine iff_of_true (fun c => ?_) fun hne => absurd hne hchildren
    have hnone : r.children gh.regionData = [] := by
      rw [Region.children, Region.childrenEnd, not_ne_iff.mp hchildren, Nat.add_zero, slice,
        Nat.sub_self, List.take_zero]
    refine (and_iff_left ?_).symm
    rw [hnone]
    exact fun x hx => absurd hx List.not_mem_nil

end Consistent

structure Appended (gh : SpatialGeoHierarchy Rect) (codec : ItemIndexCodec) (ptrs : CellListPtrs)
    (entries : List Entry) (n : Nat) : Prop where
  length : ptrs.exclusiveCellListIndexPtrs.length = n
  names : ∀ i r, i < n → gh.regions[i]? = some r → ∃ ptr,
    ptrs.exclusiveCellListIndexPtrs[i]? = some ptr ∧
      Names codec entries ptr (gh.exclusiveList i r)

section

variable {start f f' : ItemIndexFactory DataHashKey} {entries : List Entry}
  (hstart : Named codec hashFunc start []) (hhash : Function.Injective hashFunc)
  (hcodec : codec.Determines start.type start.checkIndex)

include hstart hhash hcodec

theorem Consistent.appendExclusive_spec (h : gh.Consistent)
    (hreach : Reaches codec hashFunc start f entries) {i : Nat} {r : Region Rect} {ptr ptr' : Nat}
    (hr : gh.regions[i]? = some r) (hptr : Names codec entries ptr (r.cells gh.regionData))
    (happend : gh.appendExclusive codec hashFunc i r ptr f = .ok (ptr', f')) :
    ∃ entries', Reaches codec hashFunc start f' entries' ∧ entries <+: entries' ∧
      Names codec entries' ptr' (gh.exclusiveList i r) := by
  rw [appendExclusive] at happend
  rw [exclusiveList]
  by_cases hchildren : r.childrenSize ≠ 0
  · rw [if_pos hchildren] at happend ⊢
    have hcells : ∀ c ∈ r.cells gh.regionData, c ∈ gh.cellsOf i :=
      fun c hc => (cellsOf_of_getElem hr).symm ▸ hc
    rw [h.exclusiveCells_eq hcells, ok_bind] at happend
    exact hreach.addIndex_names hstart hhash hcodec happend
  · rw [if_neg hchildren] at happend ⊢
    cases happend
    exact ⟨entries, hreach, List.prefix_rfl, hptr⟩

theorem Consistent.appendRegion_spec (h : gh.Consistent)
    (hreach : Reaches codec hashFunc start f entries) {ptrs ptrs' : CellListPtrs} {i : Nat}
    (happended : Appended gh codec ptrs entries i)
    (happend : gh.appendRegion codec hashFunc (ptrs, f) i = .ok (ptrs', f')) :
    ∃ entries', Reaches codec hashFunc start f' entries' ∧ entries <+: entries' ∧
      Appended gh codec ptrs' entries' (i + 1) := by
  obtain ⟨r, hr, happend⟩ := bind_eq_ok happend
  obtain ⟨⟨ptr, f₁⟩, hadd, happend⟩ := bind_eq_ok happend
  obtain ⟨⟨ptr', f₂⟩, hexclusive, happend⟩ := bind_eq_ok happend
  cases happend
  have hr : gh.regions[i]? = some r := by
    rw [subscript] at hr
    cases hget : gh.regions[i]? with
    | none =>
      rw [hget] at hr
      cases hr
    | some r' =>
      rw [hget] at hr
      cases hr
      rfl
  obtain ⟨entries₁, hreach₁, hprefix₁, hptr⟩ := hreach.addIndex_names hstart hhash hcodec hadd
  obtain ⟨entries₂, hreach₂, hprefix₂, hptr'⟩ :=
    h.appendExclusive_spec hstart hhash hcodec hreach₁ hr hptr hexclusive
  have hprefix := hprefix₁.trans hprefix₂
  refine ⟨entries₂, hreach₂, hprefix, ?_, fun j rj hj hrj => ?_⟩
  · rw [List.length_append, happended.length, List.length_singleton]
  · obtain hj | rfl := Nat.lt_succ_iff_lt_or_eq.mp hj
    · obtain ⟨p, hp, hnames⟩ := happended.names j rj hj hrj
      refine ⟨p, ?_, hnames.of_prefix hprefix⟩
      rw [List.getElem?_append_left (happended.length.symm ▸ hj), hp]
    · cases hr.symm.trans hrj
      refine ⟨ptr', ?_, hptr'⟩
      rw [List.getElem?_append_right happended.length.le, happended.length, Nat.sub_self]
      rfl

theorem Consistent.appendRegions_spec (h : gh.Consistent)
    (hreach : Reaches codec hashFunc start f entries) (n : Nat) {ptrs : CellListPtrs}
    (happend : (List.range n).foldlM (gh.appendRegion codec hashFunc) (⟨[], []⟩, f) =
      .ok (ptrs, f')) :
    ∃ entries', Reaches codec hashFunc start f' entries' ∧ entries <+: entries' ∧
      Appended gh codec ptrs entries' n := by
  induction n generalizing ptrs f' with
  | zero =>
    cases happend
    exact ⟨entries, hreach, List.prefix_rfl, rfl, fun i r hi => absurd hi (Nat.not_lt_zero i)⟩
  | succ n ih =>
    rw [List.range_succ, List.foldlM_append] at happend
    obtain ⟨⟨ptrs₁, f₁⟩, hloop, happend⟩ := bind_eq_ok happend
    obtain ⟨entries₁, hreach₁, hprefix₁, happended⟩ := ih hloop
    rw [List.foldlM_cons] at happend
    obtain ⟨⟨ptrs₂, f₂⟩, hlast, happend⟩ := bind_eq_ok happend
    cases happend
    obtain ⟨entries₂, hreach₂, hprefix₂, happended₂⟩ :=
      h.appendRegion_spec hstart hhash hcodec hreach₁ happended hlast
    exact ⟨entries₂, hreach₂, hprefix₁.trans hprefix₂, happended₂⟩

theorem Consistent.appendCellLists_spec (h : gh.Consistent)
    (hreach : Reaches codec hashFunc start f entries) (hfirst : Names codec entries 0 [])
    {ptrs : CellListPtrs} (happend : gh.appendCellLists codec hashFunc f = .ok (ptrs, f')) :
    ∃ entries', Reaches codec hashFunc start f' entries' ∧
      (∀ i r, gh.regions[i]? = some r → ∃ ptr, ptrs.exclusiveCellListIndexPtrs[i]? = some ptr ∧
        Names codec entries' ptr (gh.exclusiveList i r)) ∧
      ptrs.exclusiveCellListIndexPtrs[gh.regions.length]? = some 0 ∧
      Names codec entries' 0 [] := by
  obtain ⟨⟨ptrs₁, f₁⟩, hloop, happend⟩ := bind_eq_ok happend
  obtain ⟨⟨rootPtr, f₂⟩, hroot, happend⟩ := bind_eq_ok happend
  cases happend
  obtain ⟨entries₁, hreach₁, hprefix₁, happended⟩ :=
    h.appendRegions_spec hstart hhash hcodec hreach _ hloop
  obtain ⟨entries₂, hreach₂, hprefix₂, -⟩ := hreach₁.addIndex_names hstart hhash hcodec hroot
  refine ⟨entries₂, hreach₂, fun i r hr => ?_, ?_, hfirst.of_prefix (hprefix₁.trans hprefix₂)⟩
  · have hi : i < gh.regions.length := (List.getElem?_eq_some_iff.mp hr).choose
    obtain ⟨ptr, hptr, hnames⟩ := happended.names i r hi hr
    refine ⟨ptr, ?_, hnames.of_prefix hprefix₂⟩
    rw [List.getElem?_append_left (happended.length.symm ▸ hi), hptr]
  · rw [List.getElem?_append_right happended.length.le, happended.length, Nat.sub_self]
    rfl

end

/-- The exclusive cells that `append` stores are right exactly if the exclusive cells of the regions
with children have no smaller parent and the root region has none. -/
theorem append_exclusive_right_iff {ops : GeoRectOps Rect} {indexStore : Bytes}
    {offSet type growSize : Nat} {checkIndex useDeduplication : Bool}
    {f f' : ItemIndexFactory DataHashKey} {entries : List Entry} {ptrs : CellListPtrs}
    (hhash : Function.Injective hashFunc) (hcodec : codec.Determines type checkIndex)
    (hconsistent : gh.checkConsistency ops = .ok true)
    (hreach : Reaches codec hashFunc
      (new indexStore offSet type growSize checkIndex useDeduplication) f entries)
    (hfirst : Names codec entries 0 [])
    (happend : gh.appendCellLists codec hashFunc f = .ok (ptrs, f')) :
    ∃ entries', Reaches codec hashFunc
        (new indexStore offSet type growSize checkIndex useDeduplication) f' entries' ∧
      (gh.ExclusiveRight codec ptrs entries' ↔ gh.SmallestParents) := by
  have h := consistent_of_checkConsistency hconsistent
  obtain ⟨entries', hreach', hnames, hroot, hempty⟩ :=
    h.appendCellLists_spec named_new hhash hcodec hreach hfirst happend
  refine ⟨entries', hreach', and_congr ?_ ?_⟩
  · constructor
    · intro hright i r hr
      obtain ⟨ptr, hptr, hlist⟩ := hnames i r hr
      obtain ⟨ptr', cells, hptr', hcells, hmem⟩ := hright i r hr
      cases hptr.symm.trans hptr'
      cases hlist.eq hcells
      exact (h.exclusiveList_right_iff hr).mp hmem
    · intro hsmallest i r hr
      obtain ⟨ptr, hptr, hlist⟩ := hnames i r hr
      exact ⟨ptr, _, hptr, hlist, (h.exclusiveList_right_iff hr).mpr (hsmallest i r hr)⟩
  · constructor
    · rintro ⟨ptr, cells, hptr, hcells, hmem⟩ c hc
      cases hroot.symm.trans hptr
      cases hempty.eq hcells
      exact absurd ((hmem c).mpr hc) List.not_mem_nil
    · intro hnone
      exact ⟨0, [], hroot, hempty, fun c => iff_of_false List.not_mem_nil (hnone c)⟩

def overlapping : SpatialGeoHierarchy Unit where
  cells := [⟨[0, 2], 2, [], ()⟩, ⟨[1, 2], 2, [], ()⟩]
  regionData := [2, 0, 1, 0, 0, 1, 1, 2, 0, 1]
  regions := [⟨0, 0, 1, 0, 1, 0, 0, ()⟩, ⟨2, 0, 0, 0, 1, 1, 1, ()⟩, ⟨3, 1, 0, 0, 2, 2, 2, ()⟩]
  rootRegion := ⟨6, 2, 0, 0, 2, 3, 0, ()⟩

theorem checkConsistency_overlapping : overlapping.checkConsistency unitOps = .ok true := by
  decide +kernel

theorem determines_rleDECodec : rleDECodec.Determines newRleDE.type newRleDE.checkIndex where
  type_eq a b s ta tb ha hb := by
    have hta := (Prod.mk.inj (Except.ok.inj ha)).2
    have htb := (Prod.mk.inj (Except.ok.inj hb)).2
    exact hta.symm.trans htb
  reads := .inl rfl

theorem names_first : Names rleDECodec [⟨[], [0, 0], 0x10⟩] 0 [] := ⟨_, rfl, by decide⟩

theorem exists_appended : ∃ f ptrs f',
    Reaches rleDECodec id newRleDE f [⟨[], [0, 0], 0x10⟩] ∧
      overlapping.appendCellLists rleDECodec id f = .ok (ptrs, f') := by
  have hok : (newRleDE.addIndex rleDECodec id [] >>= fun p =>
      overlapping.appendCellLists rleDECodec id p.2).toBool = true := by decide +kernel
  cases hrun : newRleDE.addIndex rleDECodec id [] >>= fun p =>
      overlapping.appendCellLists rleDECodec id p.2 with
  | error e =>
    rw [hrun] at hok
    cases hok
  | ok result =>
    obtain ⟨⟨i, f⟩, hadd, happend⟩ := bind_eq_ok hrun
    obtain ⟨s, type, -, -, hdata⟩ := exists_of_addIndex hadd
    refine ⟨f, result.1, result.2, Reaches.added Reaches.start rfl hadd ?_, happend⟩
    obtain ⟨-, ⟨hknown, -⟩ | ⟨-, hnext, -⟩⟩ := addData_cases hdata
    · cases hknown
    · rw [hnext]
      exact Nat.succ_ne_self _

theorem append_exclusive_right_iff_overlapping : ∃ f ptrs f' entries',
    overlapping.appendCellLists rleDECodec id f = .ok (ptrs, f') ∧
      Reaches rleDECodec id newRleDE f' entries' ∧
      (overlapping.ExclusiveRight rleDECodec ptrs entries' ↔ overlapping.SmallestParents) := by
  obtain ⟨f, ptrs, f', hreach, happend⟩ := exists_appended
  obtain ⟨entries', hreach', hiff⟩ := append_exclusive_right_iff Function.injective_id
    determines_rleDECodec checkConsistency_overlapping hreach names_first happend
  exact ⟨f, ptrs, f', entries', happend, hreach', hiff⟩

/-- Cell 1 is in no child of region 2, and the exclusive cells of region 2 are empty. -/
theorem append_exclusive_not_right : ∃ f ptrs f' entries',
    overlapping.checkConsistency unitOps = .ok true ∧
      Reaches rleDECodec id newRleDE f [⟨[], [0, 0], 0x10⟩] ∧
      overlapping.appendCellLists rleDECodec id f = .ok (ptrs, f') ∧
      Reaches rleDECodec id newRleDE f' entries' ∧
      ¬ overlapping.ExclusiveRight rleDECodec ptrs entries' := by
  obtain ⟨f, ptrs, f', hreach, happend⟩ := exists_appended
  have h := consistent_of_checkConsistency checkConsistency_overlapping
  obtain ⟨entries', hreach', hnames, -, -⟩ := h.appendCellLists_spec named_new
    Function.injective_id determines_rleDECodec hreach names_first happend
  refine ⟨f, ptrs, f', entries', checkConsistency_overlapping, hreach, happend, hreach', ?_⟩
  intro hright
  have hregion : overlapping.regions[2]? = some ⟨3, 1, 0, 0, 2, 2, 2, ()⟩ := rfl
  obtain ⟨ptr, hptr, hlist⟩ := hnames 2 _ hregion
  obtain ⟨ptr', cells, hptr', hcells, hmem⟩ := hright.1 2 _ hregion
  cases hptr.symm.trans hptr'
  cases hlist.eq hcells
  have hexclusive : overlapping.Exclusive ⟨3, 1, 0, 0, 2, 2, 2, ()⟩ 1 := ⟨by decide, by decide⟩
  have hnone : 1 ∉ overlapping.exclusiveList 2 ⟨3, 1, 0, 0, 2, 2, 2, ()⟩ := by decide
  exact hnone ((hmem 1).mpr hexclusive)

end Sserialize.SpatialGeoHierarchy
