import Sserialize.Library.HalvedFold
import Sserialize.Spatial.TreedCQRImpFlatten
import Sserialize.Spatial.TreedCQRImpReachable

namespace Sserialize

open HalvedFold

namespace ItemIndex

def T_WAH : Nat := 0x4

def T_RLE_DE : Nat := 0x10

def T_EMPTY : Nat := 0x400

def T_INDIRECT : Nat := 0x800

/-- The intersection of a vector, in the order of `intersectWithTree`. -/
def intersectAll (set : List ItemIndex) : ItemIndex :=
  foldHalves (apply .intersect) empty set

def keep (i : ItemIndex) (p : Nat → Bool) : ItemIndex where
  ids := i.ids.filter p
  ascending := i.ascending.filter p
  inRange := fun id hid => i.inRange id (List.mem_filter.mp hid).1

/-- A word of 31 ids is decoded as long as there are less than `count` ids in front of it. -/
def inWords (i : ItemIndex) (count id : Nat) : Bool :=
  decide ((i.ids.filter fun id' => decide (id' / 31 < id / 31)).length < count)

/-- An id is decoded as long as there are less than `count` ids in front of it. -/
def inFront (i : ItemIndex) (count id : Nat) : Bool :=
  decide ((i.ids.filter fun id' => decide (id' < id)).length < count)

def commonType (intersect : List (ItemIndex × Nat)) (count : Nat) : Nat :=
  if count > 1024 then T_EMPTY ||| T_INDIRECT
  else intersect.foldl (fun type i => type ||| i.2) 0

/-- `constrainedIntersect` without a filter. Every index comes with its type. -/
def constrainedIntersect (intersect : List (ItemIndex × Nat)) (count : Nat) : ItemIndex :=
  let set := intersect.map Prod.fst
  if set = [] then empty
  else if commonType intersect count = T_WAH then
    if set.any fun i => i.size = 0 then empty
    else (intersectAll set).keep ((intersectAll set).inWords count)
  else if commonType intersect count = T_RLE_DE then
    if set.any fun i => i.size = 0 then empty
    else (intersectAll set).keep ((intersectAll set).inFront count)
  else intersectAll set

variable {i : ItemIndex}

theorem size_ne_zero : i.size ≠ 0 ↔ ∃ id, id ∈ i.ids := by
  rw [ne_eq, size_eq_zero, List.eq_nil_iff_forall_not_mem, not_forall]
  simp only [not_not]

theorem mem_intersectAll {set : List ItemIndex} (hset : set ≠ []) (id : Nat) :
    id ∈ (intersectAll set).ids ↔ ∀ i ∈ set, id ∈ i.ids := by
  apply foldHalves_iff (p := fun i => id ∈ i.ids) _ empty hset
  intro i j
  exact mem_apply .intersect i j id

theorem size_keep_ne_zero {p : Nat → Bool} (hp : ∀ id, (∀ id' ∈ i.ids, id ≤ id') → p id = true) :
    (i.keep p).size ≠ 0 ↔ i.size ≠ 0 := by
  rw [size_ne_zero, size_ne_zero]
  constructor
  · rintro ⟨id, hid⟩
    exact ⟨id, (List.mem_filter.mp hid).1⟩
  · rintro ⟨id, hid⟩
    obtain ⟨first, rest, hids⟩ := List.exists_cons_of_ne_nil (List.ne_nil_of_mem hid)
    have hascending := i.ascending
    rw [hids] at hascending
    refine ⟨first, List.mem_filter.mpr ⟨by simp [hids], hp first fun id' hid' => ?_⟩⟩
    rw [hids] at hid'
    rcases List.mem_cons.mp hid' with rfl | hid'
    · exact Nat.le_refl _
    · exact Nat.le_of_lt (List.rel_of_pairwise_cons hascending hid')

theorem filter_length_lt {count : Nat} {q : Nat → Bool} (hcount : 0 < count)
    (hq : ∀ id ∈ i.ids, q id = false) : (i.ids.filter q).length < count := by
  rw [List.filter_eq_nil_iff.mpr fun id hid => by simp [hq id hid]]
  exact hcount

theorem constrainedIntersect_size_ne_zero {intersect : List (ItemIndex × Nat)} {count : Nat}
    (hcount : 0 < count) (hintersect : intersect ≠ []) :
    (constrainedIntersect intersect count).size ≠ 0 ↔ ∃ id, ∀ i ∈ intersect, id ∈ i.1.ids := by
  have hset : intersect.map Prod.fst ≠ [] := by simpa using hintersect
  have hall : (intersectAll (intersect.map Prod.fst)).size ≠ 0 ↔
      ∃ id, ∀ i ∈ intersect, id ∈ i.1.ids := by
    rw [size_ne_zero]
    simp only [mem_intersectAll hset, List.forall_mem_map]
  have hany : ((intersect.map Prod.fst).any fun i => i.size = 0) = true →
      ¬ ∃ id, ∀ i ∈ intersect, id ∈ i.1.ids := by
    rw [List.any_map, List.any_eq_true]
    rintro ⟨i, hi, hsize⟩ ⟨id, hid⟩
    have hnil := size_eq_zero.mp (of_decide_eq_true hsize)
    simpa [hnil] using hid i hi
  have hempty : ¬ (empty.size ≠ 0) := not_not.mpr (size_eq_zero.mpr rfl)
  have hword : ∀ {i : ItemIndex} (id : Nat), (∀ id' ∈ i.ids, id ≤ id') →
      i.inWords count id = true := by
    intro i id hfirst
    refine decide_eq_true (filter_length_lt hcount fun id' hid' => decide_eq_false ?_)
    exact Nat.not_lt_of_le (Nat.div_le_div_right (hfirst id' hid'))
  have hfront : ∀ {i : ItemIndex} (id : Nat), (∀ id' ∈ i.ids, id ≤ id') →
      i.inFront count id = true := by
    intro i id hfirst
    refine decide_eq_true (filter_length_lt hcount fun id' hid' => decide_eq_false ?_)
    exact Nat.not_lt_of_le (hfirst id' hid')
  rw [constrainedIntersect, if_neg hset]
  by_cases hempties : ((intersect.map Prod.fst).any fun i => i.size = 0) = true
  · rw [if_pos hempties, if_pos hempties]
    have hnone := hany hempties
    split
    next => exact iff_of_false hempty hnone
    next =>
      split
      next => exact iff_of_false hempty hnone
      next => exact hall
  · rw [if_neg hempties, if_neg hempties]
    split
    next => rw [size_keep_ne_zero hword, hall]
    next =>
      split
      next => rw [size_keep_ne_zero hfront, hall]
      next => exact hall

end ItemIndex

namespace TreedCQRImp

def countLeafs : Nat → List FlatNode → Option Nat
  | numLeafs, [] => some numLeafs
  | numLeafs, .pmLeaf _ :: nodes | numLeafs, .fetchedLeaf _ :: nodes =>
    countLeafs (numLeafs + 1) nodes
  | numLeafs, .fmLeaf :: nodes | numLeafs, .opNode .intersect _ :: nodes =>
    countLeafs numLeafs nodes
  | _, _ => none

def leafIndices (indexType : FlatNode → Nat) (r : TreedCQRImp) :
    List FlatNode → Except Fault (List (ItemIndex × Nat))
  | [] => .ok []
  | .pmLeaf pmIdxId :: nodes => do
    let tmp ← leafIndices indexType r nodes
    return (r.space.idxStore.at pmIdxId, indexType (.pmLeaf pmIdxId)) :: tmp
  | .fetchedLeaf internalIdxId :: nodes =>
    match r.fetchedIdx[internalIdxId]? with
    | none => .error .outOfRange
    | some idx => do
      let tmp ← leafIndices indexType r nodes
      return (idx, indexType (.fetchedLeaf internalIdxId)) :: tmp
  | _ :: nodes => leafIndices indexType r nodes

def hasHitsCell (indexType : FlatNode → Nat) (r : TreedCQRImp) (cd : CellDesc) : Except Fault Bool := do
  let nodes ← slice r.trees cd.treeBegin cd.treeEnd
  match countLeafs 0 nodes with
  | some numLeafs =>
    if numLeafs = 1 then return true
    else
      let tmp ← r.leafIndices indexType nodes
      return decide ((ItemIndex.constrainedIntersect tmp 1).size ≠ 0)
  | none =>
    let res ← r.flattenCell cd.cellId r.trees.length cd.treeBegin .fresh
    return decide (res.frt = .fetched ∨ res.frt = .fm ∨ res.frt = .pm)

def hasHitsLoop (indexType : FlatNode → Nat) (r : TreedCQRImp) : List CellDesc → Except Fault Bool
  | [] => .ok false
  | cd :: desc => do
    let hits ← r.hasHitsCell indexType cd
    if hits then return true else hasHitsLoop indexType r desc

def hasHits (indexType : FlatNode → Nat) (r : TreedCQRImp) : Except Fault Bool :=
  if r.desc.any fun cd => !cd.hasTree then .ok true else r.hasHitsLoop indexType r.desc

structure CellTree (r : TreedCQRImp) (cd : CellDesc) (t : Tree) : Prop where
  hasTree : cd.hasTree = true
  slice : slice r.trees cd.treeBegin cd.treeEnd = .ok t.nodes

def Hit (r : TreedCQRImp) (cd : CellDesc) : Prop :=
  (cd.hasTree = false ∧ (cd.fullMatch = true ∨ (r.space.idxStore.at cd.pmIdxId).size ≠ 0)) ∨
    ∃ t, CellTree r cd t ∧ t.found (r.cellItems cd.cellId) ≠ ⊥

def Overlooked (r : TreedCQRImp) (cd : CellDesc) : Prop :=
  (cd.hasTree = false ∧ cd.fullMatch = false ∧ (r.space.idxStore.at cd.pmIdxId).size = 0) ∨
    ∃ t, CellTree r cd t ∧ t.Overlooked (r.cellItems cd.cellId)

def OnlyFull (r : TreedCQRImp) (cd : CellDesc) : Prop :=
  ∃ t, CellTree r cd t ∧ t.Nice ∧ t.leafs = []

variable {sp : CellSpace} {r : TreedCQRImp} {cd : CellDesc} {t : Tree} {indexType : FlatNode → Nat}

theorem CellTree.eq {t' : Tree} (h : CellTree r cd t) (h' : CellTree r cd t') : t = t' := by
  have hslice := h.slice
  rw [h'.slice] at hslice
  exact Tree.nodes_inj (Except.ok.inj hslice).symm

theorem Good.exists_cellTree (h : Good sp r) (hcd : cd ∈ r.desc) (htree : cd.hasTree = true) :
    ∃ t front back, CellTree r cd t ∧ r.trees = front ++ t.nodes ++ back ∧
      cd.treeBegin = front.length ∧
      ∀ n ∈ t.nodes, n.Valid sp.idxStore.size r.fetchedIdx.length := by
  obtain ⟨front, block, back, htrees, hblock⟩ := h.inv.layout.block_of_mem hcd htree
  obtain ⟨t, rfl⟩ := hblock.tree.exists_tree
  have hbegin := hblock.treeBegin
  have hend := hblock.treeEnd
  rw [Nat.zero_add] at hbegin hend
  exact ⟨t, front, back, ⟨htree, slice_eq htrees hbegin hend⟩, htrees, hbegin, hblock.valid⟩

theorem Tree.Nice.countLeafs (h : t.Nice) (numLeafs : Nat) (nodes : List FlatNode) :
    TreedCQRImp.countLeafs numLeafs (t.nodes ++ nodes) =
      TreedCQRImp.countLeafs (numLeafs + t.leafs.length) nodes := by
  induction t generalizing numLeafs nodes with
  | pm id => rfl
  | fm => rfl
  | fetched id => rfl
  | toFm a => cases h
  | op type a b iha ihb =>
    cases type with
    | intersect =>
      have hop : TreedCQRImp.countLeafs numLeafs ((Tree.op .intersect a b).nodes ++ nodes) =
          TreedCQRImp.countLeafs numLeafs (a.nodes ++ (b.nodes ++ nodes)) := by
        rw [Tree.nodes, List.cons_append, TreedCQRImp.countLeafs, List.append_assoc]
      rw [hop, iha h.1, ihb h.2, Tree.leafs, List.length_append, Nat.add_assoc]
    | _ => cases h

theorem countLeafs_eq_none (h : ¬ t.Nice) (numLeafs : Nat) (nodes : List FlatNode) :
    countLeafs numLeafs (t.nodes ++ nodes) = none := by
  induction t generalizing numLeafs nodes with
  | pm id | fm | fetched id => exact absurd trivial h
  | toFm a => rfl
  | op type a b iha ihb =>
    cases type with
    | intersect =>
      have hop : countLeafs numLeafs ((Tree.op .intersect a b).nodes ++ nodes) =
          countLeafs numLeafs (a.nodes ++ (b.nodes ++ nodes)) := by
        rw [Tree.nodes, List.cons_append, countLeafs, List.append_assoc]
      rw [hop]
      by_cases ha : a.Nice
      · rw [ha.countLeafs]
        exact ihb (fun hb => h ⟨ha, hb⟩) _ _
      · exact iha ha _ _
    | unite => rfl
    | diff => rfl
    | symDiff => rfl

theorem leafIndices_spec {stored : Nat} {nodes : List FlatNode} {tmp : List (ItemIndex × Nat)}
    (cellId : Nat) (hvalid : ∀ n ∈ t.nodes, n.Valid stored r.fetchedIdx.length)
    (htmp : r.leafIndices indexType nodes = .ok tmp) :
    ∃ own, r.leafIndices indexType (t.nodes ++ nodes) = .ok (own ++ tmp) ∧
      List.Forall₂ (fun n i => (r.cellItems cellId).leaf n = idSet i.1) t.leafs own := by
  induction t generalizing nodes tmp with
  | pm id =>
    refine ⟨[(r.space.idxStore.at id, indexType (.pmLeaf id))], ?_, .cons rfl .nil⟩
    rw [Tree.nodes, List.singleton_append, leafIndices, htmp]
    rfl
  | fm => exact ⟨[], htmp, .nil⟩
  | fetched id =>
    have hid : id < r.fetchedIdx.length := hvalid _ (List.mem_singleton_self _)
    refine ⟨[(r.fetchedIdx[id], indexType (.fetchedLeaf id))], ?_, .cons ?_ .nil⟩
    · rw [Tree.nodes, List.singleton_append, leafIndices]
      simp only [List.getElem?_eq_getElem hid, htmp, ok_bind, except_pure, List.singleton_append]
    · show idSet (r.fetchedIdx.getD id ItemIndex.empty) = idSet r.fetchedIdx[id]
      rw [List.getD_eq_getElem _ _ hid]
  | toFm a ih =>
    obtain ⟨own, hown, hleafs⟩ := ih (fun n hn => hvalid n (List.mem_cons_of_mem _ hn)) htmp
    exact ⟨own, hown, hleafs⟩
  | op type a b iha ihb =>
    obtain ⟨bOwn, hb, hbLeafs⟩ :=
      ihb (fun n hn => hvalid n (List.mem_cons_of_mem _ (List.mem_append_right _ hn))) htmp
    obtain ⟨aOwn, ha, haLeafs⟩ :=
      iha (fun n hn => hvalid n (List.mem_cons_of_mem _ (List.mem_append_left _ hn))) hb
    refine ⟨aOwn ++ bOwn, ?_, List.rel_append haLeafs hbLeafs⟩
    rw [Tree.nodes, List.cons_append, List.append_assoc, List.append_assoc]
    exact ha

theorem Flattens.hits {e : Items} {out res : Flattened} (h : Flattens e t out res) :
    res.frt = .fetched ∨ res.frt = .fm ∨ res.frt = .pm ↔ t.found e ≠ ⊥ ∨ t.Overlooked e := by
  cases h with
  | pm hstored =>
    refine iff_of_true (.inr (.inr rfl)) ?_
    by_cases hbot : t.found e = ⊥
    · exact .inr (Tree.overlooked_of_isStored hstored hbot)
    · exact .inl hbot
  | fm hfound =>
    refine iff_of_true (.inr (.inl rfl)) (.inl ?_)
    rw [hfound]
    exact top_ne_bot
  | fetched hstored hfound hover =>
    refine iff_of_true (.inl rfl) ?_
    by_cases hbot : t.found e = ⊥
    · exact .inr (hover (coe_idSet_eq_bot.mp (hfound ▸ hbot)))
    · exact .inl hbot
  | kept hstored hover => exact iff_of_true (.inl rfl) (.inr hover)
  | empty hstored hfound hover =>
    refine iff_of_false (by simp) ?_
    rintro (hne | ho)
    · exact hne hfound
    · exact hover ho

theorem Tree.Nice.found_ne_bot {e : Items} (h : t.Nice) :
    t.found e ≠ ⊥ ↔ ∃ id, ∀ n ∈ t.leafs, id ∈ e.leaf n := by
  have hsome : ∀ m : WithTop (Finset Nat),
      m ≠ ⊥ ↔ ∃ id : Nat, (↑({id} : Finset Nat) : WithTop (Finset Nat)) ≤ m := by
    intro m
    induction m using WithTop.recTopCoe with
    | top => exact iff_of_true top_ne_bot ⟨0, le_top⟩
    | coe s =>
      rw [← WithTop.coe_bot, ne_eq, WithTop.coe_inj, Finset.bot_eq_empty, ← ne_eq,
        ← Finset.nonempty_iff_ne_empty]
      simp only [WithTop.coe_le_coe, Finset.singleton_subset_iff]
      rfl
  rw [hsome]
  exact exists_congr fun id => h.mem_found id

theorem Tree.Nice.leafIndices_size {own : List (ItemIndex × Nat)} {e : Items} (h : t.Nice)
    (hleafs : List.Forall₂ (fun n i => e.leaf n = idSet i.1) t.leafs own) (hne : own ≠ []) :
    (ItemIndex.constrainedIntersect own 1).size ≠ 0 ↔ t.found e ≠ ⊥ := by
  rw [ItemIndex.constrainedIntersect_size_ne_zero Nat.one_pos hne, h.found_ne_bot]
  obtain ⟨hto, hfrom⟩ := CellQueryResult.forall₂_exists hleafs
  refine exists_congr fun id => ⟨?_, ?_⟩
  · intro hall n hn
    obtain ⟨i, hi, heq⟩ := hfrom n hn
    rw [heq, mem_idSet]
    exact hall i hi
  · intro hall i hi
    obtain ⟨n, hn, heq⟩ := hto i hi
    rw [← mem_idSet, ← heq]
    exact hall n hn

/-- The shortcut for a tree of intersections, which takes one of full leaves for one without
items. -/
theorem hasHitsCell_nice {stored : Nat} (indexType : FlatNode → Nat) (ht : CellTree r cd t) (hnice : t.Nice)
    (hvalid : ∀ n ∈ t.nodes, n.Valid stored r.fetchedIdx.length) :
    ∃ hits, r.hasHitsCell indexType cd = .ok hits ∧
      (hits = true ↔ (t.found (r.cellItems cd.cellId) ≠ ⊥ ∨
        t.Overlooked (r.cellItems cd.cellId)) ∧ t.leafs ≠ []) := by
  have hcount := hnice.countLeafs 0 []
  rw [List.append_nil, Nat.zero_add, countLeafs] at hcount
  rw [hasHitsCell, ht.slice, ok_bind]
  simp only [hcount]
  by_cases hone : t.leafs.length = 1
  · obtain ⟨n, hleafs⟩ := List.length_eq_one_iff.mp hone
    refine ⟨true, if_pos hone, iff_of_true rfl ⟨?_, by simp [hleafs]⟩⟩
    by_cases hbot : t.found (r.cellItems cd.cellId) = ⊥
    · exact .inr (hnice.overlooked_of_single hleafs hbot)
    · exact .inl hbot
  · have hover : ¬ t.Overlooked (r.cellItems cd.cellId) := fun ho =>
      hone (hnice.length_leafs_of_overlooked ho)
    have hbehind : r.leafIndices indexType [] = .ok [] := rfl
    obtain ⟨own, hown, hleafs⟩ := leafIndices_spec cd.cellId hvalid hbehind
    rw [List.append_nil, List.append_nil] at hown
    rw [if_neg hone, hown, ok_bind]
    refine ⟨_, rfl, ?_⟩
    rw [decide_eq_true_iff, or_iff_left hover]
    by_cases hnil : t.leafs = []
    · rw [hnil] at hleafs
      cases hleafs
      exact iff_of_false (not_not.mpr rfl) fun hboth => hboth.2 hnil
    · have hne : own ≠ [] := by
        rintro rfl
        exact hnil (List.forall₂_nil_right_iff.mp hleafs)
      rw [hnice.leafIndices_size hleafs hne, and_iff_left hnil]

theorem hasHitsCell_slow {stored : Nat} {front back : List FlatNode}
    (indexType : FlatNode → Nat) (ht : CellTree r cd t) (hnice : ¬ t.Nice)
    (htrees : r.trees = front ++ t.nodes ++ back) (hbegin : cd.treeBegin = front.length)
    (hvalid : ∀ n ∈ t.nodes, n.Valid stored r.fetchedIdx.length) :
    ∃ hits, r.hasHitsCell indexType cd = .ok hits ∧
      (hits = true ↔ t.found (r.cellItems cd.cellId) ≠ ⊥ ∨
        t.Overlooked (r.cellItems cd.cellId)) := by
  have hcount := countLeafs_eq_none hnice 0 []
  rw [List.append_nil] at hcount
  have hfuel : t.nodes.length ≤ r.trees.length := by
    rw [htrees]
    simp only [List.length_append]
    omega
  have hflatten : ∃ res, r.flattenCell cd.cellId r.trees.length cd.treeBegin .fresh = .ok res ∧
      Flattens (r.cellItems cd.cellId) t .fresh res :=
    flattenCell_spec .fresh htrees hbegin hvalid hfuel
  obtain ⟨res, hres, hflat⟩ := hflatten
  rw [hasHitsCell, ht.slice, ok_bind]
  simp only [hcount, hres, ok_bind]
  refine ⟨_, rfl, ?_⟩
  rw [decide_eq_true_iff, hflat.hits]

def Seen (r : TreedCQRImp) (cd : CellDesc) : Prop :=
  (r.Hit cd ∨ r.Overlooked cd) ∧ ¬ r.OnlyFull cd

theorem seen_of_noTree (htree : cd.hasTree = false) : r.Seen cd := by
  constructor
  · by_cases hfull : cd.fullMatch = true
    · exact .inl (.inl ⟨htree, .inl hfull⟩)
    by_cases hsize : (r.space.idxStore.at cd.pmIdxId).size = 0
    · exact .inr (.inl ⟨htree, by simpa using hfull, hsize⟩)
    · exact .inl (.inl ⟨htree, .inr hsize⟩)
  · rintro ⟨t, ht, -⟩
    have hhas := ht.hasTree
    rw [htree] at hhas
    cases hhas

theorem CellTree.exists_iff {p : Tree → Prop} (ht : CellTree r cd t) :
    (∃ t', CellTree r cd t' ∧ p t') ↔ p t :=
  ⟨fun ⟨_, ht', h⟩ => ht.eq ht' ▸ h, fun h => ⟨t, ht, h⟩⟩

theorem CellTree.hit_iff (ht : CellTree r cd t) :
    r.Hit cd ↔ t.found (r.cellItems cd.cellId) ≠ ⊥ := by
  simp [Hit, ht.exists_iff, ht.hasTree]

theorem CellTree.overlooked_iff (ht : CellTree r cd t) :
    r.Overlooked cd ↔ t.Overlooked (r.cellItems cd.cellId) := by
  simp [Overlooked, ht.exists_iff, ht.hasTree]

theorem CellTree.onlyFull_iff (ht : CellTree r cd t) : r.OnlyFull cd ↔ t.Nice ∧ t.leafs = [] :=
  ht.exists_iff

theorem hasHitsCell_spec (indexType : FlatNode → Nat) (h : Good sp r) (hcd : cd ∈ r.desc)
    (htree : cd.hasTree = true) :
    ∃ hits, r.hasHitsCell indexType cd = .ok hits ∧ (hits = true ↔ r.Seen cd) := by
  obtain ⟨t, front, back, ht, htrees, hbegin, hvalid⟩ := h.exists_cellTree hcd htree
  rw [Seen, ht.hit_iff, ht.overlooked_iff, ht.onlyFull_iff]
  by_cases hnice : t.Nice
  · obtain ⟨hits, hhits, hiff⟩ := hasHitsCell_nice indexType ht hnice hvalid
    refine ⟨hits, hhits, ?_⟩
    rw [hiff, not_and, ne_eq, imp_iff_right hnice]
  · obtain ⟨hits, hhits, hiff⟩ := hasHitsCell_slow indexType ht hnice htrees hbegin hvalid
    refine ⟨hits, hhits, ?_⟩
    rw [hiff, and_iff_left fun hboth => hnice hboth.1]

theorem hasHitsLoop_spec (h : Good sp r) {desc : List CellDesc} (hdesc : ∀ cd ∈ desc, cd ∈ r.desc)
    (htree : ∀ cd ∈ desc, cd.hasTree = true) :
    ∃ hits, r.hasHitsLoop indexType desc = .ok hits ∧
      (hits = true ↔ ∃ cd ∈ desc, r.Seen cd) := by
  induction desc with
  | nil => exact ⟨false, rfl, by simp⟩
  | cons cd desc ih =>
    obtain ⟨hcd, hdesc⟩ := List.forall_mem_cons.mp hdesc
    obtain ⟨hhas, htree⟩ := List.forall_mem_cons.mp htree
    obtain ⟨hits, hhits, hiff⟩ := hasHitsCell_spec indexType h hcd hhas
    rw [hasHitsLoop, hhits, ok_bind]
    cases hits with
    | true => exact ⟨true, rfl, iff_of_true rfl ⟨cd, List.mem_cons_self, hiff.mp rfl⟩⟩
    | false =>
      obtain ⟨rest, hrest, hrestIff⟩ := ih hdesc htree
      refine ⟨rest, hrest, ?_⟩
      have hnot : ¬ r.Seen cd := fun hseen => Bool.noConfusion (hiff.mpr hseen)
      rw [hrestIff, List.exists_mem_cons_iff, or_iff_right hnot]

theorem hasHits_spec (indexType : FlatNode → Nat) (h : Good sp r) :
    ∃ hits, r.hasHits indexType = .ok hits ∧ (hits = true ↔ ∃ cd ∈ r.desc, r.Seen cd) := by
  rw [hasHits]
  by_cases hany : (r.desc.any fun cd => !cd.hasTree) = true
  · obtain ⟨cd, hcd, hno⟩ := List.any_eq_true.mp hany
    rw [if_pos hany]
    exact ⟨true, rfl, iff_of_true rfl ⟨cd, hcd, seen_of_noTree (by simpa using hno)⟩⟩
  · rw [if_neg hany]
    apply hasHitsLoop_spec h (fun _ hcd => hcd)
    intro cd hcd
    by_contra hno
    exact hany (List.any_eq_true.mpr ⟨cd, hcd, by simpa using hno⟩)

end TreedCQRImp

end Sserialize
