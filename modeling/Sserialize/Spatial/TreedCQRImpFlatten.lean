import Sserialize.Spatial.TreedCQRImpMeaning

namespace Sserialize.TreedCQRImp

inductive FlattenResultType where
  | none
  | pm
  | fm
  | fetched
  | empty
  deriving Repr, DecidableEq

namespace FlattenResultType

def bits : FlattenResultType → Nat
  | none => 0
  | pm => 1
  | fm => 2
  | fetched => 4
  | empty => 8

variable {a b : FlattenResultType}

theorem bits_or_eq_fm (ha : a ≠ none) (hb : b ≠ none) :
    a.bits ||| b.bits = fm.bits ↔ a = fm ∧ b = fm := by
  revert ha hb
  cases a <;> cases b <;> decide

theorem bits_or_and_fm : (a.bits ||| b.bits) &&& fm.bits ≠ 0 ↔ a = fm ∨ b = fm := by
  cases a <;> cases b <;> decide

end FlattenResultType

/-- The parameters that are references. The id may be uninitialised. -/
structure Flattened where
  idx : ItemIndex
  pmIdxId : Option Nat
  frt : FlattenResultType

def Flattened.fresh : Flattened where
  idx := ItemIndex.empty
  pmIdxId := none
  frt := .none

def Flattened.id (a : Flattened) : Except Fault Nat :=
  match a.pmIdxId with
  | some id => .ok id
  | none => .error .undefinedBehaviour

def operandIdx (r : TreedCQRImp) (a : Flattened) : Except Fault ItemIndex :=
  if a.frt = .pm then do
    let id ← a.id
    return r.space.idxStore.at id
  else .ok a.idx

def operandOrFullIdx (r : TreedCQRImp) (cellId : Nat) (a : Flattened) : Except Fault ItemIndex :=
  if a.frt = .fm then .ok (r.space.fullIdx cellId) else r.operandIdx a

/-- An index that was computed, with `FT_EMPTY` for an empty one. -/
def Flattened.setIdx (out : Flattened) (idx : ItemIndex) : Flattened :=
  { out with idx := idx, frt := if idx.size > 0 then .fetched else .empty }

def flattenOp (r : TreedCQRImp) (cellId : Nat) (type : OpType) (a b out : Flattened) :
    Except Fault Flattened :=
  match type with
  | .intersect =>
    if a.frt.bits ||| b.frt.bits = FlattenResultType.fm.bits then .ok { out with frt := .fm }
    else if a.frt = .fm then .ok b
    else if b.frt = .fm then .ok a
    else do
      let aIdx ← r.operandIdx a
      let bIdx ← r.operandIdx b
      return out.setIdx (ItemIndex.apply .intersect aIdx bIdx)
  | .unite =>
    if (a.frt.bits ||| b.frt.bits) &&& FlattenResultType.fm.bits ≠ 0 then
      .ok { out with frt := .fm }
    else do
      let aIdx ← r.operandIdx a
      let bIdx ← r.operandIdx b
      return { out with idx := ItemIndex.apply .unite aIdx bIdx, frt := .fetched }
  | .diff =>
    if b.frt = .fm ∨ a.frt = .empty then .ok { out with frt := .empty }
    else do
      let aIdx ← r.operandOrFullIdx cellId a
      let bIdx ← r.operandIdx b
      return out.setIdx (ItemIndex.apply .difference aIdx bIdx)
  | .symDiff =>
    if a.frt.bits ||| b.frt.bits ≠ FlattenResultType.fm.bits then do
      let aIdx ← r.operandOrFullIdx cellId a
      let bIdx ← r.operandOrFullIdx cellId b
      return out.setIdx (ItemIndex.apply .symmetricDifference aIdx bIdx)
    else .ok { out with frt := .empty }

/-- The recursion below the node at position `n`. A tree whose offsets lead back has no end. -/
def flattenCell (r : TreedCQRImp) (cellId : Nat) : Nat → Nat → Flattened → Except Fault Flattened
  | 0, _, _ => .error .undefinedBehaviour
  | fuel + 1, n, out =>
    match r.trees[n]? with
    | none => .error .undefinedBehaviour
    | some (.pmLeaf pmIdxId) => .ok { out with pmIdxId := some pmIdxId, frt := .pm }
    | some (.fetchedLeaf internalIdxId) =>
      match r.fetchedIdx[internalIdxId]? with
      | none => .error .outOfRange
      | some idx => .ok { out with idx := idx, frt := .fetched }
    | some .fmLeaf => .ok { out with frt := .fm }
    | some .toFm => do
      let a ← flattenCell r cellId fuel (n + 1) .fresh
      if a.frt = .pm ∨ (a.frt = .fetched ∧ a.idx.size ≠ 0) then return { out with frt := .fm }
      else return { out with frt := a.frt }
    | some (.opNode type childB) => do
      let a ← flattenCell r cellId fuel (n + 1) .fresh
      let b ← flattenCell r cellId fuel (n + childB) .fresh
      r.flattenOp cellId type a b out

def idSet (i : ItemIndex) : Finset Nat := i.ids.toFinset

@[simp] theorem mem_idSet {i : ItemIndex} {id : Nat} : id ∈ idSet i ↔ id ∈ i.ids :=
  List.mem_toFinset

theorem idSet_eq_empty {i : ItemIndex} : idSet i = ∅ ↔ i.size = 0 := by
  rw [idSet, List.toFinset_eq_empty_iff, ItemIndex.size_eq_zero]

theorem coe_idSet_eq_bot {i : ItemIndex} :
    (↑(idSet i) : WithTop (Finset Nat)) = ⊥ ↔ i.size = 0 := by
  rw [← WithTop.coe_bot, WithTop.coe_inj, Finset.bot_eq_empty, idSet_eq_empty]

variable (i j : ItemIndex)

theorem idSet_intersect : idSet (ItemIndex.apply .intersect i j) = idSet i ⊓ idSet j := by
  ext id
  rw [mem_idSet, ItemIndex.mem_apply, Finset.inf_eq_inter, Finset.mem_inter, mem_idSet, mem_idSet]
  rfl

theorem idSet_unite : idSet (ItemIndex.apply .unite i j) = idSet i ⊔ idSet j := by
  ext id
  rw [mem_idSet, ItemIndex.mem_apply, Finset.sup_eq_union, Finset.mem_union, mem_idSet, mem_idSet]
  rfl

theorem idSet_difference : idSet (ItemIndex.apply .difference i j) = idSet i \ idSet j := by
  ext id
  rw [mem_idSet, ItemIndex.mem_apply, Finset.mem_sdiff, mem_idSet, mem_idSet]
  rfl

theorem idSet_symmetricDifference :
    idSet (ItemIndex.apply .symmetricDifference i j) = symmDiff (idSet i) (idSet j) := by
  ext id
  rw [mem_idSet, ItemIndex.mem_apply, Finset.mem_symmDiff, mem_idSet, mem_idSet]
  rfl

def cellItems (r : TreedCQRImp) (cellId : Nat) : Items where
  stored pmIdxId := idSet (r.space.idxStore.at pmIdxId)
  fetched internalIdxId := idSet (r.fetchedIdx.getD internalIdxId ItemIndex.empty)
  all := idSet (r.space.fullIdx cellId)

/-- How the result for a tree is told. An index that is not written is that of the caller. -/
inductive Flattens (e : Items) (t : Tree) (out : Flattened) : Flattened → Prop
  | pm {idx : ItemIndex} {pmIdxId : Nat} (hstored : t.isStored e = true)
      (hfound : t.found e = ↑(e.stored pmIdxId)) (hidx : idx = out.idx ∨ idx = ItemIndex.empty) :
      Flattens e t out ⟨idx, some pmIdxId, .pm⟩
  | fm {id : Option Nat} (hfound : t.found e = ⊤) : Flattens e t out ⟨out.idx, id, .fm⟩
  | fetched {idx : ItemIndex} {id : Option Nat} (hstored : t.isStored e = false)
      (hfound : t.found e = ↑(idSet idx)) (hover : idx.size = 0 → t.Overlooked e) :
      Flattens e t out ⟨idx, id, .fetched⟩
  | kept {id : Option Nat} (hstored : t.isStored e = false) (hover : t.Overlooked e) :
      Flattens e t out ⟨out.idx, id, .fetched⟩
  | empty {idx : ItemIndex} {id : Option Nat} (hstored : t.isStored e = false)
      (hfound : t.found e = ⊥) (hover : ¬ t.Overlooked e)
      (hidx : idx = out.idx ∨ idx.size = 0) : Flattens e t out ⟨idx, id, .empty⟩

variable {r : TreedCQRImp} {cellId : Nat} {e : Items} {t a b : Tree} {out aRes bRes : Flattened}

namespace Flattens

theorem frt_eq_fm (h : Flattens e t out aRes) : aRes.frt = .fm ↔ t.found e = ⊤ := by
  cases h with
  | pm hstored => simp [Tree.found_ne_top_of_isStored hstored]
  | fm hfound | fetched _ hfound | empty _ hfound => simp [hfound]
  | kept _ hover => simp [hover.found_eq_bot]

theorem frt_ne_none (h : Flattens e t out aRes) : aRes.frt ≠ .none := by
  cases h <;> exact FlattenResultType.noConfusion

theorem bits_or_eq_fm (ha : Flattens e a out aRes) (hb : Flattens e b out bRes) :
    aRes.frt.bits ||| bRes.frt.bits = FlattenResultType.fm.bits ↔
      a.found e = ⊤ ∧ b.found e = ⊤ := by
  rw [FlattenResultType.bits_or_eq_fm ha.frt_ne_none hb.frt_ne_none, ha.frt_eq_fm, hb.frt_eq_fm]

theorem bits_or_and_fm (ha : Flattens e a out aRes) (hb : Flattens e b out bRes) :
    (aRes.frt.bits ||| bRes.frt.bits) &&& FlattenResultType.fm.bits ≠ 0 ↔
      a.found e = ⊤ ∨ b.found e = ⊤ := by
  rw [FlattenResultType.bits_or_and_fm, ha.frt_eq_fm, hb.frt_eq_fm]

theorem operandIdx (h : Flattens (r.cellItems cellId) t .fresh aRes)
    (htop : t.found (r.cellItems cellId) ≠ ⊤) :
    ∃ i, r.operandIdx aRes = .ok i ∧ t.found (r.cellItems cellId) = ↑(idSet i) := by
  cases h with
  | @pm _ id _ hfound => exact ⟨r.space.idxStore.at id, rfl, hfound⟩
  | fm hfound => exact absurd hfound htop
  | @fetched idx _ _ hfound => exact ⟨idx, rfl, hfound⟩
  | kept _ hover => exact ⟨ItemIndex.empty, rfl, hover.found_eq_bot⟩
  | @empty idx _ _ hfound _ hidx =>
    refine ⟨idx, rfl, hfound.trans (coe_idSet_eq_bot.mpr ?_).symm⟩
    rcases hidx with rfl | hsize
    · rfl
    · exact hsize

theorem operandOrFullIdx (h : Flattens (r.cellItems cellId) t .fresh aRes) :
    ∃ i, r.operandOrFullIdx cellId aRes = .ok i ∧
      (r.cellItems cellId).of (t.found (r.cellItems cellId)) = idSet i := by
  rw [TreedCQRImp.operandOrFullIdx]
  by_cases htop : t.found (r.cellItems cellId) = ⊤
  · rw [if_pos (h.frt_eq_fm.mpr htop), htop]
    exact ⟨_, rfl, rfl⟩
  · obtain ⟨i, hi, hfound⟩ := h.operandIdx htop
    rw [if_neg (fun hfm => htop (h.frt_eq_fm.mp hfm)), hi, hfound]
    exact ⟨i, rfl, rfl⟩

theorem setIdx {idx : ItemIndex} (hstored : t.isStored e = false) (hover : ¬ t.Overlooked e)
    (hfound : t.found e = ↑(idSet idx)) : Flattens e t out (out.setIdx idx) := by
  rw [Flattened.setIdx]
  split
  next hsize => exact .fetched hstored hfound fun h => absurd h (by omega)
  next hsize =>
    have hzero : idx.size = 0 := by omega
    exact .empty hstored (hfound.trans (coe_idSet_eq_bot.mpr hzero)) hover (.inr hzero)

theorem pass (h : Flattens e a .fresh aRes) (htop : t.found e = a.found e)
    (hstored : t.isStored e = a.isStored e) (hover : t.Overlooked e ↔ a.Overlooked e)
    (hnot : a.found e ≠ ⊤) : Flattens e t out aRes := by
  rw [← htop] at hnot
  cases h with
  | pm hs hfound hidx =>
    exact .pm (hstored.trans hs) (htop.trans hfound) (.inr (hidx.elim id id))
  | fm hfound => exact absurd (htop.trans hfound) hnot
  | fetched hs hfound ho =>
    exact .fetched (hstored.trans hs) (htop.trans hfound) fun hsize => hover.mpr (ho hsize)
  | kept hs ho =>
    have hfound : a.found e = ↑(idSet Flattened.fresh.idx) := ho.found_eq_bot
    exact .fetched (hstored.trans hs) (htop.trans hfound) fun _ => hover.mpr ho
  | empty hs hfound ho hidx =>
    refine .empty (hstored.trans hs) (htop.trans hfound) (fun h => ho (hover.mp h)) (.inr ?_)
    rcases hidx with rfl | hsize
    · rfl
    · exact hsize

end Flattens

variable (ha : Flattens (r.cellItems cellId) a .fresh aRes)
  (hb : Flattens (r.cellItems cellId) b .fresh bRes)

include ha hb

theorem flattenOp_intersect (out : Flattened) :
    ∃ res, r.flattenOp cellId .intersect aRes bRes out = .ok res ∧
      Flattens (r.cellItems cellId) (.op .intersect a b) out res := by
  rw [flattenOp]
  by_cases hatop : a.found (r.cellItems cellId) = ⊤
  · by_cases hbtop : b.found (r.cellItems cellId) = ⊤
    · rw [if_pos ((ha.bits_or_eq_fm hb).mpr ⟨hatop, hbtop⟩)]
      exact ⟨_, rfl, .fm (by rw [Tree.found_intersect, hatop, hbtop, inf_top_eq])⟩
    · rw [if_neg (fun h => hbtop ((ha.bits_or_eq_fm hb).mp h).2),
        if_pos (ha.frt_eq_fm.mpr hatop)]
      refine ⟨bRes, rfl, hb.pass ?_ ?_ ?_ hbtop⟩
      · rw [Tree.found_intersect, hatop, top_inf_eq]
      · simp [Tree.isStored_intersect, hatop, hbtop]
      · simp [Tree.overlooked_intersect, hatop, hbtop]
  · rw [if_neg (fun h => hatop ((ha.bits_or_eq_fm hb).mp h).1),
      if_neg (fun h => hatop (ha.frt_eq_fm.mp h))]
    by_cases hbtop : b.found (r.cellItems cellId) = ⊤
    · rw [if_pos (hb.frt_eq_fm.mpr hbtop)]
      refine ⟨aRes, rfl, ha.pass ?_ ?_ ?_ hatop⟩
      · rw [Tree.found_intersect, hbtop, inf_top_eq]
      · simp [Tree.isStored_intersect, hatop, hbtop]
      · simp [Tree.overlooked_intersect, hatop, hbtop]
    · obtain ⟨i, hi, hafound⟩ := ha.operandIdx hatop
      obtain ⟨j, hj, hbfound⟩ := hb.operandIdx hbtop
      rw [if_neg (fun h => hbtop (hb.frt_eq_fm.mp h)), hi, ok_bind, hj]
      refine ⟨_, rfl, .setIdx ?_ ?_ ?_⟩
      · simp [Tree.isStored_intersect, hatop, hbtop]
      · simp [Tree.overlooked_intersect, hatop, hbtop]
      · rw [Tree.found_intersect, hafound, hbfound, idSet_intersect]
        rfl

theorem flattenOp_unite (out : Flattened) :
    ∃ res, r.flattenOp cellId .unite aRes bRes out = .ok res ∧
      Flattens (r.cellItems cellId) (.op .unite a b) out res := by
  rw [flattenOp]
  by_cases htop : a.found (r.cellItems cellId) = ⊤ ∨ b.found (r.cellItems cellId) = ⊤
  · rw [if_pos ((ha.bits_or_and_fm hb).mpr htop)]
    refine ⟨_, rfl, .fm ?_⟩
    rw [Tree.found_unite]
    rcases htop with hatop | hbtop
    · rw [hatop, top_sup_eq]
    · rw [hbtop, sup_top_eq]
  · obtain ⟨hatop, hbtop⟩ := not_or.mp htop
    obtain ⟨i, hi, hafound⟩ := ha.operandIdx hatop
    obtain ⟨j, hj, hbfound⟩ := hb.operandIdx hbtop
    rw [if_neg (fun h => htop ((ha.bits_or_and_fm hb).mp h)), hi, ok_bind, hj]
    have hfound : Tree.found (r.cellItems cellId) (.op .unite a b) =
        ↑(idSet (ItemIndex.apply .unite i j)) := by
      rw [Tree.found_unite, hafound, hbfound, idSet_unite]
      rfl
    refine ⟨_, rfl, .fetched rfl hfound ?_⟩
    intro hsize
    rw [← coe_idSet_eq_bot, ← hfound, Tree.found_unite, sup_eq_bot_iff] at hsize
    exact hsize

theorem flattenOp_diff (out : Flattened) :
    ∃ res, r.flattenOp cellId .diff aRes bRes out = .ok res ∧
      Flattens (r.cellItems cellId) (.op .diff a b) out res := by
  have hover : ¬ Tree.Overlooked (r.cellItems cellId) (.op .diff a b) := id
  rw [flattenOp]
  by_cases hbtop : b.found (r.cellItems cellId) = ⊤
  · rw [if_pos (Or.inl (hb.frt_eq_fm.mpr hbtop))]
    refine ⟨_, rfl, .empty rfl ?_ hover (.inl rfl)⟩
    rw [Tree.found_diff, if_pos hbtop]
  by_cases haempty : aRes.frt = .empty
  · rw [if_pos (Or.inr haempty)]
    refine ⟨_, rfl, .empty rfl ?_ hover (.inl rfl)⟩
    rw [Tree.found_diff, if_neg hbtop]
    have hafound : a.found (r.cellItems cellId) = ⊥ := by
      cases ha with
      | empty _ hfound => exact hfound
      | _ => cases haempty
    rw [hafound]
    show (↑(∅ \ _ : Finset Nat) : WithTop (Finset Nat)) = ⊥
    rw [Finset.empty_sdiff]
    rfl
  · obtain ⟨i, hi, hafound⟩ := ha.operandOrFullIdx
    obtain ⟨j, hj, hbfound⟩ := hb.operandIdx hbtop
    rw [if_neg (fun h => h.elim (fun h => hbtop (hb.frt_eq_fm.mp h)) haempty), hi, ok_bind, hj]
    refine ⟨_, rfl, .setIdx rfl hover ?_⟩
    rw [Tree.found_diff, if_neg hbtop, hafound, hbfound, idSet_difference]
    rfl

theorem flattenOp_symDiff (out : Flattened) :
    ∃ res, r.flattenOp cellId .symDiff aRes bRes out = .ok res ∧
      Flattens (r.cellItems cellId) (.op .symDiff a b) out res := by
  have hover : ¬ Tree.Overlooked (r.cellItems cellId) (.op .symDiff a b) := id
  rw [flattenOp]
  by_cases htop : a.found (r.cellItems cellId) = ⊤ ∧ b.found (r.cellItems cellId) = ⊤
  · rw [if_neg (not_not.mpr ((ha.bits_or_eq_fm hb).mpr htop))]
    refine ⟨_, rfl, .empty rfl ?_ hover (.inl rfl)⟩
    rw [Tree.found_symDiff, htop.1, htop.2, symmDiff_self]
    rfl
  · obtain ⟨i, hi, hafound⟩ := ha.operandOrFullIdx
    obtain ⟨j, hj, hbfound⟩ := hb.operandOrFullIdx
    rw [if_pos (fun h => htop ((ha.bits_or_eq_fm hb).mp h)), hi, ok_bind, hj]
    refine ⟨_, rfl, .setIdx rfl hover ?_⟩
    rw [Tree.found_symDiff, hafound, hbfound, idSet_symmetricDifference]

theorem flattenOp_spec (type : OpType) (out : Flattened) :
    ∃ res, r.flattenOp cellId type aRes bRes out = .ok res ∧
      Flattens (r.cellItems cellId) (.op type a b) out res := by
  cases type with
  | intersect => exact flattenOp_intersect ha hb out
  | unite => exact flattenOp_unite ha hb out
  | diff => exact flattenOp_diff ha hb out
  | symDiff => exact flattenOp_symDiff ha hb out

omit hb

theorem flattenToFm_spec (out : Flattened) :
    Flattens (r.cellItems cellId) (.toFm a) out
      (if aRes.frt = .pm ∨ (aRes.frt = .fetched ∧ aRes.idx.size ≠ 0) then { out with frt := .fm }
        else { out with frt := aRes.frt }) := by
  cases ha with
  | pm hstored =>
    rw [if_pos (Or.inl rfl)]
    exact .fm (by rw [Tree.found_toFm, if_pos (Or.inl hstored)])
  | fm hfound =>
    rw [if_neg (by simp)]
    exact .fm (by rw [Tree.found_toFm, if_pos (Or.inr (by rw [hfound]; exact top_ne_bot))])
  | @fetched idx _ hstored hfound hover =>
    by_cases hsize : idx.size = 0
    · rw [if_neg (by simp [hsize])]
      exact .kept rfl ⟨hover hsize, hstored⟩
    · rw [if_pos (Or.inr ⟨rfl, hsize⟩)]
      refine .fm ?_
      rw [Tree.found_toFm, if_pos (Or.inr _)]
      rw [hfound, ne_eq, coe_idSet_eq_bot]
      exact hsize
  | kept hstored hover =>
    rw [if_neg (by simp [Flattened.fresh, ItemIndex.empty, ItemIndex.size])]
    exact .kept rfl ⟨hover, hstored⟩
  | empty hstored hfound hover =>
    rw [if_neg (by simp)]
    refine .empty rfl ?_ (fun h => hover h.1) (.inl rfl)
    rw [Tree.found_toFm, if_neg]
    simp [hstored, hfound]

omit ha

theorem reads_node {fuel n : Nat} {front back nodes : List FlatNode} {m : FlatNode}
    (htrees : r.trees = front ++ (m :: nodes) ++ back) (hn : n = front.length)
    (hfuel : (m :: nodes).length ≤ fuel) :
    r.trees[n]? = some m ∧ ∃ fuel', fuel = fuel' + 1 ∧ nodes.length ≤ fuel' := by
  constructor
  · rw [htrees, List.append_assoc, hn, List.getElem?_append_right (Nat.le_refl _), Nat.sub_self]
    rfl
  · rw [List.length_cons] at hfuel
    exact ⟨fuel - 1, by omega, by omega⟩

/-- By induction on the tree: its nodes are those from the position on, and the fuel is enough for
them. -/
theorem flattenCell_spec {stored fuel n : Nat} {front back : List FlatNode} (out : Flattened)
    (htrees : r.trees = front ++ t.nodes ++ back) (hn : n = front.length)
    (hvalid : ∀ m ∈ t.nodes, m.Valid stored r.fetchedIdx.length)
    (hfuel : t.nodes.length ≤ fuel) :
    ∃ res, flattenCell r cellId fuel n out = .ok res ∧
      Flattens (r.cellItems cellId) t out res := by
  induction t generalizing fuel n front back out with
  | pm id =>
    obtain ⟨hnode, fuel, rfl, -⟩ := reads_node htrees hn hfuel
    simp only [flattenCell, hnode]
    exact ⟨_, rfl, .pm rfl rfl (.inl rfl)⟩
  | fm =>
    obtain ⟨hnode, fuel, rfl, -⟩ := reads_node htrees hn hfuel
    simp only [flattenCell, hnode]
    exact ⟨_, rfl, .fm rfl⟩
  | fetched id =>
    obtain ⟨hnode, fuel, rfl, -⟩ := reads_node htrees hn hfuel
    have hid : id < r.fetchedIdx.length := hvalid _ (List.mem_singleton_self _)
    have hitems : (r.cellItems cellId).fetched id = idSet r.fetchedIdx[id] := by
      rw [← List.getD_eq_getElem r.fetchedIdx ItemIndex.empty hid]
      rfl
    simp only [flattenCell, hnode, List.getElem?_eq_getElem hid]
    refine ⟨_, rfl, .fetched rfl ?_ ?_⟩
    · rw [Tree.found_fetched, hitems]
    · intro hsize
      rw [Tree.Overlooked, hitems]
      exact idSet_eq_empty.mpr hsize
  | toFm a ih =>
    obtain ⟨hnode, fuel, rfl, hrest⟩ := reads_node htrees hn hfuel
    have hnext : n + 1 = (front ++ [FlatNode.toFm]).length := by simp [hn]
    have htrees' : r.trees = front ++ [FlatNode.toFm] ++ a.nodes ++ back := by
      simp [htrees, Tree.nodes]
    obtain ⟨aRes, ha, hflat⟩ := ih .fresh htrees' hnext
      (fun m hm => hvalid m (List.mem_cons_of_mem _ hm)) hrest
    simp only [flattenCell, hnode, ha, ok_bind]
    refine ⟨_, ?_, flattenToFm_spec hflat out⟩
    split <;> rfl
  | op type a b iha ihb =>
    obtain ⟨hnode, fuel, rfl, hrest⟩ := reads_node htrees hn hfuel
    rw [List.length_append] at hrest
    have hnextA : n + 1 = (front ++ [FlatNode.opNode type (1 + a.nodes.length)]).length := by
      simp [hn]
    have hnextB : n + (1 + a.nodes.length) =
        (front ++ FlatNode.opNode type (1 + a.nodes.length) :: a.nodes).length := by
      rw [List.length_append, List.length_cons, hn, Nat.add_comm 1]
    have htreesA : r.trees = front ++ [FlatNode.opNode type (1 + a.nodes.length)] ++ a.nodes ++
        (b.nodes ++ back) := by
      simp [htrees, Tree.nodes]
    have htreesB : r.trees = front ++ FlatNode.opNode type (1 + a.nodes.length) :: a.nodes ++
        b.nodes ++ back := by
      simp [htrees, Tree.nodes]
    obtain ⟨aRes, ha, hflatA⟩ := iha .fresh htreesA hnextA
      (fun m hm => hvalid m (List.mem_cons_of_mem _ (List.mem_append_left _ hm)))
      (Nat.le_trans (Nat.le_add_right _ _) hrest)
    obtain ⟨bRes, hb, hflatB⟩ := ihb .fresh htreesB hnextB
      (fun m hm => hvalid m (List.mem_cons_of_mem _ (List.mem_append_right _ hm)))
      (Nat.le_trans (Nat.le_add_left _ _) hrest)
    simp only [flattenCell, hnode, ha, hb, ok_bind]
    exact flattenOp_spec hflatA hflatB type out

end Sserialize.TreedCQRImp
