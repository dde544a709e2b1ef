import Sserialize.Spatial.CellQueryResultDiff
import Sserialize.Spatial.GeoHierarchySubSet
import Mathlib.Data.List.Induction

namespace Sserialize

namespace GeoHierarchy

variable {gh : GeoHierarchy}

theorem foldlM_read {σ α β : Type} {read : α → Except Fault β} {f : σ → β → Except Fault σ}
    {ps : List α} {xs : List β} (h : ps.mapM read = .ok xs) (s : σ) :
    (ps.foldlM (fun s p => do let x ← read p; f s x) s) = xs.foldlM f s := by
  induction ps generalizing xs s with
  | nil =>
    obtain rfl : [] = xs := Except.ok.inj h
    rfl
  | cons p ps ih =>
    rw [List.mapM_cons] at h
    obtain ⟨x, hx, h⟩ := bind_eq_ok h
    obtain ⟨xs', hxs, h⟩ := bind_eq_ok h
    obtain rfl : x :: xs' = xs := Except.ok.inj h
    rw [List.foldlM_cons, hx, ok_bind, List.foldlM_cons]
    congr 1
    funext s'
    exact ih hxs s'

theorem Tables.regionSize_eq (h : gh.Tables) : gh.regionSize = gh.regions.length - 2 := by
  have hpos : 0 < gh.regions.length := by have hrows := h.regionRows.1; omega
  rw [regionSize, if_pos hpos, sub32_of_le h.regionRows.1 h.regionRows.2]

namespace WellFormed

theorem cellSize_eq (h : gh.WellFormed) : gh.cellSize = gh.cells.length - 1 :=
  if_pos h.cellRows.1

variable {id : Nat}

theorem cellAt_eq (h : gh.WellFormed) (hid : id ≤ gh.cellSize) :
    checkedAt gh.cells id = .ok (gh.cellAt id) ∧ gh.cellAt id ∈ gh.cells := by
  have hlt : id < gh.cells.length := by
    have hsize := h.cellSize_eq
    have hrows := h.cellRows.1
    omega
  have hget : gh.cells[id]? = some (gh.cellAt id) := by
    rw [cellAt, List.getD_eq_getElem?_getD, List.getElem?_eq_getElem hlt, Option.getD_some]
  exact ⟨checkedAt_of_getElem hget, List.mem_of_getElem? hget⟩

theorem regionAt_eq (h : gh.WellFormed) (hid : id < gh.regionSize) :
    checkedAt gh.regions id = .ok (gh.regionAt id) ∧ gh.regionAt id ∈ gh.regions := by
  have hlt : id < gh.regions.length := by
    have hsize := h.regionSize_eq
    omega
  have hget : gh.regions[id]? = some (gh.regionAt id) := by
    rw [regionAt, List.getD_eq_getElem?_getD, List.getElem?_eq_getElem hlt, Option.getD_some]
  exact ⟨checkedAt_of_getElem hget, List.mem_of_getElem? hget⟩

theorem cellParents_read (h : gh.WellFormed) (hid : id < gh.cellSize) :
    ∃ b e, gh.cellParentsBegin id = .ok b ∧ gh.cellParentsEnd id = .ok e ∧
      (loopPositions b e).mapM gh.cellPtr = .ok (gh.cellParents id) := by
  obtain ⟨hrow, -⟩ := h.cellAt_eq (Nat.le_of_lt hid)
  obtain ⟨hnext, hnextMem⟩ := h.cellAt_eq (show id + 1 ≤ gh.cellSize from hid)
  have hlt : id + 1 < 2 ^ 32 := by
    have hsize := h.cellSize_eq
    have hrows := h.cellRows
    omega
  refine ⟨_, (gh.cellAt (id + 1)).parentsBegin, ?_, ?_, mapM_checkedAt ?_ ?_ h.cellPtrsSize⟩
  · rw [cellParentsBegin, hrow, ok_bind]
    rfl
  · rw [cellParentsEnd, u32_of_lt hlt, cellParentsBegin, hnext, ok_bind]
    rfl
  · exact le_trans (Nat.le_add_right _ _) (h.cellPtrsAscend id hid)
  · exact le_trans (Nat.le_add_right _ _) (h.cellPtrsEnd _ hnextMem)

theorem parents_read (h : gh.WellFormed) (hid : id < gh.regionSize) :
    ∃ b e, gh.regionParentsBegin id = .ok b ∧ gh.regionParentsEnd id = .ok e ∧
      (loopPositions b e).mapM gh.regionPtr = .ok (gh.parents id) ∧ (b = e ↔ gh.parents id = []) := by
  obtain ⟨hrow, hmem⟩ := h.regionAt_eq hid
  have hend := h.regionPtrsEnd _ hmem
  have hsize := h.regionPtrsSize
  refine ⟨(gh.regionAt id).childrenBegin + (gh.regionAt id).parentsOffset,
    (gh.regionAt id).childrenBegin + (gh.regionAt id).parentsOffset +
      (gh.regionAt id).neighborsOffset, ?_, ?_, mapM_checkedAt (Nat.le_add_right _ _) hend hsize, ?_⟩
  · rw [regionParentsBegin, hrow, ok_bind, u32_of_lt (by omega)]
    rfl
  · have hbegin : u32 ((gh.regionAt id).childrenBegin + (gh.regionAt id).parentsOffset) =
        (gh.regionAt id).childrenBegin + (gh.regionAt id).parentsOffset := u32_of_lt (by omega)
    rw [regionParentsEnd, hrow, ok_bind, hbegin, u32_of_lt (by omega)]
    rfl
  · have hlength : (gh.parents id).length = (gh.regionAt id).neighborsOffset := by
      simp only [parents, slice, List.length_take, List.length_drop]
      omega
    rw [← List.length_eq_zero_iff, hlength]
    omega

end WellFormed

end GeoHierarchy

namespace SubSet

open GeoHierarchy

variable {T : Type}

/-- What a container does for the ids in `dom` while `inv` holds of it. -/
structure Container.Spec (C : Container T) (dom : Nat → Prop) (inv : T → Prop)
    (get : T → Nat → Option Nat) : Prop where
  find_eq : ∀ t id, inv t → dom id → C.find t id = .ok (get t id)
  assign_eq : ∀ t id n, inv t → dom id → ∃ t', C.assign t id n = .ok t' ∧ inv t' ∧
    ∀ id', get t' id' = if id' = id then some n else get t id'

theorem array_spec (size : Nat) :
    array.Spec (· < size) (fun t => t.length = size) fun t id => t.getD id none where
  find_eq t id hinv hid := by
    have hlt : id < t.length := by rw [hinv]; exact hid
    simp only [array, List.getElem?_eq_getElem hlt, List.getD_eq_getElem?_getD, Option.getD_some]
  assign_eq t id n hinv hid := by
    have hlt : id < t.length := by rw [hinv]; exact hid
    refine ⟨t.set id (some n), if_pos hlt, by rw [List.length_set, hinv], ?_⟩
    intro id'
    rw [List.getD_eq_getElem?_getD, List.getElem?_set, List.getD_eq_getElem?_getD]
    by_cases heq : id = id'
    · rw [if_pos heq, if_pos hlt, if_pos heq.symm, Option.getD_some]
    · rw [if_neg heq, if_neg (Ne.symm heq)]

theorem hashMap_spec :
    hashMap.Spec (fun _ => True) (fun t => (OrderedMap.keys t).Nodup)
      fun t id => OrderedMap.lookup id t where
  find_eq _ _ _ _ := rfl
  assign_eq t id n hinv _ := by
    refine ⟨OrderedMap.assign id n t, rfl, OrderedMap.nodup_assign id n hinv, ?_⟩
    intro id'
    exact OrderedMap.lookup_assign id id' n t

@[simp] theorem State.length_modify (st : State T) (n : Nat) (f : Node → Node) :
    (st.modify n f).heap.length = st.heap.length := by
  rw [modify, List.length_modify]

theorem State.modify_self {st : State T} {n : Nat} {nd : Node} (h : st.heap[n]? = some nd)
    (f : Node → Node) : (st.modify n f).heap[n]? = some (f nd) := by
  rw [modify, List.getElem?_modify, h, Option.map_eq_map, Option.map_some, if_pos rfl]

theorem State.modify_ne (st : State T) {n m : Nat} (f : Node → Node) (h : m ≠ n) :
    (st.modify n f).heap[m]? = st.heap[m]? := by
  rw [modify, List.getElem?_modify]
  cases st.heap[m]? with
  | none => rfl
  | some nd => rw [Option.map_eq_map, Option.map_some, if_neg (Ne.symm h)]

def Node.collect (ghId : Nat) (visits : List (Nat × Nat)) : Node :=
  visits.foldl (fun n v => n.addCell v.1 v.2) (Node.create ghId 0)

theorem Node.collect_append (ghId : Nat) (visits : List (Nat × Nat)) (pos items : Nat) :
    Node.collect ghId (visits ++ [(pos, items)]) = (Node.collect ghId visits).addCell pos items := by
  rw [collect, List.foldl_append]
  rfl

theorem Node.collect_eq (ghId : Nat) (visits : List (Nat × Nat)) :
    Node.collect ghId visits =
      ⟨ghId, [], u32 (visits.map Prod.snd).sum, visits.map Prod.fst⟩ := by
  induction visits using List.reverseRecOn with
  | nil => rfl
  | append_singleton visits v ih =>
    rw [Node.collect_append, ih]
    simp only [addCell, u32_add_u32, List.map_append, List.sum_append, List.map_cons, List.map_nil,
      List.sum_cons, List.sum_nil, Nat.add_zero]

@[simp] theorem Node.ghId_collect (ghId : Nat) (visits : List (Nat × Nat)) :
    (Node.collect ghId visits).ghId = ghId := by rw [Node.collect_eq]

def visitsOf (visits : List (Nat × Nat × Nat)) (region : Nat) : List (Nat × Nat) :=
  (visits.filter fun v => v.1 = region).map Prod.snd

theorem visitsOf_append (visits : List (Nat × Nat × Nat)) (v : Nat × Nat × Nat) (region : Nat) :
    visitsOf (visits ++ [v]) region =
      visitsOf visits region ++ if v.1 = region then [v.2] else [] := by
  by_cases h : v.1 = region
  · simp [visitsOf, List.filter_append, h]
  · simp [visitsOf, List.filter_append, h]

/-- The state after some visits of regions: every region that was visited has one node, which has
collected the visits, and there are no other nodes but the root. -/
structure Filled (inv : T → Prop) (get : T → Nat → Option Nat) (st : State T)
    (rootVisits : List (Nat × Nat)) (visits : List (Nat × Nat × Nat)) : Prop where
  inv : inv st.nodes
  root : st.heap[rootNode]? = some (Node.collect npos rootVisits)
  node : ∀ id n, get st.nodes id = some n →
    n ≠ rootNode ∧ st.heap[n]? = some (Node.collect id (visitsOf visits id))
  owner : ∀ n < st.heap.length, n ≠ rootNode → ∃ id, get st.nodes id = some n
  visited : ∀ id, (∃ n, get st.nodes id = some n) ↔ ∃ v ∈ visits, v.1 = id

namespace Filled

variable {C : Container T} {dom : Nat → Prop} {inv : T → Prop} {get : T → Nat → Option Nat}
  {st : State T} {rootVisits : List (Nat × Nat)} {visits : List (Nat × Nat × Nat)}

theorem inj (h : Filled inv get st rootVisits visits) {id id' n : Nat}
    (hid : get st.nodes id = some n) (hid' : get st.nodes id' = some n) : id = id' := by
  have hn := (h.node id n hid).2
  rw [(h.node id' n hid').2] at hn
  have hghId := congrArg Node.ghId (Option.some.inj hn)
  rw [Node.ghId_collect, Node.ghId_collect] at hghId
  exact hghId.symm

theorem lt_length (h : Filled inv get st rootVisits visits) {id n : Nat}
    (hid : get st.nodes id = some n) : n < st.heap.length :=
  (List.getElem?_eq_some_iff.mp (h.node id n hid).2).1

theorem start {nodes : T} (hinv : inv nodes) (hempty : ∀ id, get nodes id = none) :
    Filled inv get (State.start nodes) [] [] where
  inv := hinv
  root := rfl
  node id n hid := by
    rw [State.start, hempty] at hid
    cases hid
  owner n hn hne := by
    have hn' : n < 1 := hn
    exact absurd (Nat.lt_one_iff.mp hn') hne
  visited id := by
    constructor
    · rintro ⟨n, hn⟩
      rw [State.start, hempty] at hn
      cases hn
    · rintro ⟨v, hv, -⟩
      cases hv

theorem visitRoot (h : Filled inv get st rootVisits visits) (pos items : Nat) :
    Filled inv get (st.modify rootNode (Node.addCell pos items)) (rootVisits ++ [(pos, items)])
      visits where
  inv := h.inv
  root := by rw [Node.collect_append, State.modify_self h.root]
  node id n hid := by
    obtain ⟨hne, hget⟩ := h.node id n hid
    exact ⟨hne, by rw [State.modify_ne _ _ hne, hget]⟩
  owner n hn hne := h.owner n (by simpa using hn) hne
  visited := h.visited

theorem revisit (h : Filled inv get st rootVisits visits) {id n : Nat}
    (hid : get st.nodes id = some n) (pos items : Nat) :
    Filled inv get (st.modify n (Node.addCell pos items)) rootVisits
      (visits ++ [(id, pos, items)]) where
  inv := h.inv
  root := by rw [State.modify_ne _ _ (h.node id n hid).1.symm, h.root]
  node id' n' hid' := by
    obtain ⟨hne, hget⟩ := h.node id' n' hid'
    refine ⟨hne, ?_⟩
    by_cases heq : id = id'
    · obtain rfl := heq
      obtain rfl : n = n' := Option.some.inj (hid.symm.trans hid')
      rw [State.modify_self hget, visitsOf_append, if_pos rfl, Node.collect_append]
    · have hn : n' ≠ n := fun hn => heq (h.inj hid (hn ▸ hid'))
      rw [State.modify_ne _ _ hn, hget, visitsOf_append, if_neg heq, List.append_nil]
  owner m hm hne := h.owner m (by simpa using hm) hne
  visited id' := by
    constructor
    · intro hex
      obtain ⟨v, hv, hvid⟩ := (h.visited id').mp hex
      exact ⟨v, List.mem_append_left _ hv, hvid⟩
    · rintro ⟨v, hv, hvid⟩
      rcases List.mem_append.mp hv with hv | hv
      · exact (h.visited id').mpr ⟨v, hv, hvid⟩
      · obtain rfl := List.mem_singleton.mp hv
        exact ⟨n, hvid ▸ hid⟩

theorem create (hC : C.Spec dom inv get) (h : Filled inv get st rootVisits visits) {id : Nat}
    (hid : dom id) (hnone : get st.nodes id = none) (pos items : Nat) :
    ∃ nodes, C.assign st.nodes id st.heap.length = .ok nodes ∧
      Filled inv get
        (State.modify ⟨st.heap ++ [Node.create id 0], nodes⟩ st.heap.length
          (Node.addCell pos items))
        rootVisits (visits ++ [(id, pos, items)]) := by
  obtain ⟨nodes, hassign, hinv, hget⟩ := hC.assign_eq st.nodes id st.heap.length h.inv hid
  have hrootLt : rootNode < st.heap.length := (List.getElem?_eq_some_iff.mp h.root).1
  have hnew : (st.heap ++ [Node.create id 0])[st.heap.length]? = some (Node.create id 0) := by
    rw [List.getElem?_append_right (Nat.le_refl _), Nat.sub_self]
    rfl
  have hnotVisited : ∀ v ∈ visits, v.1 ≠ id := by
    intro v hv hvid
    obtain ⟨n, hn⟩ := (h.visited id).mpr ⟨v, hv, hvid⟩
    rw [hnone] at hn
    cases hn
  have hold : ∀ n < st.heap.length,
      (State.modify ⟨st.heap ++ [Node.create id 0], nodes⟩ st.heap.length
        (Node.addCell pos items)).heap[n]? = st.heap[n]? := by
    intro n hn
    rw [State.modify_ne _ _ (Nat.ne_of_lt hn), List.getElem?_append_left hn]
  refine ⟨nodes, hassign, hinv, ?_, ?_, ?_, ?_⟩
  · rw [hold _ hrootLt, h.root]
  · intro id' n hid'
    rw [State.modify, hget] at hid'
    by_cases heq : id' = id
    · rw [if_pos heq] at hid'
      obtain rfl := Option.some.inj hid'
      obtain rfl := heq
      refine ⟨Nat.ne_of_gt hrootLt, ?_⟩
      have hempty : visitsOf visits id' = [] := by
        rw [visitsOf, List.filter_eq_nil_iff.mpr fun v hv => by simpa using hnotVisited v hv]
        rfl
      rw [State.modify_self hnew, visitsOf_append, if_pos rfl, hempty]
      rfl
    · rw [if_neg heq] at hid'
      obtain ⟨hne, hnode⟩ := h.node id' n hid'
      refine ⟨hne, ?_⟩
      rw [hold _ (h.lt_length hid'), hnode, visitsOf_append, if_neg fun heq' => heq heq'.symm,
        List.append_nil]
  · intro n hn hne
    rw [State.length_modify, List.length_append, List.length_singleton] at hn
    rcases Nat.lt_or_ge n st.heap.length with hlt | hge
    · obtain ⟨id', hid'⟩ := h.owner n hlt hne
      refine ⟨id', ?_⟩
      have hdiff : id' ≠ id := by
        rintro rfl
        rw [hnone] at hid'
        cases hid'
      rw [State.modify, hget, if_neg hdiff, hid']
    · have hn' : n = st.heap.length := by omega
      exact ⟨id, by rw [State.modify, hget, if_pos rfl, hn']⟩
  · intro id'
    rw [State.modify, hget]
    by_cases heq : id' = id
    · obtain rfl := heq
      rw [if_pos rfl]
      exact iff_of_true ⟨_, rfl⟩ ⟨_, List.mem_append_right _ (List.mem_singleton_self _), rfl⟩
    · rw [if_neg heq, h.visited id']
      constructor
      · rintro ⟨v, hv, hvid⟩
        exact ⟨v, List.mem_append_left _ hv, hvid⟩
      · rintro ⟨v, hv, hvid⟩
        rcases List.mem_append.mp hv with hv | hv
        · exact ⟨v, hv, hvid⟩
        · obtain rfl := List.mem_singleton.mp hv
          exact absurd hvid.symm heq

theorem visit (hC : C.Spec dom inv get) (h : Filled inv get st rootVisits visits) {id : Nat}
    (hid : dom id) (pos items : Nat) :
    ∃ n st', st.nodeOf C id = .ok (n, st') ∧
      Filled inv get (st'.modify n (Node.addCell pos items)) rootVisits
        (visits ++ [(id, pos, items)]) := by
  have hfind := hC.find_eq st.nodes id h.inv hid
  cases hget : get st.nodes id with
  | some n =>
    rw [hget] at hfind
    exact ⟨n, st, by rw [State.nodeOf, hfind]; rfl, h.revisit hget pos items⟩
  | none =>
    rw [hget] at hfind
    obtain ⟨nodes, hassign, hfilled⟩ := h.create hC hid hget pos items
    exact ⟨_, _, by rw [State.nodeOf, hfind, ok_bind]; simp only [hassign, ok_bind]; rfl, hfilled⟩

end Filled

end SubSet

def CellSpace.itemsSize (sp : CellSpace) (c : Cell) : Nat := (sp.indexOf c).size

theorem Cell.Wf.itemsSize_full {sp : CellSpace} (hsp : sp.Wf) {c : Cell} (h : c.Wf sp)
    (hfull : c.fullMatch = true) : sp.itemsSize c = sp.ci.cellItemsCount c.cellId := by
  rw [CellSpace.itemsSize, h.indexOf_full hfull, CellSpace.fullIdx]
  by_cases hlocal : sp.isLocal = true
  · rw [if_pos hlocal]
    exact IdList.length_firstIds _ _
  · rw [if_neg hlocal, hsp.counts _ h.inRange]

theorem Cell.Wf.idxSize_eq {sp : CellSpace} (hsp : sp.Wf) {c : Cell} (h : c.Wf sp) :
    sp.idxSize c = .ok (sp.itemsSize c) := by
  have hidx := h.idx_eq
  unfold CellSpace.idx at hidx
  unfold CellSpace.idxSize CellSpace.itemsSize
  by_cases hfetched : c.fetched = true
  · rw [if_pos hfetched] at hidx ⊢
    rw [hidx]
    rfl
  · rw [if_neg hfetched] at hidx ⊢
    by_cases hfull : c.fullMatch = true
    · have hsize := h.itemsSize_full hsp hfull
      unfold CellSpace.itemsSize at hsize
      rw [if_pos hfull, hsize]
    · rw [if_neg hfull] at hidx ⊢
      obtain ⟨id, hid, hat⟩ := bind_eq_ok hidx
      rw [hid, ok_bind, Except.ok.inj hat]
      rfl

namespace GeoHierarchy

open SubSet

variable {T : Type} {gh : GeoHierarchy} {C : Container T} {dom : Nat → Prop} {inv : T → Prop}
  {get : T → Nat → Option Nat}

def cellVisits (gh : GeoHierarchy) (sp : CellSpace) (c : Cell × Nat) : List (Nat × Nat × Nat) :=
  (gh.cellParents c.1.cellId).map fun r => (r, c.2, sp.itemsSize c.1)

def rootVisits (sp : CellSpace) (cells : List (Cell × Nat)) : List (Nat × Nat) :=
  cells.map fun c => (c.2, sp.itemsSize c.1)

variable {visits : List (Nat × Nat × Nat)} {rv : List (Nat × Nat)}

theorem visitParents_spec (hC : C.Spec dom inv get) (pos items : Nat) {parents : List Nat}
    (hdom : ∀ p ∈ parents, dom p) {st : State T} (h : Filled inv get st rv visits) :
    ∃ st', (parents.foldlM (fun st cP => do
        let (n, st) ← st.nodeOf C cP
        return st.modify n (Node.addCell pos items)) st) = .ok st' ∧
      Filled inv get st' rv (visits ++ parents.map fun r => (r, pos, items)) := by
  induction parents generalizing st visits with
  | nil => exact ⟨st, rfl, by simpa using h⟩
  | cons p parents ih =>
    obtain ⟨n, st₁, hnode, hfilled⟩ := h.visit hC (hdom p List.mem_cons_self) pos items
    obtain ⟨st₂, hrest, hfilled₂⟩ := ih (fun q hq => hdom q (List.mem_cons_of_mem _ hq)) hfilled
    refine ⟨st₂, ?_, ?_⟩
    · rw [List.foldlM_cons, hnode]
      exact hrest
    · rwa [List.append_assoc] at hfilled₂

variable {sp : CellSpace}

theorem itemsInCell_eq (hgh : gh.WellFormed) (hsp : sp.Wf) (hci : sp.ci = gh.cellInfo) {c : Cell}
    (hc : c.Wf sp) : gh.itemsInCell sp c = .ok (sp.itemsSize c) := by
  unfold itemsInCell
  by_cases hfull : c.fullMatch = true
  · have hcell : c.cellId < gh.cellSize := by
      have hrange := hc.inRange
      rwa [hci] at hrange
    obtain ⟨hrow, hmem⟩ := hgh.cellAt_eq (Nat.le_of_lt hcell)
    rw [if_pos hfull, hc.itemsSize_full hsp hfull, hci, cellItemsCount, hrow, ok_bind, cellInfo]
    exact congrArg Except.ok (u32_of_lt (hgh.itemCounts _ hmem)).symm
  · rw [if_neg hfull, hc.idxSize_eq hsp]

theorem visitCell_spec (hgh : gh.WellFormed) (hsp : sp.Wf) (hci : sp.ci = gh.cellInfo)
    (hC : C.Spec dom inv get) (hdom : ∀ id < gh.regionSize, dom id) {c : Cell × Nat}
    (hc : c.1.Wf sp) {st : State T} (h : Filled inv get st rv visits) :
    ∃ st', gh.visitCell sp C st c = .ok st' ∧
      Filled inv get st' (rv ++ [(c.2, sp.itemsSize c.1)]) (visits ++ gh.cellVisits sp c) := by
  have hcell : c.1.cellId < gh.cellSize := by
    have hrange := hc.inRange
    rwa [hci] at hrange
  obtain ⟨b, e, hb, he, hread⟩ := hgh.cellParents_read hcell
  have hparents : ∀ p ∈ gh.cellParents c.1.cellId, dom p := fun p hp =>
    hdom p (hgh.cellParentsInside _ hcell p hp)
  obtain ⟨st', hfold, hfilled⟩ := visitParents_spec hC c.2 (sp.itemsSize c.1) hparents
    (h.visitRoot c.2 (sp.itemsSize c.1))
  refine ⟨st', ?_, hfilled⟩
  rw [visitCell, itemsInCell_eq hgh hsp hci hc, ok_bind]
  simp only [hb, he, ok_bind]
  exact (foldlM_read hread _).trans hfold

theorem visitCells_spec (hgh : gh.WellFormed) (hsp : sp.Wf) (hci : sp.ci = gh.cellInfo)
    (hC : C.Spec dom inv get) (hdom : ∀ id < gh.regionSize, dom id) {cells : List (Cell × Nat)}
    (hcells : ∀ c ∈ cells, c.1.Wf sp) {st : State T} (h : Filled inv get st rv visits) :
    ∃ st', cells.foldlM (gh.visitCell sp C) st = .ok st' ∧
      Filled inv get st' (rv ++ rootVisits sp cells) (visits ++ cells.flatMap (gh.cellVisits sp)) := by
  induction cells generalizing st rv visits with
  | nil => exact ⟨st, rfl, by simpa [rootVisits] using h⟩
  | cons c cells ih =>
    obtain ⟨st₁, hvisit, hfilled⟩ := visitCell_spec hgh hsp hci hC hdom
      (hcells c List.mem_cons_self) h
    obtain ⟨st₂, hrest, hfilled₂⟩ := ih (fun d hd => hcells d (List.mem_cons_of_mem _ hd)) hfilled
    refine ⟨st₂, ?_, ?_⟩
    · rw [List.foldlM_cons, hvisit, ok_bind, hrest]
    · rw [List.append_assoc, List.append_assoc] at hfilled₂
      exact hfilled₂

end GeoHierarchy

end Sserialize
