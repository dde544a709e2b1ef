import Sserialize.Spatial.GeoHierarchySubSetCorrect
import Mathlib.Tactic.IntervalCases

namespace Sserialize

open SubSet

namespace SubSet

variable {T : Type}

def pushTargets (heap : List Node) (targets : List Nat) (child : Nat) : List Node :=
  targets.foldl (fun heap p => heap.modify p (Node.pushBack child)) heap

theorem getElem?_pushTargets {heap : List Node} {targets : List Nat} (hnodup : targets.Nodup)
    (child m : Nat) : (pushTargets heap targets child)[m]? =
      heap[m]?.map fun nd => if m ∈ targets then nd.pushBack child else nd := by
  induction targets generalizing heap with
  | nil => simp [pushTargets]
  | cons p targets ih =>
    obtain ⟨hp, hnodup⟩ := List.nodup_cons.mp hnodup
    have hstep : pushTargets heap (p :: targets) child =
        pushTargets (heap.modify p (Node.pushBack child)) targets child := rfl
    rw [hstep, ih hnodup, List.getElem?_modify, Option.map_eq_map, Option.map_map]
    congr 1
    funext nd
    by_cases hm : p = m
    · obtain rfl := hm
      simp [hp]
    · simp [hm, Ne.symm hm]

end SubSet

namespace GeoHierarchy

variable {T : Type} {gh : GeoHierarchy}

def targets (gh : GeoHierarchy) (addr : Nat → Nat) (regionId : Nat) : List Nat :=
  if gh.parents regionId = [] then [rootNode] else (gh.parents regionId).map addr

theorem linkNode_eq (hgh : gh.WellFormed) {addr : Nat → Nat}
    {parentNode : State T → Nat → Except Fault (Nat × State T)} {nodes : T} {regionId : Nat}
    (hregion : regionId < gh.regionSize)
    (hparent : ∀ rp ∈ gh.parents regionId, ∀ heap, parentNode ⟨heap, nodes⟩ rp =
      .ok (addr rp, ⟨heap, nodes⟩)) (n : Nat) (heap : List Node) :
    gh.linkNode parentNode regionId n ⟨heap, nodes⟩ =
      .ok ⟨pushTargets heap (gh.targets addr regionId) n, nodes⟩ := by
  obtain ⟨b, e, hb, he, hread, hempty⟩ := hgh.parents_read hregion
  rw [linkNode, hb, ok_bind, he, ok_bind]
  by_cases hnil : gh.parents regionId = []
  · rw [if_neg (not_not.mpr (hempty.mpr hnil)), targets, if_pos hnil]
    rfl
  · rw [if_pos (mt hempty.mp hnil), targets, if_neg hnil]
    refine (foldlM_read hread _).trans ?_
    clear hread hempty hnil
    generalize gh.parents regionId = parents at hparent
    induction parents generalizing heap with
    | nil => rfl
    | cons rp parents ih =>
      rw [List.foldlM_cons, hparent rp List.mem_cons_self]
      exact ih _ fun q hq => hparent q (List.mem_cons_of_mem _ hq)

def linkedChildren (gh : GeoHierarchy) (addr : Nat → Nat) (entries : List (Nat × Nat)) (m : Nat) :
    List Nat :=
  (entries.filter fun e => m ∈ gh.targets addr e.1).map Prod.snd

theorem linkNodes_eq (hgh : gh.WellFormed) (addr : Nat → Nat)
    (parentNode : State T → Nat → Except Fault (Nat × State T)) (nodes : T)
    {entries : List (Nat × Nat)} (hregion : ∀ e ∈ entries, e.1 < gh.regionSize)
    (hparent : ∀ e ∈ entries, ∀ rp ∈ gh.parents e.1, ∀ heap, parentNode ⟨heap, nodes⟩ rp =
      .ok (addr rp, ⟨heap, nodes⟩))
    (hnodup : ∀ e ∈ entries, (gh.targets addr e.1).Nodup) (heap : List Node) :
    ∃ heap', entries.foldlM (fun st it => gh.linkNode parentNode it.1 it.2 st) ⟨heap, nodes⟩ =
        .ok ⟨heap', nodes⟩ ∧
      ∀ m : Nat, heap'[m]? = heap[m]?.map fun nd =>
        { nd with children := nd.children ++ gh.linkedChildren addr entries m } := by
  induction entries generalizing heap with
  | nil => exact ⟨heap, rfl, fun m => by simp [linkedChildren]⟩
  | cons e entries ih =>
    have hlink := linkNode_eq hgh (hregion e List.mem_cons_self)
      (hparent e List.mem_cons_self) e.2 heap
    obtain ⟨heap', hfold, hget⟩ := ih (fun d hd => hregion d (List.mem_cons_of_mem _ hd))
      (fun d hd => hparent d (List.mem_cons_of_mem _ hd))
      (fun d hd => hnodup d (List.mem_cons_of_mem _ hd)) (pushTargets heap (gh.targets addr e.1) e.2)
    refine ⟨heap', by rw [List.foldlM_cons, hlink]; exact hfold, ?_⟩
    intro m
    rw [hget, getElem?_pushTargets (hnodup e List.mem_cons_self), Option.map_map]
    congr 1
    funext nd
    by_cases hm : m ∈ gh.targets addr e.1
    · simp [linkedChildren, hm, Node.pushBack]
    · simp [linkedChildren, hm]

variable (gh) (cqr : CellQueryResult)

def Present (region : Nat) : Prop := ∃ c ∈ cqr.cells, gh.Ancestor c.cellId region

open Classical in
noncomputable def cellsBelow (region : Nat) : List (Cell × Nat) :=
  cqr.cells.zipIdx.filter fun c => gh.Ancestor c.1.cellId region

/-- The items of some cells, summed up as `uint32_t`. -/
def itemsSum (cells : List (Cell × Nat)) : Nat :=
  u32 (cells.map fun c => cqr.space.itemsSize c.1).sum

/-- The heap holds the DAG of the regions that contain a cell of the result: a node for each of them
and the root, with the positions and the items of the cells below it and with exactly the nodes of
its child regions as children. Regions without parents are children of the root. -/
structure IsSubSet (heap : List Node) : Prop where
  root : ∃ nd, heap[rootNode]? = some nd ∧ nd.ghId = npos ∧
    nd.cellPositions = List.range cqr.cells.length ∧ nd.maxItemsSize = itemsSum cqr cqr.cells.zipIdx
  region : ∀ (n : Nat) nd, heap[n]? = some nd → n ≠ rootNode → gh.Present cqr nd.ghId ∧
    nd.cellPositions = (gh.cellsBelow cqr nd.ghId).map Prod.snd ∧
    nd.maxItemsSize = itemsSum cqr (gh.cellsBelow cqr nd.ghId)
  present : ∀ region, gh.Present cqr region →
    ∃ (n : Nat) (nd : Node), heap[n]? = some nd ∧ n ≠ rootNode ∧ nd.ghId = region
  oneNode : ∀ (n m : Nat) nd md, heap[n]? = some nd → heap[m]? = some md → n ≠ rootNode → m ≠ rootNode →
    nd.ghId = md.ghId → n = m
  childrenNodup : ∀ (n : Nat) nd, heap[n]? = some nd → nd.children.Nodup
  rootChildren : ∀ nd, heap[rootNode]? = some nd → ∀ m : Nat, m ∈ nd.children ↔
    m ≠ rootNode ∧ ∃ md, heap[m]? = some md ∧ gh.parents md.ghId = []
  children : ∀ (n : Nat) nd, heap[n]? = some nd → n ≠ rootNode → ∀ m : Nat, m ∈ nd.children ↔
    m ≠ rootNode ∧ ∃ md, heap[m]? = some md ∧ md.ghId ∈ gh.children nd.ghId

def SameDag (heap heap' : List Node) : Prop :=
  ∃ f : Nat → Nat, f rootNode = rootNode ∧
    Set.BijOn f {n | n < heap.length} {n | n < heap'.length} ∧
    ∀ (n : Nat) nd, heap[n]? = some nd → ∃ nd', heap'[f n]? = some nd' ∧ nd'.ghId = nd.ghId ∧
      nd'.maxItemsSize = nd.maxItemsSize ∧ nd'.cellPositions = nd.cellPositions ∧
      (nd.children.map f).Perm nd'.children

variable {gh cqr}

namespace Present

theorem lt_regionSize (hgh : gh.WellFormed) (hcqr : cqr.Wf) (hci : cqr.space.ci = gh.cellInfo)
    {region : Nat} (h : gh.Present cqr region) : region < gh.regionSize := by
  obtain ⟨c, hc, hanc⟩ := h
  have hcell : c.cellId < gh.cellSize := by
    have hrange := (hcqr.cells c hc).inRange
    rwa [hci] at hrange
  exact hgh.cellParentsInside _ hcell _ ((hgh.mem_cellParents _ hcell _).mpr hanc)

theorem parent {region p : Nat} (h : gh.Present cqr region) (hp : p ∈ gh.parents region) :
    gh.Present cqr p := by
  obtain ⟨c, hc, q, hq, hpath⟩ := h
  exact ⟨c, hc, q, hq, hpath.tail hp⟩

end Present

theorem visitsOf_cells (hgh : gh.WellFormed) {cells : List (Cell × Nat)}
    (hcells : ∀ c ∈ cells, c.1.cellId < gh.cellSize) (sp : CellSpace) (region : Nat) :
    visitsOf (cells.flatMap (gh.cellVisits sp)) region =
      (cells.filter fun c => region ∈ gh.cellParents c.1.cellId).map
        fun c => (c.2, sp.itemsSize c.1) := by
  induction cells with
  | nil => rfl
  | cons c cells ih =>
    have hnodup := hgh.cellParentsNodup _ (hcells c List.mem_cons_self)
    have hhead : visitsOf (gh.cellVisits sp c) region =
        if region ∈ gh.cellParents c.1.cellId then [(c.2, sp.itemsSize c.1)] else [] := by
      rw [visitsOf, cellVisits, List.filter_map, List.map_map]
      have hfilter : (gh.cellParents c.1.cellId).filter
          ((fun v : Nat × Nat × Nat => decide (v.1 = region)) ∘
            fun r => (r, c.2, sp.itemsSize c.1)) =
          if region ∈ gh.cellParents c.1.cellId then [region] else [] := by
        have heq : ((fun v : Nat × Nat × Nat => decide (v.1 = region)) ∘
            fun r => (r, c.2, sp.itemsSize c.1)) = fun r => r == region := by
          funext r
          rfl
        rw [heq, List.filter_beq, hnodup.count]
        by_cases hmem : region ∈ gh.cellParents c.1.cellId
        · rw [if_pos hmem, if_pos hmem]
          rfl
        · rw [if_neg hmem, if_neg hmem]
          rfl
      rw [hfilter]
      by_cases hmem : region ∈ gh.cellParents c.1.cellId
      · rw [if_pos hmem, if_pos hmem]
        rfl
      · rw [if_neg hmem, if_neg hmem]
        rfl
    have hsplit : visitsOf ((c :: cells).flatMap (gh.cellVisits sp)) region =
        visitsOf (gh.cellVisits sp c) region ++
          visitsOf (cells.flatMap (gh.cellVisits sp)) region := by
      rw [List.flatMap_cons, visitsOf, visitsOf, visitsOf, List.filter_append, List.map_append]
    rw [hsplit, hhead, ih fun d hd => hcells d (List.mem_cons_of_mem _ hd)]
    by_cases hmem : region ∈ gh.cellParents c.1.cellId
    · simp [hmem]
    · simp [hmem]

theorem cell_lt (hcqr : cqr.Wf) (hci : cqr.space.ci = gh.cellInfo) {c : Cell × Nat}
    (hc : c ∈ cqr.cells.zipIdx) : c.1.cellId < gh.cellSize := by
  have hrange := (hcqr.cells c.1 (List.fst_mem_of_mem_zipIdx hc)).inRange
  rwa [hci] at hrange

section

variable (hgh : gh.WellFormed) (hcqr : cqr.Wf) (hci : cqr.space.ci = gh.cellInfo)
include hgh hcqr hci

theorem visitsOf_eq (region : Nat) :
    visitsOf (cqr.cells.zipIdx.flatMap (gh.cellVisits cqr.space)) region =
      (gh.cellsBelow cqr region).map fun c => (c.2, cqr.space.itemsSize c.1) := by
  rw [visitsOf_cells hgh (fun c hc => cell_lt hcqr hci hc), cellsBelow]
  congr 1
  apply List.filter_congr
  intro c hc
  exact decide_eq_decide.mpr (hgh.mem_cellParents _ (cell_lt hcqr hci hc) region)

theorem visited_iff (region : Nat) :
    (∃ v ∈ cqr.cells.zipIdx.flatMap (gh.cellVisits cqr.space), v.1 = region) ↔
      gh.Present cqr region := by
  constructor
  · rintro ⟨v, hv, rfl⟩
    obtain ⟨c, hc, hv⟩ := List.mem_flatMap.mp hv
    obtain ⟨r, hr, rfl⟩ := List.mem_map.mp hv
    exact ⟨c.1, List.fst_mem_of_mem_zipIdx hc,
      (hgh.mem_cellParents _ (cell_lt hcqr hci hc) r).mp hr⟩
  · rintro ⟨c, hc, hanc⟩
    obtain ⟨i, hi, rfl⟩ := List.mem_iff_getElem.mp hc
    have hmem : (cqr.cells[i], i) ∈ cqr.cells.zipIdx := by
      rw [List.mem_zipIdx_iff_getElem?]
      exact List.getElem?_eq_getElem hi
    have hparent := (hgh.mem_cellParents _ (cell_lt hcqr hci hmem) region).mpr hanc
    exact ⟨_, List.mem_flatMap.mpr ⟨_, hmem, List.mem_map_of_mem hparent⟩, rfl⟩

end

/-- The heap after linking the entries of a container to the nodes of the visited cells. -/
structure Linked (gh : GeoHierarchy) (cqr : CellQueryResult) (get : Nat → Option Nat)
    (heap : List Node) : Prop where
  inj : ∀ id id' n, get id = some n → get id' = some n → id = id'
  visited : ∀ id, (∃ n, get id = some n) ↔ gh.Present cqr id
  root : ∃ children, heap[rootNode]? = some ⟨npos, children, itemsSum cqr cqr.cells.zipIdx,
      List.range cqr.cells.length⟩ ∧ children.Nodup ∧
    ∀ m, m ∈ children ↔ ∃ id, get id = some m ∧ gh.parents id = []
  node : ∀ id n, get id = some n → n ≠ rootNode ∧ ∃ children,
    heap[n]? = some ⟨id, children, itemsSum cqr (gh.cellsBelow cqr id),
      (gh.cellsBelow cqr id).map Prod.snd⟩ ∧ children.Nodup ∧
    ∀ m, m ∈ children ↔ ∃ id', get id' = some m ∧ id ∈ gh.parents id'
  owner : ∀ n nd, heap[n]? = some nd → n ≠ rootNode → ∃ id, get id = some n

theorem Linked.isSubSet (hgh : gh.WellFormed) (hcqr : cqr.Wf) (hci : cqr.space.ci = gh.cellInfo)
    {get : Nat → Option Nat} {heap : List Node} (h : Linked gh cqr get heap) :
    gh.IsSubSet cqr heap := by
  -- Every other node is the one of a region.
  have hnode : ∀ n nd, heap[n]? = some nd → n ≠ rootNode → get nd.ghId = some n ∧
      nd.cellPositions = (gh.cellsBelow cqr nd.ghId).map Prod.snd ∧
      nd.maxItemsSize = itemsSum cqr (gh.cellsBelow cqr nd.ghId) ∧ nd.children.Nodup ∧
      ∀ m, m ∈ nd.children ↔ ∃ id', get id' = some m ∧ nd.ghId ∈ gh.parents id' := by
    intro n nd hnd hn
    obtain ⟨id, hid⟩ := h.owner n nd hnd hn
    obtain ⟨-, children, hget, hnodup, hchildren⟩ := h.node id n hid
    obtain rfl := Option.some.inj (hnd.symm.trans hget)
    exact ⟨hid, rfl, rfl, hnodup, hchildren⟩
  have hghId : ∀ id n, get id = some n → n ≠ rootNode ∧ ∃ nd, heap[n]? = some nd ∧ nd.ghId = id := by
    intro id n hid
    obtain ⟨hn, children, hget, -⟩ := h.node id n hid
    exact ⟨hn, _, hget, rfl⟩
  obtain ⟨children, hroot, hrootNodup, hrootChildren⟩ := h.root
  refine ⟨⟨_, hroot, rfl, rfl, rfl⟩, ?_, ?_, ?_, ?_, ?_, ?_⟩
  · intro n nd hnd hn
    obtain ⟨hget, hpos, hitems, -⟩ := hnode n nd hnd hn
    exact ⟨(h.visited _).mp ⟨n, hget⟩, hpos, hitems⟩
  · intro region hpresent
    obtain ⟨n, hn⟩ := (h.visited region).mpr hpresent
    obtain ⟨hne, nd, hnd, hid⟩ := hghId region n hn
    exact ⟨n, nd, hnd, hne, hid⟩
  · intro n m nd md hnd hmd hn hm heq
    have hget := (hnode n nd hnd hn).1
    rw [heq, (hnode m md hmd hm).1] at hget
    exact (Option.some.inj hget).symm
  · intro n nd hnd
    by_cases hn : n = rootNode
    · rw [hn, hroot] at hnd
      exact Option.some.inj hnd ▸ hrootNodup
    · exact (hnode n nd hnd hn).2.2.2.1
  · intro nd hnd m
    obtain rfl := Option.some.inj (hroot.symm.trans hnd)
    rw [hrootChildren m]
    constructor
    · rintro ⟨id, hid, hparents⟩
      obtain ⟨hne, md, hmd, rfl⟩ := hghId id m hid
      exact ⟨hne, md, hmd, hparents⟩
    · rintro ⟨hm, md, hmd, hparents⟩
      exact ⟨md.ghId, (hnode m md hmd hm).1, hparents⟩
  · intro n nd hnd hn m
    obtain ⟨hget, -, -, -, hchildren⟩ := hnode n nd hnd hn
    have hmem : ∀ id', gh.Present cqr id' →
        (id' ∈ gh.children nd.ghId ↔ nd.ghId ∈ gh.parents id') := by
      intro id' hpresent
      have hlt := ((h.visited _).mp ⟨n, hget⟩).lt_regionSize hgh hcqr hci
      rw [hgh.mem_children _ hlt]
      exact and_iff_right (hpresent.lt_regionSize hgh hcqr hci)
    rw [hchildren m]
    constructor
    · rintro ⟨id', hid', hparent⟩
      obtain ⟨hne, md, hmd, rfl⟩ := hghId id' m hid'
      exact ⟨hne, md, hmd, (hmem _ ((h.visited _).mp ⟨m, hid'⟩)).mpr hparent⟩
    · rintro ⟨hm, md, hmd, hchild⟩
      have hid' := (hnode m md hmd hm).1
      exact ⟨md.ghId, hid', (hmem _ ((h.visited _).mp ⟨m, hid'⟩)).mp hchild⟩

def addrOf (get : Nat → Option Nat) (region : Nat) : Nat := (get region).getD rootNode

variable {inv : T → Prop} {get : T → Nat → Option Nat} {st : State T}

abbrev CellsVisited (gh : GeoHierarchy) (cqr : CellQueryResult) (inv : T → Prop)
    (get : T → Nat → Option Nat) (st : State T) : Prop :=
  Filled inv get st (rootVisits cqr.space cqr.cells.zipIdx)
    (cqr.cells.zipIdx.flatMap (gh.cellVisits cqr.space))

namespace CellsVisited

variable (hgh : gh.WellFormed) (hcqr : cqr.Wf) (hci : cqr.space.ci = gh.cellInfo)
  (h : CellsVisited gh cqr inv get st)
include hgh hcqr hci h

theorem present_iff (id : Nat) : (∃ n, get st.nodes id = some n) ↔ gh.Present cqr id :=
  (h.visited id).trans (visited_iff hgh hcqr hci id)

theorem get_parent {id n p : Nat} (hid : get st.nodes id = some n) (hp : p ∈ gh.parents id) :
    get st.nodes p = some (addrOf (get st.nodes) p) := by
  have hpresent := ((h.present_iff hgh hcqr hci id).mp ⟨n, hid⟩).parent hp
  obtain ⟨m, hm⟩ := (h.present_iff hgh hcqr hci p).mpr hpresent
  rw [addrOf, hm, Option.getD_some]

theorem mem_targets {id n : Nat} (hid : get st.nodes id = some n) (m : Nat) :
    m ∈ gh.targets (addrOf (get st.nodes)) id ↔
      (m = rootNode ∧ gh.parents id = []) ∨ ∃ p ∈ gh.parents id, get st.nodes p = some m := by
  by_cases hnil : gh.parents id = []
  · simp [targets, hnil]
  · rw [targets, if_neg hnil, List.mem_map]
    constructor
    · rintro ⟨p, hp, rfl⟩
      exact .inr ⟨p, hp, h.get_parent hgh hcqr hci hid hp⟩
    · rintro (⟨-, hnil'⟩ | ⟨p, hp, hm⟩)
      · exact absurd hnil' hnil
      · exact ⟨p, hp, by rw [addrOf, hm, Option.getD_some]⟩

theorem nodup_targets {id n : Nat} (hid : get st.nodes id = some n) :
    (gh.targets (addrOf (get st.nodes)) id).Nodup := by
  have hlt := ((h.present_iff hgh hcqr hci id).mp ⟨n, hid⟩).lt_regionSize hgh hcqr hci
  by_cases hnil : gh.parents id = []
  · rw [targets, if_pos hnil]
    exact List.nodup_singleton _
  · rw [targets, if_neg hnil]
    refine (hgh.parentsNodup id hlt).map_on ?_
    intro p hp q hq heq
    have hget := h.get_parent hgh hcqr hci hid hp
    rw [heq] at hget
    exact h.inj hget (h.get_parent hgh hcqr hci hid hq)

theorem linked {entries : List (Nat × Nat)}
    (hentries : ∀ e : Nat × Nat, e ∈ entries ↔ get st.nodes e.1 = some e.2)
    (hnodup : entries.Nodup) {heap : List Node}
    (hheap : ∀ m : Nat, heap[m]? = st.heap[m]?.map fun nd =>
      { nd with children := nd.children ++
          gh.linkedChildren (addrOf (get st.nodes)) entries m }) :
    Linked gh cqr (get st.nodes) heap := by
  have hlinked : ∀ n, (gh.linkedChildren (addrOf (get st.nodes)) entries n).Nodup := by
    intro n
    refine (hnodup.filter _).map_on ?_
    intro e he d hd heq
    have hget := (hentries e).mp (List.mem_of_mem_filter he)
    have hget' := (hentries d).mp (List.mem_of_mem_filter hd)
    exact Prod.ext (h.inj hget (heq ▸ hget')) heq
  have hmem : ∀ n m, m ∈ gh.linkedChildren (addrOf (get st.nodes)) entries n ↔
      ∃ id, get st.nodes id = some m ∧ n ∈ gh.targets (addrOf (get st.nodes)) id := by
    intro n m
    simp only [linkedChildren, List.mem_map, List.mem_filter, decide_eq_true_eq]
    constructor
    · rintro ⟨e, ⟨he, hn⟩, rfl⟩
      exact ⟨e.1, (hentries e).mp he, hn⟩
    · rintro ⟨id, hid, hn⟩
      exact ⟨(id, m), ⟨(hentries (id, m)).mpr hid, hn⟩, rfl⟩
  have hcollect : ∀ (m ghId : Nat) (vs : List (Nat × Nat)), st.heap[m]? = some (Node.collect ghId vs) →
      heap[m]? = some ⟨ghId, gh.linkedChildren (addrOf (get st.nodes)) entries m,
        u32 (vs.map Prod.snd).sum, vs.map Prod.fst⟩ := by
    intro m ghId vs hget
    rw [hheap, hget, Node.collect_eq, Option.map_some, List.nil_append]
  refine ⟨fun _ _ _ hid hid' => h.inj hid hid', h.present_iff hgh hcqr hci,
    ⟨_, ?_, hlinked rootNode, ?_⟩, ?_, ?_⟩
  · have hroot := hcollect rootNode npos _ h.root
    rw [rootVisits, List.map_map, List.map_map] at hroot
    have hpositions : cqr.cells.zipIdx.map (Prod.fst ∘ fun c : Cell × Nat =>
        (c.2, cqr.space.itemsSize c.1)) = List.range cqr.cells.length := by
      rw [List.range_eq_range', ← List.zipIdx_map_snd]
      rfl
    rw [hpositions] at hroot
    exact hroot
  · intro m
    rw [hmem]
    constructor
    · rintro ⟨id, hid, htarget⟩
      refine ⟨id, hid, ?_⟩
      rcases (h.mem_targets hgh hcqr hci hid rootNode).mp htarget with ⟨-, hnil⟩ | ⟨p, -, hp⟩
      · exact hnil
      · exact absurd rfl (h.node p rootNode hp).1
    · rintro ⟨id, hid, hnil⟩
      exact ⟨id, hid, (h.mem_targets hgh hcqr hci hid rootNode).mpr (.inl ⟨rfl, hnil⟩)⟩
  · intro id n hid
    obtain ⟨hn, hget⟩ := h.node id n hid
    refine ⟨hn, _, ?_, hlinked n, ?_⟩
    · have hnode := hcollect n id _ hget
      rw [visitsOf_eq hgh hcqr hci, List.map_map, List.map_map] at hnode
      exact hnode
    · intro m
      rw [hmem]
      constructor
      · rintro ⟨id', hid', htarget⟩
        rcases (h.mem_targets hgh hcqr hci hid' n).mp htarget with ⟨hroot, -⟩ | ⟨p, hp, hpn⟩
        · exact absurd hroot hn
        · exact ⟨id', hid', h.inj hpn hid ▸ hp⟩
      · rintro ⟨id', hid', hp⟩
        exact ⟨id', hid', (h.mem_targets hgh hcqr hci hid' n).mpr (.inr ⟨id, hp, hid⟩)⟩
  · intro n nd hnd hn
    have hlt : n < st.heap.length := by
      by_contra hge
      rw [hheap, List.getElem?_eq_none (Nat.le_of_not_lt hge)] at hnd
      cases hnd
    exact h.owner n hlt hn

end CellsVisited

section

variable (hgh : gh.WellFormed) (hcqr : cqr.Wf) (hci : cqr.space.ci = gh.cellInfo)
include hgh hcqr hci

theorem exists_cellsVisited {C : Container T} {dom : Nat → Prop} (hC : C.Spec dom inv get)
    (hdom : ∀ id < gh.regionSize, dom id) (nodes : T) (hinv : inv nodes)
    (hempty : ∀ id, get nodes id = none) :
    ∃ st, cqr.cells.zipIdx.foldlM (gh.visitCell cqr.space C) (State.start nodes) = .ok st ∧
      CellsVisited gh cqr inv get st := by
  have hcells : ∀ c ∈ cqr.cells.zipIdx, c.1.Wf cqr.space := fun c hc =>
    hcqr.cells _ (List.fst_mem_of_mem_zipIdx hc)
  have hstart : Filled inv get (State.start nodes) [] [] := Filled.start hinv hempty
  obtain ⟨st, hfold, hfilled⟩ := visitCells_spec hgh hcqr.space hci hC hdom hcells hstart
  exact ⟨st, hfold, hfilled⟩

theorem createSubSetMap_spec {order : List (Nat × Nat) → List (Nat × Nat)}
    (horder : ∀ entries, (order entries).Perm entries) :
    ∃ st, gh.createSubSetMap order cqr = .ok st ∧ gh.IsSubSet cqr st.heap := by
  obtain ⟨st, hvisit, hst⟩ := exists_cellsVisited hgh hcqr hci hashMap_spec
    (fun _ _ => trivial) [] List.nodup_nil fun _ => rfl
  have hkeys : (OrderedMap.keys st.nodes).Nodup := hst.inv
  have hentries : ∀ e : Nat × Nat, e ∈ order st.nodes ↔ OrderedMap.lookup e.1 st.nodes = some e.2 :=
    fun e => (horder st.nodes).mem_iff.trans (OrderedMap.lookup_eq_some hkeys).symm
  have hnodup : (order st.nodes).Nodup := (horder st.nodes).nodup_iff.mpr hkeys.of_map
  obtain ⟨heap, hlink, hheap⟩ := linkNodes_eq hgh (addrOf fun id =>
    OrderedMap.lookup id st.nodes) existingNode st.nodes
    (fun e he => ((hst.present_iff hgh hcqr hci e.1).mp
      ⟨e.2, (hentries e).mp he⟩).lt_regionSize hgh hcqr hci)
    (fun e he rp hrp heap => by
      have hget := hst.get_parent hgh hcqr hci ((hentries e).mp he) hrp
      simp only [existingNode, hashMap, hget, ok_bind]
      rfl)
    (fun e he => hst.nodup_targets hgh hcqr hci ((hentries e).mp he)) st.heap
  refine ⟨⟨heap, st.nodes⟩, ?_, (hst.linked hgh hcqr hci hentries hnodup hheap).isSubSet
    hgh hcqr hci⟩
  rw [createSubSetMap, hvisit, ok_bind]
  exact hlink

end

def slots (nodes : List (Option Nat)) (ids : List Nat) : List (Nat × Nat) :=
  ids.filterMap fun id => (nodes.getD id none).map fun n => (id, n)

variable {nodes : List (Option Nat)} {ids : List Nat}

theorem mem_slots (e : Nat × Nat) :
    e ∈ slots nodes ids ↔ e.1 ∈ ids ∧ nodes.getD e.1 none = some e.2 := by
  simp only [slots, List.mem_filterMap, Option.map_eq_some_iff]
  constructor
  · rintro ⟨id, hid, n, hn, rfl⟩
    exact ⟨hid, hn⟩
  · rintro ⟨hid, hn⟩
    exact ⟨e.1, hid, e.2, hn, rfl⟩

theorem nodup_slots (h : ids.Nodup) : (slots nodes ids).Nodup := by
  refine h.filterMap ?_
  intro id id' e he he'
  obtain ⟨n, -, rfl⟩ := Option.map_eq_some_iff.mp he
  obtain ⟨n', -, heq⟩ := Option.map_eq_some_iff.mp he'
  exact (congrArg Prod.fst heq).symm

theorem linkSlots_eq (hids : ∀ id ∈ ids, id < nodes.length)
    (hlink : ∀ e ∈ slots nodes ids, ∀ heap, ∃ heap',
      gh.linkNode (State.nodeOf array) e.1 e.2 ⟨heap, nodes⟩ = .ok ⟨heap', nodes⟩)
    (heap : List Node) :
    ids.foldlM gh.linkSlot ⟨heap, nodes⟩ = (slots nodes ids).foldlM
      (fun st it => gh.linkNode (State.nodeOf array) it.1 it.2 st) ⟨heap, nodes⟩ := by
  induction ids generalizing heap with
  | nil => rfl
  | cons id ids ih =>
    have hfind := (array_spec nodes.length).find_eq nodes id rfl (hids id List.mem_cons_self)
    have hids' : ∀ id ∈ ids, id < nodes.length := fun d hd => hids d (List.mem_cons_of_mem _ hd)
    cases hslot : nodes.getD id none with
    | none =>
      have hslots : slots nodes (id :: ids) = slots nodes ids := by
        rw [slots, List.filterMap_cons, hslot]
        rfl
      rw [hslots] at hlink ⊢
      rw [List.foldlM_cons, linkSlot, hfind, hslot]
      exact ih hids' hlink heap
    | some n =>
      have hslots : slots nodes (id :: ids) = (id, n) :: slots nodes ids := by
        rw [slots, List.filterMap_cons, hslot]
        rfl
      rw [hslots] at hlink ⊢
      obtain ⟨heap', hstep⟩ := hlink _ List.mem_cons_self heap
      rw [List.foldlM_cons, List.foldlM_cons, linkSlot, hfind, hslot]
      simp only [ok_bind, hstep]
      exact ih hids' (fun e he => hlink e (List.mem_cons_of_mem _ he)) heap'

section

variable (hgh : gh.WellFormed) (hcqr : cqr.Wf) (hci : cqr.space.ci = gh.cellInfo)
include hgh hcqr hci

theorem createSubSetArray_spec :
    ∃ st, gh.createSubSetArray cqr (gh.regionSize + 1) = .ok st ∧ gh.IsSubSet cqr st.heap := by
  obtain ⟨st, hvisit, hst⟩ := exists_cellsVisited hgh hcqr hci (array_spec (gh.regionSize + 1))
    (fun id hid => Nat.lt_succ_of_lt hid) (List.replicate (gh.regionSize + 1) none)
    List.length_replicate fun id => by
      rw [List.getD_eq_getElem?_getD, List.getElem?_replicate]
      split <;> rfl
  have hlength : st.nodes.length = gh.regionSize + 1 := hst.inv
  have hlt : ∀ id n, st.nodes.getD id none = some n → id < gh.regionSize := fun id n hget =>
    ((hst.present_iff hgh hcqr hci id).mp ⟨n, hget⟩).lt_regionSize hgh hcqr hci
  have hentries : ∀ e : Nat × Nat, e ∈ slots st.nodes (List.range (gh.regionSize + 1)) ↔
      st.nodes.getD e.1 none = some e.2 := by
    intro e
    rw [mem_slots, List.mem_range]
    exact and_iff_right_of_imp fun hget => Nat.lt_succ_of_lt (hlt _ _ hget)
  have hparent : ∀ e ∈ slots st.nodes (List.range (gh.regionSize + 1)), ∀ rp ∈ gh.parents e.1,
      ∀ heap, State.nodeOf array ⟨heap, st.nodes⟩ rp =
        .ok (addrOf (fun id => st.nodes.getD id none) rp, ⟨heap, st.nodes⟩) := by
    intro e he rp hrp heap
    have hget := hst.get_parent hgh hcqr hci ((hentries e).mp he) hrp
    have hfind := (array_spec (gh.regionSize + 1)).find_eq st.nodes rp hlength
      (Nat.lt_succ_of_lt (hlt _ _ hget))
    simp only [State.nodeOf, hfind, hget, ok_bind]
    rfl
  obtain ⟨heap, hlink, hheap⟩ := linkNodes_eq hgh (addrOf fun id => st.nodes.getD id none)
    (State.nodeOf array) st.nodes (fun e he => hlt _ _ ((hentries e).mp he)) hparent
    (fun e he => hst.nodup_targets hgh hcqr hci ((hentries e).mp he)) st.heap
  refine ⟨⟨heap, st.nodes⟩, ?_, (hst.linked hgh hcqr hci hentries
    (nodup_slots List.nodup_range) hheap).isSubSet hgh hcqr hci⟩
  rw [createSubSetArray, hvisit, ok_bind]
  refine (linkSlots_eq (fun id hid => ?_) (fun e he heap' => ?_) st.heap).trans hlink
  · rw [hlength]
    exact List.mem_range.mp hid
  · exact ⟨_, linkNode_eq hgh (hlt _ _ ((hentries e).mp he)) (hparent e he) e.2 heap'⟩

theorem subSet_spec {order : List (Nat × Nat) → List (Nat × Nat)}
    (horder : ∀ entries, (order entries).Perm entries) :
    ∃ heap, gh.subSet order cqr = .ok heap ∧ gh.IsSubSet cqr heap := by
  unfold subSet
  by_cases hmany : cqr.cells.length * 2 > gh.cellSize
  · obtain ⟨st, hst, hsub⟩ := createSubSetArray_spec hgh hcqr hci
    exact ⟨st.heap, by rw [if_pos hmany, hst]; rfl, hsub⟩
  · obtain ⟨st, hst, hsub⟩ := createSubSetMap_spec hgh hcqr hci horder
    exact ⟨st.heap, by rw [if_neg hmany, hst]; rfl, hsub⟩

end

def Corresponds (heap heap' : List Node) (n n' : Nat) : Prop :=
  (n = rootNode ↔ n' = rootNode) ∧
    ∃ nd nd', heap[n]? = some nd ∧ heap'[n']? = some nd' ∧ nd.ghId = nd'.ghId

theorem Corresponds.symm {heap heap' : List Node} {n n' : Nat}
    (h : Corresponds heap heap' n n') : Corresponds heap' heap n' n := by
  obtain ⟨hroot, nd, nd', hnd, hnd', hghId⟩ := h
  exact ⟨hroot.symm, nd', nd, hnd', hnd, hghId.symm⟩

namespace IsSubSet

variable {heap heap' : List Node} (h : gh.IsSubSet cqr heap)
include h

theorem exists_corresponds (h' : gh.IsSubSet cqr heap') {n : Nat} (hn : n < heap.length) :
    ∃ n', Corresponds heap heap' n n' := by
  have hget := List.getElem?_eq_getElem hn
  by_cases hroot : n = rootNode
  · obtain ⟨nd, hnd, hghId, -⟩ := h.root
    obtain ⟨nd', hnd', hghId', -⟩ := h'.root
    exact ⟨rootNode, iff_of_true hroot rfl, nd, nd', hroot ▸ hnd, hnd', hghId.trans hghId'.symm⟩
  · obtain ⟨n', nd', hnd', hn', hghId⟩ := h'.present _ (h.region n _ hget hroot).1
    exact ⟨n', iff_of_false hroot hn', _, nd', hget, hnd', hghId.symm⟩

theorem corresponds_inj {n m : Nat} {n' : Nat} (hn : Corresponds heap heap' n n')
    (hm : Corresponds heap heap' m n') : n = m := by
  obtain ⟨hnRoot, nd, nd', hnd, hnd', hghId⟩ := hn
  obtain ⟨hmRoot, md, md', hmd, hmd', hghId'⟩ := hm
  obtain rfl := Option.some.inj (hnd'.symm.trans hmd')
  by_cases hroot : n' = rootNode
  · exact (hnRoot.mpr hroot).trans (hmRoot.mpr hroot).symm
  · exact h.oneNode n m nd md hnd hmd (mt hnRoot.mp hroot) (mt hmRoot.mp hroot)
      (hghId.trans hghId'.symm)

theorem mem_children {n : Nat} {nd : Node} (hnd : heap[n]? = some nd) (m : Nat) :
    m ∈ nd.children ↔ m ≠ rootNode ∧ ∃ md, heap[m]? = some md ∧
      ((n = rootNode ∧ gh.parents md.ghId = []) ∨
        (n ≠ rootNode ∧ md.ghId ∈ gh.children nd.ghId)) := by
  by_cases hroot : n = rootNode
  · rw [h.rootChildren nd (hroot ▸ hnd) m]
    simp [hroot]
  · rw [h.children n nd hnd hroot m]
    simp [hroot]

theorem corresponds_child (h' : gh.IsSubSet cqr heap') {n n' m m' : Nat} {nd nd' : Node}
    (hn : Corresponds heap heap' n n') (hnd : heap[n]? = some nd) (hnd' : heap'[n']? = some nd')
    (hm : Corresponds heap heap' m m') (hchild : m ∈ nd.children) : m' ∈ nd'.children := by
  obtain ⟨hroot, nd₁, nd₁', hnd₁, hnd₁', hghId⟩ := hn
  obtain ⟨hmRoot, md, md', hmd, hmd', hmGhId⟩ := hm
  obtain rfl := Option.some.inj (hnd.symm.trans hnd₁)
  obtain rfl := Option.some.inj (hnd'.symm.trans hnd₁')
  obtain ⟨hne, md₁, hmd₁, hlink⟩ := (h.mem_children hnd m).mp hchild
  obtain rfl := Option.some.inj (hmd.symm.trans hmd₁)
  refine (h'.mem_children hnd' m').mpr ⟨mt hmRoot.mpr hne, md', hmd', ?_⟩
  rw [ne_eq, ← hroot, ← hmGhId, ← hghId]
  exact hlink

theorem lt_of_mem_children {n m : Nat} {nd : Node} (hnd : heap[n]? = some nd)
    (hm : m ∈ nd.children) : m < heap.length := by
  obtain ⟨-, md, hmd, -⟩ := (h.mem_children hnd m).mp hm
  exact (List.getElem?_eq_some_iff.mp hmd).1

theorem sameDag (h' : gh.IsSubSet cqr heap') : SameDag heap heap' := by
  have hex : ∀ n, ∃ n', n < heap.length → Corresponds heap heap' n n' := by
    intro n
    by_cases hn : n < heap.length
    · obtain ⟨n', hn'⟩ := h.exists_corresponds h' hn
      exact ⟨n', fun _ => hn'⟩
    · exact ⟨rootNode, fun hlt => absurd hlt hn⟩
  choose f hf using hex
  have hlt : ∀ {heap : List Node} {n : Nat} {nd : Node}, heap[n]? = some nd → n < heap.length :=
    fun hget => (List.getElem?_eq_some_iff.mp hget).1
  have hrootLt : rootNode < heap.length := by
    obtain ⟨nd, hnd, -⟩ := h.root
    exact hlt hnd
  have hinj : Set.InjOn f {n | n < heap.length} := by
    intro n hn m hm heq
    exact h.corresponds_inj (hf n hn) (heq ▸ hf m hm)
  refine ⟨f, (hf rootNode hrootLt).1.mp rfl, ⟨?_, hinj, ?_⟩, ?_⟩
  · intro n hn
    obtain ⟨-, nd, nd', -, hnd', -⟩ := hf n hn
    exact hlt hnd'
  · intro n' hn'
    obtain ⟨n, hn⟩ := h'.exists_corresponds h hn'
    obtain ⟨nd, nd', -, hnd, -⟩ := hn.2
    exact ⟨n, hlt hnd, h'.corresponds_inj (hf n (hlt hnd)).symm hn⟩
  · intro n nd hnd
    have hn := hf n (hlt hnd)
    obtain ⟨hroot, nd₁, nd', hnd₁, hnd', hghId⟩ := hn
    obtain rfl := Option.some.inj (hnd.symm.trans hnd₁)
    have hperm : (nd.children.map f).Perm nd'.children := by
      have hnodup : (nd.children.map f).Nodup := by
        refine (h.childrenNodup n nd hnd).map_on ?_
        intro m hm k hk heq
        exact hinj (h.lt_of_mem_children hnd hm) (h.lt_of_mem_children hnd hk) heq
      rw [List.perm_ext_iff_of_nodup hnodup (h'.childrenNodup _ nd' hnd')]
      intro m'
      rw [List.mem_map]
      constructor
      · rintro ⟨m, hm, rfl⟩
        exact h.corresponds_child h' (hf n (hlt hnd)) hnd hnd'
          (hf m (h.lt_of_mem_children hnd hm)) hm
      · intro hm'
        obtain ⟨m, hm⟩ := h'.exists_corresponds h (h'.lt_of_mem_children hnd' hm')
        have hchild := h'.corresponds_child h (hf n (hlt hnd)).symm hnd' hnd hm hm'
        exact ⟨m, hchild, h'.corresponds_inj (hf m (h.lt_of_mem_children hnd hchild)).symm hm⟩
    refine ⟨nd', hnd', hghId.symm, ?_, ?_, hperm⟩
    · by_cases hn : n = rootNode
      · obtain ⟨rd, hrd, -, -, hitems⟩ := h.root
        obtain ⟨rd', hrd', -, -, hitems'⟩ := h'.root
        rw [hn] at hnd
        rw [hroot.mp hn] at hnd'
        rw [Option.some.inj (hnd.symm.trans hrd), Option.some.inj (hnd'.symm.trans hrd'), hitems,
          hitems']
      · rw [(h.region n nd hnd hn).2.2, (h'.region _ nd' hnd' (mt hroot.mpr hn)).2.2, hghId]
    · by_cases hn : n = rootNode
      · obtain ⟨rd, hrd, -, hpos, -⟩ := h.root
        obtain ⟨rd', hrd', -, hpos', -⟩ := h'.root
        rw [hn] at hnd
        rw [hroot.mp hn] at hnd'
        rw [Option.some.inj (hnd.symm.trans hrd), Option.some.inj (hnd'.symm.trans hrd'), hpos,
          hpos']
      · rw [(h.region n nd hnd hn).2.1, (h'.region _ nd' hnd' (mt hroot.mpr hn)).2.1, hghId]

end IsSubSet

/-- The variants build the same DAG, and so does `subSet`, whichever it takes. -/
theorem createSubSet_sameDag (hgh : gh.WellFormed) (hcqr : cqr.Wf)
    (hci : cqr.space.ci = gh.cellInfo) {order : List (Nat × Nat) → List (Nat × Nat)}
    (horder : ∀ entries, (order entries).Perm entries) :
    ∃ a m heap, gh.createSubSetArray cqr (gh.regionSize + 1) = .ok a ∧
      gh.createSubSetMap order cqr = .ok m ∧ gh.subSet order cqr = .ok heap ∧
      gh.IsSubSet cqr a.heap ∧ gh.IsSubSet cqr m.heap ∧ SameDag a.heap m.heap ∧
      SameDag heap a.heap ∧ SameDag heap m.heap := by
  obtain ⟨a, ha, hsubA⟩ := createSubSetArray_spec hgh hcqr hci
  obtain ⟨m, hm, hsubM⟩ := createSubSetMap_spec hgh hcqr hci horder
  obtain ⟨heap, hheap, hsub⟩ := subSet_spec hgh hcqr hci horder
  exact ⟨a, m, heap, ha, hm, hheap, hsubA, hsubM, hsubA.sameDag hsubM, hsub.sameDag hsubA,
    hsub.sameDag hsubM⟩

/-- One region with two cells of `count` items each. -/
def oneRegion (count : Nat) : GeoHierarchy where
  regions := [⟨0, 0, 0⟩, ⟨0, 1, 0⟩, ⟨1, 0, 0⟩]
  regionPtrs := [0]
  cells := [⟨0, count, 1, 0⟩, ⟨0, count, 1, 1⟩, ⟨0, 0, 0, 2⟩]
  cellPtrs := [0, 0]

variable {count : Nat}

theorem wellFormed_oneRegion (hcount : count < 2 ^ 32) : (oneRegion count).WellFormed := by
  have hparents : (oneRegion count).parents 0 = [] := rfl
  have hregion : (oneRegion count).regionSize = 1 := by
    simp [oneRegion, regionSize, sub32, u32]
  have hcells : (oneRegion count).cellSize = 2 := rfl
  have hanc : ∀ p, p ∈ [0] ↔ ∃ q ∈ [0],
      Relation.ReflTransGen (fun c r => r ∈ (oneRegion count).parents c) q p := by
    intro p
    constructor
    · intro hp
      exact ⟨p, hp, .refl⟩
    · rintro ⟨q, hq, hpath⟩
      obtain rfl := List.mem_singleton.mp hq
      rcases hpath.cases_head with rfl | ⟨r, hr, -⟩
      · exact hq
      · rw [hparents] at hr
        cases hr
  refine ⟨⟨by simp [oneRegion], by simp [oneRegion], by simp [oneRegion], by simp [oneRegion],
    by simp [oneRegion], by simp [oneRegion], ?_, by simpa [oneRegion] using hcount, ?_, ?_, ?_,
    ?_⟩, ?_, ?_, ?_⟩
  · intro id hid
    rw [hcells] at hid
    interval_cases id <;> simp [oneRegion, cellAt]
  · intro id hid p hp
    obtain rfl := Nat.lt_one_iff.mp (hregion ▸ hid)
    rw [hparents] at hp
    cases hp
  · intro id hid
    obtain rfl := Nat.lt_one_iff.mp (hregion ▸ hid)
    exact List.nodup_nil
  · intro id hid
    obtain rfl := Nat.lt_one_iff.mp (hregion ▸ hid)
    exact List.nodup_nil
  · intro p hp id
    obtain rfl := Nat.lt_one_iff.mp (hregion ▸ hp)
    refine iff_of_false List.not_mem_nil ?_
    rintro ⟨hid, hmem⟩
    obtain rfl := Nat.lt_one_iff.mp (hregion ▸ hid)
    rw [hparents] at hmem
    cases hmem
  · intro id hid p hp
    rw [hcells] at hid
    have hp' : p ∈ [0] := by interval_cases id <;> exact hp
    rw [List.mem_singleton.mp hp', hregion]
    exact Nat.one_pos
  · intro id hid
    rw [hcells] at hid
    interval_cases id <;> exact List.nodup_singleton 0
  · intro id hid p
    rw [hcells] at hid
    interval_cases id <;> exact hanc p

def twoCells (count : Nat) (hcount : count < 2 ^ 32) : CellQueryResult where
  space := {
    ci := (oneRegion count).cellInfo
    idxStore := ⟨[IdList.firstIds count (Nat.le_of_lt hcount)]⟩
    flags := FF_CELL_GLOBAL_ITEM_IDS }
  cells := [⟨⟨true, false, 0⟩, .idxPtr 0⟩, ⟨⟨true, false, 1⟩, .idxPtr 0⟩]

theorem wf_twoCells (hcount : count < 2 ^ 32) : (twoCells count hcount).Wf where
  space := by
    refine ⟨?_, ?_⟩
    · simp [twoCells, CellSpace.isGlobal, CellSpace.isLocal, FF_CELL_GLOBAL_ITEM_IDS,
        FF_CELL_LOCAL_ITEM_IDS]
    intro cellId hcell
    have hlt : cellId < 2 := hcell
    have hsize : (IdList.firstIds count (Nat.le_of_lt hcount)).ids.length = u32 count := by
      rw [IdList.length_firstIds, u32_of_lt hcount]
    interval_cases cellId <;> exact hsize
  sorted := by
    refine List.pairwise_pair.mpr ?_
    exact Nat.zero_lt_one
  cells := by
    intro c hc
    have hcell : c.cellId < 2 ∧ c.fullMatch = true ∧ c.fetched = false ∧ c.slot = .idxPtr 0 := by
      simp only [twoCells, List.mem_cons, List.not_mem_nil, or_false] at hc
      rcases hc with rfl | rfl
      · exact ⟨Nat.zero_lt_two, rfl, rfl, rfl⟩
      · exact ⟨Nat.one_lt_two, rfl, rfl, rfl⟩
    obtain ⟨hid, hfull, hfetched, hslot⟩ := hcell
    have hidx : (twoCells count hcount).space.idx c =
        .ok ((twoCells count hcount).space.fullIdx c.cellId) := by
      rw [CellSpace.idx, hfetched, hfull]
      rfl
    refine ⟨hid, ?_, fun _ => ⟨0, hslot⟩, fun _ => hidx, ?_⟩
    · rw [hfetched]
      exact fun h => absurd h Bool.false_ne_true
    · intro i hi id hmem
      rw [hidx] at hi
      exact Except.ok.inj hi ▸ hmem

theorem ancestor_twoCells (hcount : count < 2 ^ 32) {c : Cell}
    (hc : c ∈ (twoCells count hcount).cells) : (oneRegion count).Ancestor c.cellId 0 := by
  have hlt : c.cellId < 2 := ((wf_twoCells hcount).cells c hc).inRange
  refine ((wellFormed_oneRegion hcount).mem_cellParents _ hlt 0).mp ?_
  generalize c.cellId = cellId at hlt
  interval_cases cellId <;> exact List.mem_singleton_self 0

theorem itemsSize_twoCells (hcount : count < 2 ^ 32) {c : Cell}
    (hc : c ∈ (twoCells count hcount).cells) : (twoCells count hcount).space.itemsSize c = count := by
  have hwf := wf_twoCells hcount
  have hfull : c.fullMatch = true := by
    simp only [twoCells, List.mem_cons, List.not_mem_nil, or_false] at hc
    rcases hc with rfl | rfl <;> rfl
  have hlt : c.cellId < 2 := (hwf.cells c hc).inRange
  rw [(hwf.cells c hc).itemsSize_full hwf.space hfull]
  generalize c.cellId = cellId at hlt
  interval_cases cellId <;> exact u32_of_lt hcount

theorem sum_twoCells (hcount : count < 2 ^ 32) :
    (((oneRegion count).cellsBelow (twoCells count hcount) 0).map fun c =>
      (twoCells count hcount).space.itemsSize c.1).sum = count + count := by
  have hbelow : (oneRegion count).cellsBelow (twoCells count hcount) 0 =
      (twoCells count hcount).cells.zipIdx := by
    classical
    rw [cellsBelow, List.filter_eq_self]
    intro c hc
    exact decide_eq_true (ancestor_twoCells hcount (List.fst_mem_of_mem_zipIdx hc))
  have hfirst := itemsSize_twoCells hcount List.mem_cons_self
  have hsecond := itemsSize_twoCells hcount (List.mem_cons_of_mem _ List.mem_cons_self)
  rw [hbelow]
  exact congrArg₂ (· + ·) hfirst hsecond

theorem createSubSet_sameDag_twoCells :
    ∃ a m heap, (oneRegion 3).createSubSetArray (twoCells 3 (by decide)) 2 = .ok a ∧
      (oneRegion 3).createSubSetMap List.reverse (twoCells 3 (by decide)) = .ok m ∧
      (oneRegion 3).subSet List.reverse (twoCells 3 (by decide)) = .ok heap ∧
      (oneRegion 3).IsSubSet (twoCells 3 (by decide)) a.heap ∧
      (oneRegion 3).IsSubSet (twoCells 3 (by decide)) m.heap ∧ SameDag a.heap m.heap ∧
      SameDag heap a.heap ∧ SameDag heap m.heap :=
  createSubSet_sameDag (wellFormed_oneRegion (by decide)) (wf_twoCells (by decide)) rfl
    List.reverse_perm

def ExactCounts (gh : GeoHierarchy) (cqr : CellQueryResult) (heap : List Node) : Prop :=
  ∀ (n : Nat) nd, heap[n]? = some nd → n ≠ rootNode →
    nd.maxItemsSize = ((gh.cellsBelow cqr nd.ghId).map fun c => cqr.space.itemsSize c.1).sum

/-- Two cells of `2 ^ 31` items each are counted as none. -/
theorem not_exactCounts :
    ∃ gh cqr, gh.WellFormed ∧ cqr.Wf ∧ cqr.space.ci = gh.cellInfo ∧
      ∀ a, gh.createSubSetArray cqr (gh.regionSize + 1) = .ok a → ¬ ExactCounts gh cqr a.heap := by
  have hcount : 2 ^ 31 < 2 ^ 32 := by decide
  have hgh := wellFormed_oneRegion hcount
  have hcqr := wf_twoCells hcount
  refine ⟨oneRegion (2 ^ 31), twoCells (2 ^ 31) hcount, hgh, hcqr, rfl, ?_⟩
  intro a ha hexact
  obtain ⟨a', ha', hsub⟩ := createSubSetArray_spec hgh hcqr rfl
  obtain rfl := Except.ok.inj (ha.symm.trans ha')
  have hpresent : (oneRegion (2 ^ 31)).Present (twoCells (2 ^ 31) hcount) 0 :=
    ⟨_, List.mem_cons_self, ancestor_twoCells hcount List.mem_cons_self⟩
  obtain ⟨n, nd, hnd, hn, hid⟩ := hsub.present 0 hpresent
  have hstored := (hsub.region n nd hnd hn).2.2
  have hclaimed := hexact n nd hnd hn
  rw [hid, itemsSum, sum_twoCells] at hstored
  rw [hid, sum_twoCells, hstored] at hclaimed
  have hlt := u32_lt (2 ^ 31 + 2 ^ 31)
  omega

end GeoHierarchy

end Sserialize
