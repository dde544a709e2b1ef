import Sserialize.Spatial.CellQueryResultRemoveEmpty
import Sserialize.Spatial.TreedCQRImpHasHits

namespace Sserialize

open CellQueryResult (fullCell partialCell kept Slotted)

namespace TreedCQRImp

def flattenedCell (mem : Nat → Nat) (pos cellId : Nat) (res : Flattened) :
    Except Fault (Option Cell) :=
  if res.frt = .fm then .ok (some (fullCell mem pos cellId))
  else if res.frt = .pm then do
    let pmIdxId ← res.id
    return some (partialCell cellId (.idxPtr pmIdxId))
  else if res.frt = .fetched ∧ res.idx.size ≠ 0 then
    .ok (some (partialCell cellId (.idx res.idx)))
  else .ok none

def plainCell (mem : Nat → Nat) (pos : Nat) (cd : CellDesc) : Cell :=
  if cd.fullMatch then fullCell mem pos cd.cellId
  else partialCell cd.cellId (.idxPtr cd.pmIdxId)

def toCQRLoop (pf : Nat → Nat → Bool) (mem : Nat → Nat) (r : TreedCQRImp) :
    Nat → Flattened → List Cell → List CellDesc → Except Fault (List Cell)
  | _, _, cells, [] => .ok cells
  | i, out, cells, cd :: desc =>
    if !pf i r.desc.length then .ok cells
    else if cd.hasTree then do
      let res ← r.flattenCell cd.cellId r.trees.length cd.treeBegin out
      let c ← flattenedCell mem cells.length cd.cellId res
      toCQRLoop pf mem r (i + 1) res (cells ++ c.toList) desc
    else toCQRLoop pf mem r (i + 1) out (cells ++ [plainCell mem cells.length cd]) desc

/-- A position of many threads. A cell without items has the id of the empty index and is
counted. -/
def process (mem : Nat → Nat) (r : TreedCQRImp) (myPos : Nat) (cd : CellDesc) :
    Except Fault (Cell × Bool) :=
  if cd.hasTree then do
    let res ← r.flattenCell cd.cellId r.trees.length cd.treeBegin ⟨ItemIndex.empty, some 0, .none⟩
    match ← flattenedCell mem myPos cd.cellId res with
    | some c => return (c, false)
    | none => return (partialCell cd.cellId (.idxPtr 0), true)
  else .ok (plainCell mem myPos cd, false)

def processCells (mem : Nat → Nat) (r : TreedCQRImp) :
    Nat → List CellDesc → Except Fault (List (Cell × Bool))
  | _, [] => .ok []
  | myPos, cd :: desc => do
    let c ← process mem r myPos cd
    let cells ← processCells mem r (myPos + 1) desc
    return c :: cells

def toCQR (hardwareConcurrency : Nat) (mem : Nat → Nat) (r : TreedCQRImp)
    (pf : Nat → Nat → Bool) (threadCount : Nat) (keepEmpty : Bool) :
    Except Fault CellQueryResult :=
  let threadCount := if threadCount = 0 then hardwareConcurrency else threadCount
  if threadCount > 1 ∧ r.desc.length > 1000 then do
    let cells ← processCells mem r 0 r.desc
    let emptyCellCount := (cells.filter Prod.snd).length
    let dest : CellQueryResult := { space := r.space, cells := cells.map Prod.fst }
    if keepEmpty ∨ emptyCellCount = 0 then return dest
    else dest.removeEmpty mem emptyCellCount
  else do
    let cells ← toCQRLoop pf mem r 0 .fresh [] r.desc
    return { space := r.space, cells := cells }

def HitCell (sp : CellSpace) (c : Cell) : Prop :=
  c.fullMatch = true ∨ ∃ i, sp.idx c = .ok i ∧ i.size ≠ 0

variable {sp : CellSpace} {r : TreedCQRImp} {cd : CellDesc} {t : Tree} {out res : Flattened}

theorem hitCell_fullCell (sp : CellSpace) (mem : Nat → Nat) (pos cellId : Nat) :
    HitCell sp (fullCell mem pos cellId) := Or.inl rfl

theorem hitCell_idx {cellId : Nat} {i : ItemIndex} :
    HitCell sp (partialCell cellId (.idx i)) ↔ i.size ≠ 0 := by
  constructor
  · rintro (hfull | ⟨j, hj, hsize⟩)
    · cases hfull
    · cases hj
      exact hsize
  · exact fun hsize => .inr ⟨i, rfl, hsize⟩

theorem hitCell_idxPtr {cellId id : Nat} :
    HitCell sp (partialCell cellId (.idxPtr id)) ↔ (sp.idxStore.at id).size ≠ 0 := by
  constructor
  · rintro (hfull | ⟨j, hj, hsize⟩)
    · cases hfull
    · cases hj
      exact hsize
  · exact fun hsize => .inr ⟨_, rfl, hsize⟩

theorem hitCell_plainCell (htree : cd.hasTree = false) (mem : Nat → Nat) (pos : Nat) :
    HitCell r.space (plainCell mem pos cd) ↔ r.Hit cd := by
  have hno : ¬ ∃ t, CellTree r cd t ∧ t.found (r.cellItems cd.cellId) ≠ ⊥ := by
    rintro ⟨t, ht, -⟩
    have hhas := ht.hasTree
    rw [htree] at hhas
    cases hhas
  rw [plainCell, Hit, or_iff_left hno, and_iff_right htree]
  by_cases hfull : cd.fullMatch = true
  · rw [if_pos hfull]
    exact iff_of_true (hitCell_fullCell _ _ _ _) (.inl hfull)
  · rw [if_neg hfull, hitCell_idxPtr, or_iff_right hfull]

/-- The cell for a tree is a hit if the tree finds something, or if it has the index that the
variables had before. -/
theorem flattenedCell_spec (h : Flattens (r.cellItems cd.cellId) t out res) (mem : Nat → Nat)
    (pos : Nat) :
    ∃ o, flattenedCell mem pos cd.cellId res = .ok o ∧
      (t.found (r.cellItems cd.cellId) ≠ ⊥ → ∃ c ∈ o, HitCell r.space c) ∧
      ((∃ c ∈ o, HitCell r.space c) →
        t.found (r.cellItems cd.cellId) ≠ ⊥ ∨ out.idx.size ≠ 0) := by
  cases h with
  | @pm idx id hstored hfound =>
    have hsize : t.found (r.cellItems cd.cellId) ≠ ⊥ ↔ (r.space.idxStore.at id).size ≠ 0 := by
      rw [hfound]
      exact not_congr coe_idSet_eq_bot
    refine ⟨some (partialCell cd.cellId (.idxPtr id)), rfl, ?_, ?_⟩
    · intro hne
      exact ⟨_, rfl, hitCell_idxPtr.mpr (hsize.mp hne)⟩
    · rintro ⟨c, hc, hhit⟩
      cases hc
      exact .inl (hsize.mpr (hitCell_idxPtr.mp hhit))
  | fm hfound =>
    have hne : t.found (r.cellItems cd.cellId) ≠ ⊥ := by
      rw [hfound]
      exact top_ne_bot
    exact ⟨_, rfl, fun _ => ⟨_, rfl, hitCell_fullCell _ _ _ _⟩, fun _ => .inl hne⟩
  | @fetched idx id hstored hfound =>
    have hsize : t.found (r.cellItems cd.cellId) ≠ ⊥ ↔ idx.size ≠ 0 := by
      rw [hfound]
      exact not_congr coe_idSet_eq_bot
    by_cases hzero : idx.size = 0
    · refine ⟨none, by simp [flattenedCell, hzero], fun hne => absurd hzero (hsize.mp hne), ?_⟩
      rintro ⟨c, hc, -⟩
      cases hc
    · exact ⟨some (partialCell cd.cellId (.idx idx)), by simp [flattenedCell, hzero],
        fun _ => ⟨_, rfl, hitCell_idx.mpr hzero⟩, fun _ => .inl (hsize.mpr hzero)⟩
  | @kept id hstored hover =>
    have hbot : ¬ t.found (r.cellItems cd.cellId) ≠ ⊥ := not_not.mpr hover.found_eq_bot
    by_cases hzero : out.idx.size = 0
    · refine ⟨none, by simp [flattenedCell, hzero], fun hne => absurd hne hbot, ?_⟩
      rintro ⟨c, hc, -⟩
      cases hc
    · exact ⟨some (partialCell cd.cellId (.idx out.idx)), by simp [flattenedCell, hzero],
        fun hne => absurd hne hbot, fun _ => .inr hzero⟩
  | empty hstored hfound =>
    refine ⟨none, rfl, fun hne => absurd hfound hne, ?_⟩
    rintro ⟨c, hc, -⟩
    cases hc

theorem Flattens.size_idx {e : Items} (h : Flattens e t out res) (hsize : res.idx.size ≠ 0) :
    t.found e ≠ ⊥ ∨ out.idx.size ≠ 0 := by
  have hempty : ItemIndex.empty.size = 0 := rfl
  cases h with
  | pm hstored hfound hidx =>
    rcases hidx with rfl | rfl
    · exact .inr hsize
    · exact absurd hempty hsize
  | fm hfound => exact .inr hsize
  | fetched hstored hfound =>
    refine .inl ?_
    rw [hfound, ne_eq, coe_idSet_eq_bot]
    exact hsize
  | kept hstored hover => exact .inr hsize
  | empty hstored hfound hover hidx =>
    rcases hidx with rfl | hzero
    · exact .inr hsize
    · exact absurd hzero hsize

theorem Good.flattenCell (h : Good sp r) (hcd : cd ∈ r.desc) (htree : cd.hasTree = true)
    (out : Flattened) :
    ∃ t res, r.flattenCell cd.cellId r.trees.length cd.treeBegin out = .ok res ∧
      CellTree r cd t ∧ Flattens (r.cellItems cd.cellId) t out res := by
  obtain ⟨t, front, back, ht, htrees, hbegin, hvalid⟩ := h.exists_cellTree hcd htree
  have hfuel : t.nodes.length ≤ r.trees.length := by
    rw [htrees]
    simp only [List.length_append]
    omega
  obtain ⟨res, hres, hflat⟩ := flattenCell_spec out htrees hbegin hvalid hfuel
  exact ⟨t, res, hres, ht, hflat⟩

variable {desc : List CellDesc}

theorem toCQRLoop_spec (h : Good sp r) (mem : Nat → Nat) (hdesc : ∀ cd ∈ desc, cd ∈ r.desc)
    (i : Nat) {cells : List Cell} (hout : out.idx.size ≠ 0 → ∃ c ∈ cells, HitCell r.space c) :
    ∃ cells', toCQRLoop (fun _ _ => true) mem r i out cells desc = .ok cells' ∧
      ((∃ c ∈ cells', HitCell r.space c) ↔
        (∃ c ∈ cells, HitCell r.space c) ∨ ∃ cd ∈ desc, r.Hit cd) := by
  induction desc generalizing i out cells with
  | nil => exact ⟨cells, rfl, by simp⟩
  | cons cd desc ih =>
    obtain ⟨hcd, hdesc⟩ := List.forall_mem_cons.mp hdesc
    simp only [toCQRLoop, Bool.not_true, Bool.false_eq_true, if_false]
    by_cases htree : cd.hasTree = true
    · obtain ⟨t, res, hres, ht, hflat⟩ := h.flattenCell hcd htree out
      obtain ⟨o, ho, hfound, hhit⟩ := flattenedCell_spec hflat mem cells.length
      rw [← ht.hit_iff] at hfound hhit
      have hboth : (∃ c ∈ cells ++ o.toList, HitCell r.space c) ↔
          (∃ c ∈ cells, HitCell r.space c) ∨ r.Hit cd := by
        simp only [List.mem_append, or_and_right, exists_or, Option.mem_toList]
        constructor
        · rintro (hcells | ho)
          · exact .inl hcells
          · exact (hhit ho).symm.imp_left hout
        · exact Or.imp_right hfound
      have hres' : res.idx.size ≠ 0 → ∃ c ∈ cells ++ o.toList, HitCell r.space c := by
        intro hsize
        have hidx := hflat.size_idx hsize
        rw [← ht.hit_iff] at hidx
        exact hboth.mpr (hidx.symm.imp_left hout)
      obtain ⟨cells', hloop, hiff⟩ := ih hdesc (i + 1) hres'
      refine ⟨cells', by rw [if_pos htree, hres, ok_bind, ho, ok_bind, hloop], ?_⟩
      rw [hiff, hboth, List.exists_mem_cons_iff, or_assoc]
    · have hplain := hitCell_plainCell (r := r) (Bool.eq_false_iff.mpr htree) mem cells.length
      have hboth : (∃ c ∈ cells ++ [plainCell mem cells.length cd], HitCell r.space c) ↔
          (∃ c ∈ cells, HitCell r.space c) ∨ r.Hit cd := by
        simp only [List.mem_append, List.mem_singleton, or_and_right, exists_or, exists_eq_left,
          hplain]
      obtain ⟨cells', hloop, hiff⟩ := ih hdesc (i + 1) fun hsize => hboth.mpr (.inl (hout hsize))
      refine ⟨cells', by rw [if_neg htree, hloop], ?_⟩
      rw [hiff, hboth, List.exists_mem_cons_iff, or_assoc]

variable (mem : Nat → Nat)

theorem slotted_fullCell (pos cellId : Nat) : Slotted (fullCell mem pos cellId) :=
  ⟨(fun h => by cases h), fun _ => ⟨_, rfl⟩⟩

theorem slotted_partialCell (cellId : Nat) (items : IndexDesc) :
    Slotted (partialCell cellId items) := by
  cases items with
  | idx i => exact ⟨fun _ => ⟨i, rfl⟩, fun h => by cases h⟩
  | idxPtr id => exact ⟨(fun h => by cases h), fun _ => ⟨id, rfl⟩⟩

theorem slotted_plainCell (pos : Nat) (cd : CellDesc) : Slotted (plainCell mem pos cd) := by
  rw [plainCell]
  split
  · exact slotted_fullCell _ _ _
  · exact slotted_partialCell _ _

theorem slotted_flattenedCell {mem : Nat → Nat} {pos cellId : Nat} {c : Cell}
    (h : flattenedCell mem pos cellId res = .ok (some c)) : Slotted c := by
  rw [flattenedCell] at h
  split at h
  next =>
    cases h
    exact slotted_fullCell _ _ _
  next =>
    split at h
    next =>
      obtain ⟨id, -, h⟩ := bind_eq_ok h
      cases h
      exact slotted_partialCell _ _
    next =>
      split at h
      · cases h
        exact slotted_partialCell _ _
      · cases h

/-- A cell of the result of many threads. An empty one has the id of the empty index. -/
structure Processed (r : TreedCQRImp) (cd : CellDesc) (p : Cell × Bool) : Prop where
  slotted : Slotted p.1
  hit : (r.space.idxStore.at 0).size = 0 → (HitCell r.space p.1 ↔ r.Hit cd)
  empty : p.2 = true → kept p.1 = false

theorem process_spec (h : Good sp r) (mem : Nat → Nat) (myPos : Nat) (hcd : cd ∈ r.desc) :
    ∃ p, process mem r myPos cd = .ok p ∧ Processed r cd p := by
  rw [process]
  by_cases htree : cd.hasTree = true
  · obtain ⟨t, res, hres, ht, hflat⟩ := h.flattenCell hcd htree ⟨ItemIndex.empty, some 0, .none⟩
    obtain ⟨o, ho, hfound, hhit⟩ := flattenedCell_spec hflat mem myPos
    have hempty : ¬ ItemIndex.empty.size ≠ 0 := not_not.mpr rfl
    rw [← ht.hit_iff] at hfound hhit
    rw [or_iff_left hempty] at hhit
    rw [if_pos htree, hres, ok_bind, ho, ok_bind]
    cases o with
    | some c =>
      refine ⟨(c, false), rfl, slotted_flattenedCell ho, fun _ => ?_, fun h => by cases h⟩
      constructor
      · exact fun hc => hhit ⟨c, rfl, hc⟩
      · intro hcell
        obtain ⟨c', hc', hhit'⟩ := hfound hcell
        cases hc'
        exact hhit'
    | none =>
      refine ⟨_, rfl, slotted_partialCell _ _, fun hzero => ?_, fun _ => rfl⟩
      rw [hitCell_idxPtr]
      refine iff_of_false (not_not.mpr hzero) fun hcell => ?_
      obtain ⟨c, hc, -⟩ := hfound hcell
      cases hc
  · rw [if_neg htree]
    exact ⟨_, rfl, slotted_plainCell _ _ _,
      fun _ => hitCell_plainCell (Bool.eq_false_iff.mpr htree) mem myPos, fun h => by cases h⟩

theorem processCells_spec (h : Good sp r) (mem : Nat → Nat) (hdesc : ∀ cd ∈ desc, cd ∈ r.desc)
    (myPos : Nat) :
    ∃ cells, processCells mem r myPos desc = .ok cells ∧
      List.Forall₂ (Processed r) desc cells := by
  induction desc generalizing myPos with
  | nil => exact ⟨[], rfl, .nil⟩
  | cons cd desc ih =>
    obtain ⟨hcd, hdesc⟩ := List.forall_mem_cons.mp hdesc
    obtain ⟨p, hp, hprocessed⟩ := process_spec h mem myPos hcd
    obtain ⟨cells, hcells, hforall⟩ := ih hdesc (myPos + 1)
    exact ⟨p :: cells, by rw [processCells, hp, ok_bind, hcells]; rfl, .cons hprocessed hforall⟩

theorem hitCell_of_copied {c c' : Cell} (h : CellQueryResult.Copied c c') : HitCell sp c' ↔ HitCell sp c := by
  by_cases hfull : c.fullMatch = true
  · have hfull' : c'.fullMatch = true := by rwa [Cell.fullMatch, h.desc]
    exact iff_of_true (.inl hfull') (.inl hfull)
  · have hslot := h.slot (Bool.eq_false_iff.mpr hfull)
    have hsame : c' = c := by
      cases c
      cases c'
      obtain rfl := h.desc
      obtain rfl := hslot
      rfl
    rw [hsame]

theorem not_hitCell_of_not_kept {c : Cell} (hzero : (sp.idxStore.at 0).size = 0)
    (h : kept c = false) : ¬ HitCell sp c := by
  rw [kept, Bool.or_eq_false_iff, Bool.or_eq_false_iff, decide_eq_false_iff_not, not_not] at h
  obtain ⟨⟨hfull, hfetched⟩, hslot⟩ := h
  rintro (hfull' | ⟨i, hi, hsize⟩)
  · rw [hfull] at hfull'
    cases hfull'
  · simp only [CellSpace.idx, hfull, hfetched, Cell.idxPtr, hslot, ok_bind, except_pure,
      Bool.false_eq_true, if_false, Except.ok.injEq] at hi
    rw [← hi] at hsize
    exact hsize hzero

theorem removeEmpty_hits {dest : CellQueryResult} {n : Nat}
    (hslotted : ∀ c ∈ dest.cells, Slotted c) (hzero : (dest.space.idxStore.at 0).size = 0)
    (hn : n ≠ 0) (hle : n ≤ (dest.cells.filter fun c => !kept c).length) :
    ∃ q, dest.removeEmpty mem n = .ok q ∧
      ((∃ c ∈ q.cells, HitCell q.space c) ↔ ∃ c ∈ dest.cells, HitCell dest.space c) := by
  have hsplit := List.length_eq_length_filter_add (l := dest.cells) kept
  have hcount := CellQueryResult.realCellCount_eq (r := dest) hn
    (Nat.le_trans hle (List.length_filter_le _ _))
  have hcapacity : 0 + (dest.cells.filter kept).length ≤ dest.cells.length - n := by omega
  obtain ⟨cells', hcopy⟩ := CellQueryResult.copyCells_returns mem hslotted hcapacity
  have hcopied := CellQueryResult.copyCells_eq_ok hslotted hcopy
  obtain ⟨hto, hfrom⟩ := CellQueryResult.forall₂_exists hcopied
  refine ⟨{ space := dest.space, cells := cells' }, ?_, ?_⟩
  · rw [CellQueryResult.removeEmpty, hcount, ok_bind, hcopy]
    rfl
  constructor
  · rintro ⟨c', hc', hhit⟩
    obtain ⟨c, hc, hcc'⟩ := hto c' hc'
    exact ⟨c, (List.mem_filter.mp hc).1, (hitCell_of_copied hcc').mp hhit⟩
  · rintro ⟨c, hc, hhit⟩
    have hkept : kept c = true := by
      by_contra hnot
      exact not_hitCell_of_not_kept hzero (Bool.eq_false_iff.mpr hnot) hhit
    obtain ⟨c', hc', hcc'⟩ := hfrom c (List.mem_filter.mpr ⟨hc, hkept⟩)
    exact ⟨c', hc', (hitCell_of_copied hcc').mpr hhit⟩

theorem length_filter_le_of_processed {cells : List (Cell × Bool)}
    (h : List.Forall₂ (Processed r) desc cells) :
    (cells.filter Prod.snd).length ≤
      ((cells.map Prod.fst).filter fun c => !kept c).length := by
  rw [← List.countP_eq_length_filter, ← List.countP_eq_length_filter, List.countP_map]
  apply List.countP_mono_left
  intro p hp hcounted
  obtain ⟨cd, -, hprocessed⟩ := (CellQueryResult.forall₂_exists h).1 p hp
  simp [hprocessed.empty hcounted]

end TreedCQRImp

def CellQueryResult.HasHits (q : CellQueryResult) : Prop :=
  ∃ c ∈ q.cells, TreedCQRImp.HitCell q.space c

namespace TreedCQRImp

variable {sp : CellSpace} {r : TreedCQRImp}

/-- All threads together find the cells that are full or have items. Many threads rely on the empty
index, which is the first one of the store. -/
theorem toCQR_spec (h : Good sp r) (hardwareConcurrency : Nat) (mem : Nat → Nat)
    (threadCount : Nat) (keepEmpty : Bool) (hzero : (sp.idxStore.at 0).size = 0) :
    ∃ q, toCQR hardwareConcurrency mem r (fun _ _ => true) threadCount keepEmpty = .ok q ∧
      (q.HasHits ↔ ∃ cd ∈ r.desc, r.Hit cd) := by
  rw [← h.inv.space] at hzero
  rw [toCQR]
  dsimp only
  generalize (if threadCount = 0 then hardwareConcurrency else threadCount) = threadCount
  split
  next =>
    obtain ⟨cells, hcells, hprocessed⟩ := processCells_spec h mem (fun _ hcd => hcd) 0
    obtain ⟨hto, hfrom⟩ := CellQueryResult.forall₂_exists hprocessed
    have hslotted : ∀ c ∈ cells.map Prod.fst, Slotted c := by
      intro c hc
      obtain ⟨p, hp, rfl⟩ := List.mem_map.mp hc
      obtain ⟨cd, -, hcd⟩ := hto p hp
      exact hcd.slotted
    have hhits : (∃ c ∈ cells.map Prod.fst, HitCell r.space c) ↔ ∃ cd ∈ r.desc, r.Hit cd := by
      constructor
      · rintro ⟨c, hc, hhit⟩
        obtain ⟨p, hp, rfl⟩ := List.mem_map.mp hc
        obtain ⟨cd, hcd, hp'⟩ := hto p hp
        exact ⟨cd, hcd, (hp'.hit hzero).mp hhit⟩
      · rintro ⟨cd, hcd, hhit⟩
        obtain ⟨p, hp, hp'⟩ := hfrom cd hcd
        exact ⟨p.1, List.mem_map_of_mem hp, (hp'.hit hzero).mpr hhit⟩
    rw [hcells, ok_bind]
    split
    next => exact ⟨_, rfl, hhits⟩
    next hkeep =>
      have hn : (cells.filter Prod.snd).length ≠ 0 := fun hn => hkeep (.inr hn)
      have hle := length_filter_le_of_processed hprocessed
      let dest : CellQueryResult := ⟨r.space, cells.map Prod.fst⟩
      have hdest : ∀ c ∈ dest.cells, Slotted c := hslotted
      obtain ⟨q, hq, hiff⟩ := removeEmpty_hits mem hdest hzero hn hle
      exact ⟨q, hq, hiff.trans hhits⟩
  next =>
    have hstart : Flattened.fresh.idx.size ≠ 0 → ∃ c ∈ [], HitCell r.space c :=
      fun hsize => absurd rfl hsize
    obtain ⟨cells, hloop, hiff⟩ := toCQRLoop_spec h mem (fun _ hcd => hcd) 0 hstart
    rw [hloop, ok_bind]
    refine ⟨_, rfl, hiff.trans ?_⟩
    simp

/-- Both return, and `hasHits` is true exactly if the result has a cell that is full or has items.
The types of the indices of leaves, the number of threads and unwritten memory are arbitrary. -/
def HasHitsAgrees (r : TreedCQRImp) (indexType : FlatNode → Nat) (hardwareConcurrency : Nat)
    (mem : Nat → Nat) (threadCount : Nat) (keepEmpty : Bool) : Prop :=
  ∃ hits q, r.hasHits indexType = .ok hits ∧
    toCQR hardwareConcurrency mem r (fun _ _ => true) threadCount keepEmpty = .ok q ∧
    (hits = true ↔ q.HasHits)

theorem OnlyFull.hit {cd : CellDesc} (h : r.OnlyFull cd) : r.Hit cd := by
  obtain ⟨t, ht, hnice, hnil⟩ := h
  refine .inr ⟨t, ht, ?_⟩
  rw [hnice.found_eq_top hnil]
  exact top_ne_bot

theorem Overlooked.not_onlyFull {cd : CellDesc} (h : r.Overlooked cd) : ¬ r.OnlyFull cd := by
  rintro ⟨t, ht, hnice, hnil⟩
  have hbot := (ht.overlooked_iff.mp h).found_eq_bot
  rw [hnice.found_eq_top hnil] at hbot
  exact top_ne_bot hbot

/-- A hit that `hasHits` can see makes both agree. Without one, `hasHits` is true for the cells whose
emptiness was overlooked, and `toCQR` has the cells of full leaves only. -/
theorem hasHits_agrees_iff (h : Good sp r) (hzero : (sp.idxStore.at 0).size = 0)
    (indexType : FlatNode → Nat) (hardwareConcurrency : Nat) (mem : Nat → Nat) (threadCount : Nat)
    (keepEmpty : Bool) :
    r.HasHitsAgrees indexType hardwareConcurrency mem threadCount keepEmpty ↔
      (∃ cd ∈ r.desc, r.Hit cd ∧ ¬ r.OnlyFull cd) ∨
        ((∃ cd ∈ r.desc, r.Overlooked cd) ↔ ∃ cd ∈ r.desc, r.OnlyFull cd) := by
  obtain ⟨hits, hhits, hseen⟩ := hasHits_spec indexType h
  obtain ⟨q, hq, hhit⟩ := toCQR_spec h hardwareConcurrency mem threadCount keepEmpty hzero
  have hagrees : r.HasHitsAgrees indexType hardwareConcurrency mem threadCount keepEmpty ↔
      ((∃ cd ∈ r.desc, r.Seen cd) ↔ ∃ cd ∈ r.desc, r.Hit cd) := by
    rw [← hseen, ← hhit]
    constructor
    · rintro ⟨hits', q', hhits', hq', hiff⟩
      cases hhits.symm.trans hhits'
      cases hq.symm.trans hq'
      exact hiff
    · exact fun hiff => ⟨hits, q, hhits, hq, hiff⟩
  rw [hagrees]
  by_cases hclear : ∃ cd ∈ r.desc, r.Hit cd ∧ ¬ r.OnlyFull cd
  · obtain ⟨cd, hcd, hcell, hnot⟩ := hclear
    refine iff_of_true (iff_of_true ⟨cd, hcd, .inl hcell, hnot⟩ ⟨cd, hcd, hcell⟩) ?_
    exact .inl ⟨cd, hcd, hcell, hnot⟩
  · have hblind : ∀ cd ∈ r.desc, r.Hit cd ↔ r.OnlyFull cd := by
      intro cd hcd
      refine ⟨fun hcell => ?_, OnlyFull.hit⟩
      by_contra hnot
      exact hclear ⟨cd, hcd, hcell, hnot⟩
    have hsees : ∀ cd ∈ r.desc, r.Seen cd ↔ r.Overlooked cd := by
      intro cd hcd
      constructor
      · rintro ⟨hcell | hover, hnot⟩
        · exact absurd ((hblind cd hcd).mp hcell) hnot
        · exact hover
      · exact fun hover => ⟨.inr hover, hover.not_onlyFull⟩
    rw [or_iff_right hclear]
    exact iff_congr (exists_congr fun cd => and_congr_right (hsees cd))
      (exists_congr fun cd => and_congr_right (hblind cd))

def itemCell : TreedCQRImp where
  space := CellQueryResult.twoItemCells
  desc := [.plain false 0 1]
  trees := []
  fetchedIdx := []

/-- `itemCell` without its own items. -/
def noItem : TreedCQRImp where
  space := CellQueryResult.twoItemCells
  desc := [⟨false, false, 0, 0, 0, 3⟩]
  trees := [.opNode .diff 2, .pmLeaf 1, .pmLeaf 1]
  fetchedIdx := []

def noItems : TreedCQRImp where
  space := CellQueryResult.twoItemCells
  desc := [⟨false, false, 0, 0, 0, 7⟩]
  trees := [.opNode .unite 4, .opNode .diff 2, .pmLeaf 1, .pmLeaf 1, .opNode .diff 2, .pmLeaf 1,
    .pmLeaf 1]
  fetchedIdx := []

theorem diff_itemCell : itemCell.diff itemCell = .ok noItem := by
  have hcell : diffCell itemCell itemCell (.plain false 0 1) (.plain false 0 1)
      (empty itemCell.space) = .ok noItem := rfl
  rw [diff]
  show (walk true false itemCell itemCell _ [.plain false 0 1] [.plain false 0 1] _ >>= _) = _
  rw [walk_single _ rfl, hcell]
  rfl

theorem unite_noItem : noItem.unite noItem = .ok noItems := by
  have hcell : uniteCell noItem noItem ⟨false, false, 0, 0, 0, 3⟩ ⟨false, false, 0, 0, 0, 3⟩
      (empty noItem.space) = .ok noItems := rfl
  rw [unite]
  show (walk true true noItem noItem _ [⟨false, false, 0, 0, 0, 3⟩] [⟨false, false, 0, 0, 0, 3⟩] _
    >>= _) = _
  rw [walk_single _ rfl, hcell]
  rfl

theorem reachable_itemCell : Reachable CellQueryResult.twoItemCells Fits itemCell := by
  refine .ofCellQueryResult (q := .ofCell (fun _ => 0) CellQueryResult.twoItemCells false 0 1)
    (CellQueryResult.wf_ofCell CellQueryResult.wf_twoItemCells _ (by decide) fun _ => by decide)
    rfl ?_ rfl (by decide : 0 < 2 ^ 32)
  intro c hc _ _
  obtain rfl := List.mem_singleton.mp hc
  exact ⟨1, rfl, by decide⟩

theorem reachable_noItem : Reachable CellQueryResult.twoItemCells Fits noItem :=
  .diff reachable_itemCell reachable_itemCell diff_itemCell (by decide : 3 < 2 ^ 32)

theorem reachable_noItems : Reachable CellQueryResult.twoItemCells Fits noItems :=
  .unite reachable_noItem reachable_noItem unite_noItem (by decide : 7 < 2 ^ 32)

theorem found_diff (r : TreedCQRImp) :
    Tree.found (r.cellItems 0) (.op .diff (.pm 1) (.pm 1)) = ⊥ := by
  simp [Tree.found, Items.of]

theorem overlooked_noItems : ∀ cd ∈ noItems.desc, noItems.Overlooked cd ∧ ¬ noItems.Hit cd := by
  intro cd hcd
  obtain rfl := List.mem_singleton.mp hcd
  have ht : CellTree noItems ⟨false, false, 0, 0, 0, 7⟩
      (.op .unite (.op .diff (.pm 1) (.pm 1)) (.op .diff (.pm 1) (.pm 1))) := ⟨rfl, rfl⟩
  constructor
  · exact ht.overlooked_iff.mpr ⟨found_diff _, found_diff _⟩
  · rw [ht.hit_iff, Tree.found, found_diff, bot_sup_eq]
    exact not_not.mpr rfl

/-- For `p - p`, `hasHits` is false and `toCQR` has no cell. -/
theorem hasHits_agrees_noItem :
    noItem.HasHitsAgrees (fun _ => 0) 4 (fun _ => 0) 2 false := by
  refine (hasHits_agrees_iff reachable_noItem.good rfl (fun _ => 0) 4 (fun _ => 0) 2 false).mpr
    (.inr (iff_of_false ?_ ?_))
  all_goals
    rintro ⟨cd, hcd, h⟩
    obtain rfl := List.mem_singleton.mp hcd
    have ht : CellTree noItem ⟨false, false, 0, 0, 0, 3⟩ (.op .diff (.pm 1) (.pm 1)) := ⟨rfl, rfl⟩
  · exact ht.overlooked_iff.mp h
  · exact ht.hit_iff.mp h.hit (found_diff _)

/-- For `(p - p) + (p - p)`, `hasHits` is true and `toCQR` has no cell. -/
theorem not_hasHits_agrees_noItems :
    Reachable CellQueryResult.twoItemCells Fits noItems ∧
      (CellQueryResult.twoItemCells.idxStore.at 0).size = 0 ∧
      ∀ indexType hardwareConcurrency mem threadCount keepEmpty,
        ¬ noItems.HasHitsAgrees indexType hardwareConcurrency mem threadCount keepEmpty := by
  refine ⟨reachable_noItems, rfl, ?_⟩
  rintro indexType hardwareConcurrency mem threadCount keepEmpty ⟨hits, q, hhits, hq, hiff⟩
  have hgood := reachable_noItems.good
  obtain ⟨hits', hhits', hseen⟩ := hasHits_spec indexType hgood
  obtain ⟨q', hq', hhit⟩ := toCQR_spec hgood hardwareConcurrency mem threadCount keepEmpty rfl
  cases hhits.symm.trans hhits'
  cases hq.symm.trans hq'
  have hcell : (⟨false, false, 0, 0, 0, 7⟩ : CellDesc) ∈ noItems.desc := List.mem_singleton_self _
  have hover := (overlooked_noItems _ hcell).1
  have htrue := hseen.mpr ⟨_, hcell, .inr hover, hover.not_onlyFull⟩
  obtain ⟨cd, hcd, hhas⟩ := hhit.mp (hiff.mp htrue)
  exact (overlooked_noItems cd hcd).2 hhas

end TreedCQRImp

end Sserialize
