import Sserialize.Spatial.CellQueryResultSlots

namespace Sserialize

namespace CellSpace

theorem isLocal_iff (sp : CellSpace) : sp.isLocal = true ↔ sp.flags / 2 % 2 = 1 := by
  have hand : sp.flags &&& 2 = (sp.flags.testBit 1).toNat * 2 := Nat.and_two_pow sp.flags 1
  have hbit : sp.flags.testBit 1 = decide (sp.flags / 2 ^ 1 % 2 = 1) := Nat.testBit_eq_decide_div_mod_eq
  unfold isLocal FF_CELL_LOCAL_ITEM_IDS
  rw [hand, hbit]
  by_cases h : sp.flags / 2 ^ 1 % 2 = 1 <;> simp_all

theorem isGlobal_iff (sp : CellSpace) : sp.isGlobal = true ↔ sp.flags / 4 % 2 = 1 := by
  have hand : sp.flags &&& 4 = (sp.flags.testBit 2).toNat * 4 := Nat.and_two_pow sp.flags 2
  have hbit : sp.flags.testBit 2 = decide (sp.flags / 2 ^ 2 % 2 = 1) := Nat.testBit_eq_decide_div_mod_eq
  unfold isGlobal FF_CELL_GLOBAL_ITEM_IDS
  rw [hand, hbit]
  by_cases h : sp.flags / 2 ^ 2 % 2 = 1 <;> simp_all

def globalSpace (sp : CellSpace) : CellSpace :=
  { sp with flags := sp.flags - FF_CELL_LOCAL_ITEM_IDS + FF_CELL_GLOBAL_ITEM_IDS }

def localSpace (sp : CellSpace) : CellSpace :=
  { sp with flags := sp.flags - FF_CELL_GLOBAL_ITEM_IDS + FF_CELL_LOCAL_ITEM_IDS }

variable {sp : CellSpace}

theorem Wf.flags (h : sp.Wf) : (sp.flags / 2 % 2 = 1) ↔ ¬ sp.flags / 4 % 2 = 1 := by
  rw [← isLocal_iff, ← isGlobal_iff, h.oneIdSpace]
  cases sp.isLocal <;> simp

theorem flags_globalSpace (h : sp.Wf) (hlocal : sp.isLocal = true) :
    sp.globalSpace.isLocal = false ∧ sp.globalSpace.isGlobal = true ∧
      sp.globalSpace.localSpace = sp := by
  have hmod := (isLocal_iff sp).mp hlocal
  have hmod' := h.flags.mp hmod
  refine ⟨?_, ?_, ?_⟩
  · rw [Bool.eq_false_iff, Ne, isLocal_iff, globalSpace, FF_CELL_LOCAL_ITEM_IDS,
      FF_CELL_GLOBAL_ITEM_IDS]
    dsimp only
    omega
  · rw [isGlobal_iff, globalSpace, FF_CELL_LOCAL_ITEM_IDS, FF_CELL_GLOBAL_ITEM_IDS]
    dsimp only
    omega
  · have hflags : sp.flags - 2 + 4 - 4 + 2 = sp.flags := by omega
    cases sp
    simp only [globalSpace, localSpace, FF_CELL_LOCAL_ITEM_IDS, FF_CELL_GLOBAL_ITEM_IDS] at hflags ⊢
    rw [hflags]

theorem flags_localSpace (h : sp.Wf) (hglobal : sp.isGlobal = true) :
    sp.localSpace.isLocal = true ∧ sp.localSpace.isGlobal = false ∧
      sp.localSpace.globalSpace = sp := by
  have hmod := (isGlobal_iff sp).mp hglobal
  have hmod' : ¬ sp.flags / 2 % 2 = 1 := fun hl => h.flags.mp hl hmod
  refine ⟨?_, ?_, ?_⟩
  · rw [isLocal_iff, localSpace, FF_CELL_LOCAL_ITEM_IDS, FF_CELL_GLOBAL_ITEM_IDS]
    dsimp only
    omega
  · rw [Bool.eq_false_iff, Ne, isGlobal_iff, localSpace, FF_CELL_LOCAL_ITEM_IDS,
      FF_CELL_GLOBAL_ITEM_IDS]
    dsimp only
    omega
  · have hflags : sp.flags - 4 + 2 - 2 + 4 = sp.flags := by omega
    cases sp
    simp only [globalSpace, localSpace, FF_CELL_LOCAL_ITEM_IDS, FF_CELL_GLOBAL_ITEM_IDS] at hflags ⊢
    rw [hflags]

theorem Wf.globalSpace (h : sp.Wf) (hlocal : sp.isLocal = true) : sp.globalSpace.Wf := by
  obtain ⟨hl, hg, -⟩ := flags_globalSpace h hlocal
  exact ⟨by rw [hl, hg]; rfl, h.counts⟩

theorem Wf.localSpace (h : sp.Wf) (hglobal : sp.isGlobal = true) : sp.localSpace.Wf := by
  obtain ⟨hl, hg, -⟩ := flags_localSpace h hglobal
  exact ⟨by rw [hl, hg]; rfl, h.counts⟩

def Translates (cellIdx : ItemIndex) (localIdx globalIdx : ItemIndex) : Prop :=
  globalIdx.ids.map some = localIdx.ids.map fun localId => cellIdx.ids[localId]?

theorem Translates.length_eq {cellIdx l g : ItemIndex} (h : Translates cellIdx l g) :
    g.ids.length = l.ids.length := by
  have := congrArg List.length h
  simpa using this

theorem toGlobal_eq {cellIdx : ItemIndex} {ids : List Nat}
    (h : ∀ localId ∈ ids, localId < cellIdx.ids.length) :
    ∃ out, toGlobal cellIdx ids = .ok out ∧
      out.map some = ids.map fun localId => cellIdx.ids[localId]? := by
  induction ids with
  | nil => exact ⟨[], rfl, rfl⟩
  | cons localId ids ih =>
    obtain ⟨out, hout, hmap⟩ := ih fun j hj => h j (List.mem_cons_of_mem _ hj)
    have hlt := h localId (by simp)
    have hget : cellIdx.ids[localId]? = some cellIdx.ids[localId] := List.getElem?_eq_getElem hlt
    refine ⟨cellIdx.ids[localId] :: out, ?_, ?_⟩
    · unfold toGlobal at hout ⊢
      rw [List.mapM_cons, hget, hout]
      rfl
    · rw [List.map_cons, List.map_cons, hmap, hget]

theorem toGlobal_ascending {cellIdx : ItemIndex} {ids out : List Nat}
    (hids : ids.Pairwise (· < ·))
    (hmap : out.map some = ids.map fun localId => cellIdx.ids[localId]?) :
    out.Pairwise (· < ·) ∧ ∀ id ∈ out, id ∈ cellIdx.ids := by
  have hget : ∀ (k : Nat) (hk : k < out.length), ∃ (hk' : k < ids.length),
      cellIdx.ids[ids[k]]? = some out[k] := by
    intro k hk
    have hlen : out.length = ids.length := by simpa using congrArg List.length hmap
    have h := congrArg (fun l => l[k]?) hmap
    simp only [List.getElem?_map, List.getElem?_eq_getElem hk,
      List.getElem?_eq_getElem (hlen ▸ hk), Option.map_some] at h
    exact ⟨hlen ▸ hk, (Option.some.inj h).symm⟩
  constructor
  · rw [List.pairwise_iff_getElem]
    intro j k hj hk hjk
    obtain ⟨hj', hjget⟩ := hget j hj
    obtain ⟨hk', hkget⟩ := hget k hk
    have hlt := List.pairwise_iff_getElem.mp hids j k hj' hk' hjk
    obtain ⟨hjlt, hjeq⟩ := List.getElem?_eq_some_iff.mp hjget
    obtain ⟨hklt, hkeq⟩ := List.getElem?_eq_some_iff.mp hkget
    rw [← hjeq, ← hkeq]
    exact List.pairwise_iff_getElem.mp cellIdx.ascending _ _ hjlt hklt hlt
  · intro id hid
    obtain ⟨k, hk, rfl⟩ := List.getElem_of_mem hid
    obtain ⟨_, hkget⟩ := hget k hk
    exact List.mem_of_getElem? hkget

theorem create_eq (i : ItemIndex) : create i.ids = .ok i := by
  unfold create
  rw [dif_pos ⟨i.ascending, i.inRange⟩]

theorem exists_toGlobal {cellIdx l : ItemIndex}
    (h : ∀ localId ∈ l.ids, localId < cellIdx.ids.length) :
    ∃ g : ItemIndex, toGlobal cellIdx l.ids = .ok g.ids ∧ Translates cellIdx l g ∧
      ∀ id ∈ g.ids, id ∈ cellIdx.ids := by
  obtain ⟨out, hout, hmap⟩ := toGlobal_eq h
  obtain ⟨hasc, hmem⟩ := toGlobal_ascending l.ascending hmap
  exact ⟨⟨out, hasc, fun id hid => cellIdx.inRange id (hmem id hid)⟩, hout, hmap, hmem⟩

theorem localIds_eq {k : Nat} {srcIdx cellIdx : List Nat} (hsrc : srcIdx.Pairwise (· < ·))
    (hcell : cellIdx.Pairwise (· < ·)) (hsub : ∀ id ∈ srcIdx, id ∈ cellIdx) :
    ∃ out, CellQueryResult.localIds k srcIdx cellIdx = .ok out ∧ out.Pairwise (· < ·) ∧
      (∀ l ∈ out, k ≤ l ∧ l < k + cellIdx.length) ∧
      srcIdx.map some = out.map fun l => cellIdx[l - k]? := by
  induction cellIdx generalizing k srcIdx with
  | nil =>
    cases srcIdx with
    | nil => exact ⟨[], rfl, List.Pairwise.nil, by simp, rfl⟩
    | cons src srcIdx => exact absurd (hsub src (by simp)) (by simp)
  | cons id cellIdx ih =>
    cases srcIdx with
    | nil => exact ⟨[], rfl, List.Pairwise.nil, by simp, rfl⟩
    | cons src srcIdx =>
      obtain ⟨hid, hcell'⟩ := List.pairwise_cons.mp hcell
      obtain ⟨hhead, hsrc'⟩ := List.pairwise_cons.mp hsrc
      have hshift : ∀ {out : List Nat}, (∀ l ∈ out, k + 1 ≤ l ∧ l < k + 1 + cellIdx.length) →
          out.map (fun l => cellIdx[l - (k + 1)]?) = out.map fun l => (id :: cellIdx)[l - k]? := by
        intro out hout
        refine List.map_congr_left fun l hl => ?_
        have hle := (hout l hl).1
        rw [show l - k = l - (k + 1) + 1 by omega, List.getElem?_cons_succ]
      by_cases heq : src = id
      · have hsub' : ∀ j ∈ srcIdx, j ∈ cellIdx := by
          intro j hj
          rcases List.mem_cons.mp (hsub j (List.mem_cons_of_mem _ hj)) with rfl | hmem
          · exact absurd (hhead j hj) (by omega)
          · exact hmem
        obtain ⟨out, hout, hasc, hrange, hmap⟩ := ih (k := k + 1) hsrc' hcell' hsub'
        refine ⟨k :: out, ?_, ?_, ?_, ?_⟩
        · rw [CellQueryResult.localIds, if_pos heq, hout]
          rfl
        · exact List.pairwise_cons.mpr ⟨fun l hl => (hrange l hl).1, hasc⟩
        · intro l hl
          rw [List.length_cons]
          rcases List.mem_cons.mp hl with rfl | hl
          · omega
          · have := hrange l hl
            omega
        · rw [List.map_cons, List.map_cons, Nat.sub_self, List.getElem?_cons_zero, hmap,
            hshift hrange, heq]
      · have hsub' : ∀ j ∈ src :: srcIdx, j ∈ cellIdx := by
          have hsrcmem := (List.mem_cons.mp (hsub src (by simp))).resolve_left heq
          have hlt := hid src hsrcmem
          intro j hj
          rcases List.mem_cons.mp (hsub j hj) with rfl | hmem
          · rcases List.mem_cons.mp hj with rfl | hj
            · exact absurd rfl heq
            · exact absurd (hhead j hj) (by omega)
          · exact hmem
        obtain ⟨out, hout, hasc, hrange, hmap⟩ := ih (k := k + 1) hsrc hcell' hsub'
        refine ⟨out, ?_, hasc, ?_, ?_⟩
        · rw [CellQueryResult.localIds, if_neg heq, hout]
        · intro l hl
          have := hrange l hl
          rw [List.length_cons]
          omega
        · rw [hmap, hshift hrange]

theorem exists_toLocal {cellIdx g : ItemIndex} (h : ∀ id ∈ g.ids, id ∈ cellIdx.ids) :
    ∃ l : ItemIndex, CellQueryResult.localIds 0 g.ids cellIdx.ids = .ok l.ids ∧
      Translates cellIdx l g ∧ ∀ localId ∈ l.ids, localId < cellIdx.ids.length := by
  obtain ⟨out, hout, hasc, hrange, hmap⟩ := localIds_eq (k := 0) g.ascending cellIdx.ascending h
  have hlt : ∀ localId ∈ out, localId < cellIdx.ids.length := by
    intro localId hl
    have := hrange localId hl
    omega
  have hin : ∀ localId ∈ out, localId < 2 ^ 32 := by
    intro localId hl
    have hlen := cellIdx.length_le
    have := hlt localId hl
    omega
  exact ⟨⟨out, hasc, hin⟩, hout, hmap, hlt⟩

theorem Translates.unique {cellIdx l l' g : ItemIndex} (h : Translates cellIdx l g)
    (h' : Translates cellIdx l' g) : l = l' := by
  have hpos : ∀ {m : ItemIndex}, Translates cellIdx m g →
      m.ids = g.ids.map fun id => cellIdx.ids.idxOf id := by
    intro m hm
    refine List.ext_getElem (by rw [List.length_map]; exact hm.length_eq.symm) fun k hk hk' => ?_
    have hkg : k < g.ids.length := by simpa using hk'
    have hget := congrArg (fun l => l[k]?) hm
    simp only [List.getElem?_map, List.getElem?_eq_getElem hk, List.getElem?_eq_getElem hkg,
      Option.map_some] at hget
    obtain ⟨hlt, heq⟩ := List.getElem?_eq_some_iff.mp (Option.some.inj hget).symm
    rw [List.getElem_map, ← heq]
    have hnodup : cellIdx.ids.Nodup := cellIdx.ascending.imp Nat.ne_of_lt
    exact (hnodup.idxOf_getElem _ hlt).symm
  exact IdList.ext ((hpos h).trans (hpos h').symm)

theorem Translates.unique_right {cellIdx l g g' : ItemIndex} (h : Translates cellIdx l g)
    (h' : Translates cellIdx l g') : g = g' := by
  have hmap : g.ids.map some = g'.ids.map some := h.trans h'.symm
  exact IdList.ext (List.map_injective_iff.mpr (Option.some_injective _) hmap)

theorem fullIdx_of_local (hlocal : sp.isLocal = true) (cellId : Nat) :
    (sp.fullIdx cellId).ids = List.range (sp.ci.cellItemsCount cellId) := by
  rw [fullIdx, if_pos hlocal]
  rfl

theorem fullIdx_of_global (hlocal : sp.isLocal = false) (cellId : Nat) :
    sp.fullIdx cellId = sp.cellIdx cellId := by
  rw [fullIdx, hlocal]
  rfl

theorem Wf.translates_full (h : sp.Wf) {cellId : Nat} (hcell : cellId < sp.ci.cellSize)
    {l : ItemIndex} (hl : l.ids = List.range (sp.ci.cellItemsCount cellId)) :
    Translates (sp.cellIdx cellId) l (sp.cellIdx cellId) := by
  have hcount : (sp.cellIdx cellId).ids.length = sp.ci.cellItemsCount cellId := h.counts cellId hcell
  rw [Translates, hl, ← hcount]
  refine List.ext_getElem (by simp) fun k hk hk' => ?_
  have hlt : k < (sp.cellIdx cellId).ids.length := by simpa using hk
  rw [List.getElem_map, List.getElem_map, List.getElem_range, List.getElem?_eq_getElem hlt]

end CellSpace

namespace CellQueryResult

open CellSpace

structure ConvertedCell (sp sp' : CellSpace) (c c' : Cell) : Prop where
  cellId : c'.cellId = c.cellId
  fullMatch : c'.fullMatch = c.fullMatch
  translates : ∃ i i', sp.idx c = .ok i ∧ sp'.idx c' = .ok i' ∧
    if sp.isLocal then Translates (sp.cellIdx c.cellId) i i'
    else Translates (sp.cellIdx c.cellId) i' i
  items : sp'.items c' = sp.items c

/-- The conversion of a cell succeeds, and a full cell has no fetched index. -/
structure ConvertsTo (sp sp' : CellSpace) (c c' : Cell) : Prop where
  wf : c'.Wf sp'
  converted : ConvertedCell sp sp' c c'
  notFetched : c'.fullMatch = true → c'.fetched = false

variable {sp : CellSpace} {c : Cell}

theorem sourceIdx_eq (hc : c.Wf sp) (hfull : c.fullMatch = false) :
    sourceIdx sp c = .ok (sp.indexOf c) := by
  rw [← hc.idx_eq]
  unfold sourceIdx CellSpace.idx
  rw [hfull]
  cases c.fetched <;> rfl

theorem convertsTo_full {sp sp' : CellSpace} (hsp : sp.Wf) (hsp' : sp'.Wf)
    (hci : sp'.ci = sp.ci) (hcells : ∀ cellId, sp'.cellIdx cellId = sp.cellIdx cellId)
    (hflags : sp'.isLocal = !sp.isLocal) {c : Cell} (hc : c.Wf sp)
    (hfull : c.fullMatch = true) (hfetched : c.fetched = false) (id : Nat) :
    ConvertsTo sp sp' c { desc := c.desc, slot := .idxPtr id } := by
  have hcell' : c.cellId < sp'.ci.cellSize := hci ▸ hc.inRange
  have hidx' : sp'.idx { desc := c.desc, slot := .idxPtr id } = .ok (sp'.fullIdx c.cellId) :=
    idx_of_full hfull hfetched
  have hidx := hc.full hfull
  refine ⟨wf_fullCell hcell' hfull hfetched ⟨id, rfl⟩, ⟨rfl, rfl, ?_, ?_⟩, fun _ => hfetched⟩
  · refine ⟨_, _, hidx, hidx', ?_⟩
    cases hlocal : sp.isLocal with
    | true =>
      have hlocal' : sp'.isLocal = false := by rw [hflags, hlocal]; rfl
      rw [if_pos rfl, fullIdx_of_global hlocal', hcells]
      exact hsp.translates_full hc.inRange (fullIdx_of_local hlocal _)
    | false =>
      have hlocal' : sp'.isLocal = true := by rw [hflags, hlocal]; rfl
      rw [if_neg (by decide), fullIdx_of_global hlocal, ← hcells]
      exact hsp'.translates_full hcell' (fullIdx_of_local hlocal' _)
  · unfold CellSpace.items
    rw [hidx', hidx, hsp.oneIdSpace, hsp'.oneIdSpace, hflags]
    have hfull' : Cell.fullMatch { desc := c.desc, slot := .idxPtr id } = true := hfull
    cases hlocal : sp.isLocal with
    | true =>
      have hlocal' : sp'.isLocal = false := by rw [hflags, hlocal]; rfl
      rw [fullIdx_of_global hlocal', hcells, hfull]
      rfl
    | false =>
      rw [fullIdx_of_global hlocal, hfull', hcells]
      rfl

theorem toGlobalCell_spec (hsp : sp.Wf) (hlocal : sp.isLocal = true) (hc : c.Wf sp)
    (hclear : c.fullMatch = true → c.fetched = false) (mem : Nat → Nat) (i : Nat) :
    ∃ c', toGlobalCell mem sp i c = .ok c' ∧ ConvertsTo sp sp.globalSpace c c' := by
  obtain ⟨hl', hg', -⟩ := flags_globalSpace hsp hlocal
  by_cases hfull : c.fullMatch = true
  · refine ⟨_, by rw [toGlobalCell, if_pos hfull]; rfl, ?_⟩
    exact convertsTo_full hsp (hsp.globalSpace hlocal) rfl (fun _ => rfl) (by rw [hl', hlocal]; rfl)
      hc hfull (hclear hfull) _
  · have hpartial : c.fullMatch = false := by simpa using hfull
    have hlt : ∀ localId ∈ (sp.indexOf c).ids, localId < (sp.cellIdx c.cellId).ids.length := by
      intro localId hid
      have hmem := hc.mem_full hid
      rw [fullIdx_of_local hlocal, List.mem_range] at hmem
      have hcount := hsp.counts c.cellId hc.inRange
      exact lt_of_lt_of_eq hmem hcount.symm
    obtain ⟨g, hg, htrans, hsub⟩ := exists_toGlobal hlt
    refine ⟨{ desc := ⟨false, true, c.cellId⟩, slot := .idx g }, ?_, ?_, ⟨rfl, hpartial.symm, ?_, ?_⟩,
      fun h => by cases h⟩
    · rw [toGlobalCell, if_neg hfull, sourceIdx_eq hc hpartial, ok_bind, hg, ok_bind, create_eq]
      rfl
    · refine ⟨hc.inRange, fun _ => ⟨g, rfl⟩, (fun h => by cases h), (fun h => by cases h), ?_⟩
      intro j hj
      cases hj
      rw [fullIdx_of_global hl']
      exact hsub
    · refine ⟨_, g, hc.idx_eq, rfl, ?_⟩
      rw [if_pos hlocal]
      exact htrans
    · unfold CellSpace.items
      rw [hg', if_pos rfl, hsp.oneIdSpace, hlocal, hpartial, hc.idx_eq]
      simp only [Bool.not_true, Bool.false_eq_true, if_false, ok_bind, hg, create_eq]
      rfl

theorem toLocalCell_spec (hsp : sp.Wf) (hglobal : sp.isGlobal = true) (hc : c.Wf sp)
    (hclear : c.fullMatch = true → c.fetched = false) (mem : Nat → Nat) (i : Nat) :
    ∃ c', toLocalCell mem sp i c = .ok c' ∧ ConvertsTo sp sp.localSpace c c' := by
  obtain ⟨hl', hg', -⟩ := flags_localSpace hsp hglobal
  have hlocal : sp.isLocal = false := by
    have h := hsp.oneIdSpace
    rw [hglobal] at h
    simpa using h
  by_cases hfull : c.fullMatch = true
  · refine ⟨_, by rw [toLocalCell, if_pos hfull]; rfl, ?_⟩
    exact convertsTo_full hsp (hsp.localSpace hglobal) rfl (fun _ => rfl) (by rw [hl', hlocal]; rfl)
      hc hfull (hclear hfull) _
  · have hpartial : c.fullMatch = false := by simpa using hfull
    have hsub : ∀ id ∈ (sp.indexOf c).ids, id ∈ (sp.cellIdx c.cellId).ids := by
      intro id hid
      rw [← fullIdx_of_global hlocal]
      exact hc.mem_full hid
    obtain ⟨l, hl, htrans, hlt⟩ := exists_toLocal hsub
    have hcount := hsp.counts c.cellId hc.inRange
    refine ⟨{ desc := ⟨false, true, c.cellId⟩, slot := .idx l }, ?_, ?_, ⟨rfl, hpartial.symm, ?_, ?_⟩,
      fun h => by cases h⟩
    · rw [toLocalCell, if_neg hfull, sourceIdx_eq hc hpartial, ok_bind, hl, ok_bind, create_eq]
      rfl
    · refine ⟨hc.inRange, fun _ => ⟨l, rfl⟩, (fun h => by cases h), (fun h => by cases h), ?_⟩
      intro j hj id hid
      cases hj
      rw [fullIdx_of_local hl', List.mem_range]
      exact lt_of_lt_of_eq (hlt id hid) hcount
    · refine ⟨_, l, hc.idx_eq, rfl, ?_⟩
      rw [if_neg (by rw [hlocal]; decide)]
      exact htrans
    · obtain ⟨g, hg, htrans', -⟩ := exists_toGlobal hlt
      obtain rfl := htrans.unique_right htrans'
      unfold CellSpace.items
      rw [hg', hglobal, if_pos rfl, hc.idx_eq, idx_fetchedCell]
      simp only [Bool.false_eq_true, if_false, ok_bind]
      have hcell : sp.localSpace.cellIdx c.cellId = sp.cellIdx c.cellId := rfl
      rw [hcell, hg, ok_bind, create_eq]
      rfl

variable {f : Nat → Cell → Except Fault Cell}

theorem convertCells_spec {R : Cell → Cell → Prop} {cells : List Cell}
    (h : ∀ c ∈ cells, ∀ i, ∃ c', f i c = .ok c' ∧ R c c') (i : Nat) :
    ∃ cells', convertCells f i cells = .ok cells' ∧ List.Forall₂ R cells cells' := by
  induction cells generalizing i with
  | nil => exact ⟨[], rfl, List.Forall₂.nil⟩
  | cons c cells ih =>
    obtain ⟨c', hc', hR⟩ := h c (by simp) i
    obtain ⟨cells', hcells', hRs⟩ := ih (fun d hd => h d (List.mem_cons_of_mem _ hd)) (i + 1)
    refine ⟨c' :: cells', ?_, List.Forall₂.cons hR hRs⟩
    rw [convertCells, hc', ok_bind, hcells']
    rfl

theorem forall₂_of_convertCells {i : Nat} {cells cells' : List Cell}
    (h : convertCells f i cells = .ok cells') :
    List.Forall₂ (fun c c' => ∃ i, f i c = .ok c') cells cells' := by
  induction cells generalizing i cells' with
  | nil =>
    cases h
    exact List.Forall₂.nil
  | cons c cells ih =>
    rw [convertCells] at h
    obtain ⟨c', hc', h⟩ := bind_eq_ok h
    obtain ⟨cells', hcells', h⟩ := bind_eq_ok h
    cases h
    exact List.Forall₂.cons ⟨i, hc'⟩ (ih hcells')

/-- The cells in their order, with their full flags and translated indices. -/
structure Converted (r r' : CellQueryResult) : Prop where
  wf : r'.Wf
  cells : List.Forall₂ (ConvertedCell r.space r'.space) r.cells r'.cells

structure SameItems (r r' : CellQueryResult) : Prop where
  space : r'.space = r.space
  cells : List.Forall₂ (fun c c' => c'.cellId = c.cellId ∧ c'.fullMatch = c.fullMatch ∧
    r.space.idx c' = r.space.idx c ∧ r.space.items c' = r.space.items c) r.cells r'.cells

structure ConversionSpec (r : CellQueryResult) : Prop where
  toGlobal : r.space.isLocal = true → ∀ mem mem', ∃ g l,
    r.toGlobalItemIds mem = .ok g ∧ g.space = r.space.globalSpace ∧ Converted r g ∧
      g.toCellLocalItemIds mem' = .ok l ∧ Converted g l ∧ SameItems r l
  toLocal : r.space.isGlobal = true → ∀ mem mem', ∃ l g,
    r.toCellLocalItemIds mem = .ok l ∧ l.space = r.space.localSpace ∧ Converted r l ∧
      l.toGlobalItemIds mem' = .ok g ∧ Converted l g ∧ SameItems r g

def NoFetchedFull (r : CellQueryResult) : Prop :=
  ∀ c ∈ r.cells, c.fullMatch = true → c.fetched = false

variable {r : CellQueryResult}

theorem converted_of_forall₂ (hr : r.Wf) {sp' : CellSpace} (hsp' : sp'.Wf) {cells' : List Cell}
    (h : List.Forall₂ (ConvertsTo r.space sp') r.cells cells') :
    Converted r ⟨sp', cells'⟩ ∧ NoFetchedFull ⟨sp', cells'⟩ := by
  refine ⟨⟨⟨hsp', ?_, ?_⟩, h.imp fun _ _ hc => hc.converted⟩, ?_⟩
  · exact sorted_of_forall₂ h (fun _ _ hc => hc.converted.cellId) hr.sorted
  · intro c' hc'
    obtain ⟨c, -, hconv⟩ := (forall₂_exists h).1 c' hc'
    exact hconv.wf
  · intro c' hc'
    obtain ⟨c, -, hconv⟩ := (forall₂_exists h).1 c' hc'
    exact hconv.notFetched

theorem toGlobalItemIds_spec (hr : r.Wf) (hlocal : r.space.isLocal = true) (hclear : NoFetchedFull r)
    (mem : Nat → Nat) :
    ∃ g, r.toGlobalItemIds mem = .ok g ∧ g.space = r.space.globalSpace ∧ Converted r g ∧
      NoFetchedFull g := by
  have hglobal : r.space.isGlobal = false := by rw [hr.space.oneIdSpace, hlocal]; rfl
  obtain ⟨cells', hcells', hconv⟩ := convertCells_spec (R := ConvertsTo r.space r.space.globalSpace)
    (fun c hc i => toGlobalCell_spec hr.space hlocal (hr.cells c hc) (hclear c hc) mem i) 0
  obtain ⟨hconverted, hnot⟩ := converted_of_forall₂ hr (hr.space.globalSpace hlocal) hconv
  refine ⟨⟨r.space.globalSpace, cells'⟩, ?_, rfl, hconverted, hnot⟩
  simp [toGlobalItemIds, hlocal, hglobal, hcells', globalSpace]

theorem toCellLocalItemIds_spec (hr : r.Wf) (hglobal : r.space.isGlobal = true)
    (hclear : NoFetchedFull r) (mem : Nat → Nat) :
    ∃ l, r.toCellLocalItemIds mem = .ok l ∧ l.space = r.space.localSpace ∧ Converted r l ∧
      NoFetchedFull l := by
  have hlocal : r.space.isLocal = false := by
    have h := hr.space.oneIdSpace
    rw [hglobal] at h
    simpa using h
  obtain ⟨cells', hcells', hconv⟩ := convertCells_spec (R := ConvertsTo r.space r.space.localSpace)
    (fun c hc i => toLocalCell_spec hr.space hglobal (hr.cells c hc) (hclear c hc) mem i) 0
  obtain ⟨hconverted, hnot⟩ := converted_of_forall₂ hr (hr.space.localSpace hglobal) hconv
  refine ⟨⟨r.space.localSpace, cells'⟩, ?_, rfl, hconverted, hnot⟩
  simp [toCellLocalItemIds, hlocal, hglobal, hcells', localSpace]

theorem idx_back {sp sp' : CellSpace} {c c' c'' : Cell} (hflags : sp'.isLocal = !sp.isLocal)
    (hcells : ∀ cellId, sp'.cellIdx cellId = sp.cellIdx cellId) (h : ConvertedCell sp sp' c c')
    (h' : ConvertedCell sp' sp c' c'') : sp.idx c'' = sp.idx c := by
  obtain ⟨i, i', hi, hi', htrans⟩ := h.translates
  obtain ⟨j, j', hj, hj', htrans'⟩ := h'.translates
  rw [hi'] at hj
  obtain rfl := Except.ok.inj hj
  rw [hcells, h.cellId, hflags] at htrans'
  rw [hi, hj']
  cases hlocal : sp.isLocal with
  | true =>
    simp only [hlocal, Bool.not_true, Bool.false_eq_true, if_false, if_true] at htrans htrans'
    rw [htrans.unique htrans']
  | false =>
    simp only [hlocal, Bool.not_false, Bool.false_eq_true, if_false, if_true] at htrans htrans'
    rw [htrans.unique_right htrans']

theorem sameItems_back {r g l : CellQueryResult} (hspace : l.space = r.space)
    (hflags : g.space.isLocal = !r.space.isLocal)
    (hcells : ∀ cellId, g.space.cellIdx cellId = r.space.cellIdx cellId) (h : Converted r g)
    (h' : Converted g l) : SameItems r l := by
  refine ⟨hspace, ?_⟩
  have hback := h'.cells
  rw [hspace] at hback
  obtain hforth := h.cells
  generalize g.cells = gcells at hforth hback
  generalize l.cells = lcells at hback ⊢
  generalize r.cells = rcells at hforth ⊢
  induction hforth generalizing lcells with
  | nil =>
    cases hback
    exact List.Forall₂.nil
  | cons hc _ ih =>
    cases hback with
    | cons hc' hrest =>
      refine List.Forall₂.cons ⟨?_, ?_, idx_back hflags hcells hc hc', ?_⟩ (ih _ hrest)
      · rw [hc'.cellId, hc.cellId]
      · rw [hc'.fullMatch, hc.fullMatch]
      · rw [hc'.items, hc.items]

theorem conversionSpec_of_noFetchedFull (hr : r.Wf) (hclear : NoFetchedFull r) :
    ConversionSpec r := by
  constructor
  · intro hlocal mem mem'
    obtain ⟨hgl, hgg, hback⟩ := flags_globalSpace hr.space hlocal
    obtain ⟨g, hg, hgspace, hrg, hgclear⟩ := toGlobalItemIds_spec hr hlocal hclear mem
    obtain ⟨l, hl, hlspace, hgl', -⟩ :=
      toCellLocalItemIds_spec hrg.wf (by rw [hgspace]; exact hgg) hgclear mem'
    have hspace : l.space = r.space := by rw [hlspace, hgspace, hback]
    refine ⟨g, l, hg, hgspace, hrg, hl, hgl', sameItems_back hspace ?_ ?_ hrg hgl'⟩
    · rw [hgspace, hgl, hlocal]
      rfl
    · intro cellId
      rw [hgspace]
      rfl
  · intro hglobal mem mem'
    obtain ⟨hll, -, hback⟩ := flags_localSpace hr.space hglobal
    obtain ⟨l, hl, hlspace, hrl, hlclear⟩ := toCellLocalItemIds_spec hr hglobal hclear mem
    obtain ⟨g, hg, hgspace, hlg', -⟩ :=
      toGlobalItemIds_spec hrl.wf (by rw [hlspace]; exact hll) hlclear mem'
    have hspace : g.space = r.space := by rw [hgspace, hlspace, hback]
    have hlocal : r.space.isLocal = false := by
      have h := hr.space.oneIdSpace
      rw [hglobal] at h
      simpa using h
    refine ⟨l, g, hl, hlspace, hrl, hg, hlg', sameItems_back hspace ?_ ?_ hrl hlg'⟩
    · rw [hlspace, hll, hlocal]
      rfl
    · intro cellId
      rw [hlspace]
      rfl

theorem not_converted_of_fetched {sp sp' : CellSpace} {c : Cell} (hfetched : c.fetched = true)
    (id : Nat) : ¬ ConvertedCell sp sp' c { desc := c.desc, slot := .idxPtr id } := by
  rintro ⟨-, -, ⟨i, i', -, hi', -⟩, -⟩
  unfold CellSpace.idx at hi'
  rw [if_pos hfetched] at hi'
  cases hi'

theorem noFetchedFull_of_conversionSpec (hr : r.Wf) (hspec : ConversionSpec r) :
    NoFetchedFull r := by
  intro c hc hfull
  rw [Bool.eq_false_iff]
  intro hfetched
  -- the cells of the result are the converted cells, of which this one is a copy
  cases hlocal : r.space.isLocal with
  | true =>
    have hglobal : r.space.isGlobal = false := by rw [hr.space.oneIdSpace, hlocal]; rfl
    obtain ⟨g, -, hg, -, hrg, -⟩ := hspec.toGlobal hlocal (fun _ => 0) (fun _ => 0)
    simp only [toGlobalItemIds, hlocal, hglobal, Bool.not_true, Bool.or_false, Bool.false_eq_true,
      if_false] at hg
    obtain ⟨cells', hcells', hg⟩ := bind_eq_ok hg
    cases hg
    have hboth := hrg.cells.mp (fun _ _ h hf => And.intro h hf) (forall₂_of_convertCells hcells')
    obtain ⟨c', -, hconv, i, hi⟩ := (forall₂_exists hboth).2 c hc
    rw [toGlobalCell, if_pos hfull] at hi
    cases hi
    exact not_converted_of_fetched hfetched 0 hconv
  | false =>
    have hglobal : r.space.isGlobal = true := by rw [hr.space.oneIdSpace, hlocal]; rfl
    obtain ⟨l, -, hl, -, hrl, -⟩ := hspec.toLocal hglobal (fun _ => 0) (fun _ => 0)
    simp only [toCellLocalItemIds, hlocal, hglobal, Bool.not_true, Bool.or_false,
      Bool.false_eq_true, if_false] at hl
    obtain ⟨cells', hcells', hl⟩ := bind_eq_ok hl
    cases hl
    have hboth := hrl.cells.mp (fun _ _ h hf => And.intro h hf) (forall₂_of_convertCells hcells')
    obtain ⟨c', -, hconv, i, hi⟩ := (forall₂_exists hboth).2 c hc
    rw [toLocalCell, if_pos hfull] at hi
    cases hi
    exact not_converted_of_fetched hfetched 0 hconv

/-- The conversions keep the cells and translate their items, there and back, exactly for results
without a fetched full cell. -/
theorem conversion_iff (hr : r.Wf) : ConversionSpec r ↔ NoFetchedFull r :=
  ⟨noFetchedFull_of_conversionSpec hr, conversionSpec_of_noFetchedFull hr⟩

theorem conversion_fourKinds : ConversionSpec fourKinds :=
  (conversion_iff wf_fourKinds).mpr (by simp [NoFetchedFull, fourKinds, fullCell, partialCell])

def fetchedFull : CellQueryResult where
  space := oneCell
  cells := [{ desc := ⟨true, true, 0⟩, slot := .idx (oneCell.cellIdx 0) }]

theorem not_conversionSpec_fetchedFull :
    fetchedFull.Wf ∧
      (∀ mem, oneCell.fetch (fullCell mem 0 0) =
        .ok { desc := ⟨true, true, 0⟩, slot := .idx (oneCell.cellIdx 0) }) ∧
      ¬ ConversionSpec fetchedFull := by
  have hwf : fetchedFull.Wf := by
    refine ⟨wf_oneCell, List.pairwise_singleton _ _, fun c hc => ?_⟩
    obtain rfl := List.mem_singleton.mp hc
    refine ⟨by decide, fun _ => ⟨_, rfl⟩, (fun h => by cases h), fun _ => rfl, ?_⟩
    intro i hi id hid
    cases hi
    exact hid
  refine ⟨hwf, fun _ => rfl, fun hspec => ?_⟩
  have hclear := noFetchedFull_of_conversionSpec hwf hspec _ (List.mem_singleton_self _) rfl
  cases hclear

end CellQueryResult

end Sserialize
