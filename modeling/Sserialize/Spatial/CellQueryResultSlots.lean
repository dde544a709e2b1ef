import Sserialize.Spatial.CellQueryResultDiff

namespace Sserialize

open KeyedPairs

/-- The same cell up to a slot that its description does not use. -/
structure Cell.SameUsed (c c' : Cell) : Prop where
  desc : c'.desc = c.desc
  slot : c.fullMatch = false ∨ c.fetched = true → c'.slot = c.slot
  idSlot : c.fetched = false → ∃ id, c'.slot = .idxPtr id

variable {c c' : Cell}

theorem Cell.SameUsed.cellId_eq (h : c.SameUsed c') : c'.cellId = c.cellId := by
  rw [Cell.cellId, h.desc]

theorem Cell.SameUsed.fullMatch_eq (h : c.SameUsed c') : c'.fullMatch = c.fullMatch := by
  rw [Cell.fullMatch, h.desc]

theorem Cell.SameUsed.fetched_eq (h : c.SameUsed c') : c'.fetched = c.fetched := by
  rw [Cell.fetched, h.desc]

theorem Cell.SameUsed.idx_eq (h : c.SameUsed c') (sp : CellSpace) : sp.idx c' = sp.idx c := by
  unfold CellSpace.idx Cell.idx Cell.idxPtr
  rw [h.fetched_eq, h.fullMatch_eq, h.cellId_eq]
  by_cases hfetched : c.fetched = true
  · rw [h.slot (.inr hfetched)]
  · by_cases hfull : c.fullMatch = true
    · simp only [hfetched, hfull, Bool.false_eq_true, if_false, if_true]
    · rw [h.slot (.inl (by simpa using hfull))]

theorem Cell.SameUsed.wf {sp : CellSpace} (h : c.SameUsed c') (hc : c.Wf sp) : c'.Wf sp := by
  constructor
  · rw [h.cellId_eq]
    exact hc.inRange
  · rw [h.fetched_eq]
    intro hfetched
    rw [h.slot (.inr hfetched)]
    exact hc.fetchedSlot hfetched
  · rw [h.fetched_eq]
    exact h.idSlot
  · rw [h.idx_eq, h.fullMatch_eq, h.cellId_eq]
    exact hc.full
  · rw [h.idx_eq, h.cellId_eq]
    exact hc.partialMatch

theorem Cell.Wf.sameUsed {c : Cell} {sp : CellSpace} (h : c.Wf sp) : c.SameUsed c :=
  ⟨rfl, fun _ => rfl, h.idSlot⟩

namespace CellQueryResult

structure SameUsed (r r' : CellQueryResult) : Prop where
  space : r'.space = r.space
  cells : List.Forall₂ Cell.SameUsed r.cells r'.cells

variable {r : CellQueryResult}

theorem Wf.sameUsed (h : r.Wf) : r.SameUsed r :=
  ⟨rfl, List.forall₂_same.mpr fun c hc => (h.cells c hc).sameUsed⟩

theorem map_cellId_eq {R : Cell → Cell → Prop} {cells cells' : List Cell}
    (h : List.Forall₂ R cells cells') (hR : ∀ c c', R c c' → c'.cellId = c.cellId) :
    cells'.map Cell.cellId = cells.map Cell.cellId := by
  induction h with
  | nil => rfl
  | cons hc _ ih => rw [List.map_cons, List.map_cons, ih, hR _ _ hc]

theorem sorted_of_forall₂ {R : Cell → Cell → Prop} {cells cells' : List Cell}
    (h : List.Forall₂ R cells cells') (hR : ∀ c c', R c c' → c'.cellId = c.cellId)
    (hsorted : Sorted Cell.cellId cells) : Sorted Cell.cellId cells' := by
  have hkeys : (cells'.map Cell.cellId).Pairwise (· < ·) := by
    rw [map_cellId_eq h hR]
    exact List.pairwise_map.mpr hsorted
  exact List.pairwise_map.mp hkeys

theorem forall₂_exists {α β : Type} {R : α → β → Prop} {cells : List α} {cells' : List β}
    (h : List.Forall₂ R cells cells') :
    (∀ c' ∈ cells', ∃ c ∈ cells, R c c') ∧ ∀ c ∈ cells, ∃ c' ∈ cells', R c c' := by
  induction h with
  | nil => simp
  | @cons c c' cells cells' hc _ ih =>
    constructor
    · intro d' hd'
      rcases List.mem_cons.mp hd' with rfl | hd'
      · exact ⟨c, by simp, hc⟩
      · obtain ⟨d, hd, hR⟩ := ih.1 d' hd'
        exact ⟨d, List.mem_cons_of_mem _ hd, hR⟩
    · intro d hd
      rcases List.mem_cons.mp hd with rfl | hd
      · exact ⟨c', by simp, hc⟩
      · obtain ⟨d', hd', hR⟩ := ih.2 d hd
        exact ⟨d', List.mem_cons_of_mem _ hd', hR⟩

theorem SameUsed.wf {r r' : CellQueryResult} (h : r.SameUsed r') (hr : r.Wf) : r'.Wf := by
  obtain ⟨hspace, hcells⟩ := h
  constructor
  · rw [hspace]
    exact hr.space
  · exact sorted_of_forall₂ hcells (fun _ _ hc => hc.cellId_eq) hr.sorted
  · intro c' hc'
    obtain ⟨c, hc, hsame⟩ := (forall₂_exists hcells).1 c' hc'
    rw [hspace]
    exact hsame.wf (hr.cells c hc)

theorem SameUsed.has_iff {r r' : CellQueryResult} (h : r.SameUsed r') (cellId id : Nat) :
    r'.Has cellId id ↔ r.Has cellId id := by
  obtain ⟨hspace, hcells⟩ := h
  unfold Has
  rw [hspace]
  constructor
  · rintro ⟨c', hc', hkey, i, hi, hid⟩
    obtain ⟨c, hc, hsame⟩ := (forall₂_exists hcells).1 c' hc'
    rw [hsame.idx_eq] at hi
    rw [hsame.cellId_eq] at hkey
    exact ⟨c, hc, hkey, i, hi, hid⟩
  · rintro ⟨c, hc, hkey, i, hi, hid⟩
    obtain ⟨c', hc', hsame⟩ := (forall₂_exists hcells).2 c hc
    rw [← hsame.idx_eq] at hi
    rw [← hsame.cellId_eq] at hkey
    exact ⟨c', hc', hkey, i, hi, hid⟩

theorem Clear.sameUsed {a a' b b' : CellQueryResult} (h : Clear a b) (ha : a.SameUsed a')
    (hb : b.SameUsed b') : Clear a' b' := by
  intro my' hmy' o' ho' hkey hmyf hof hkind
  obtain ⟨my, hmy, hsame⟩ := (forall₂_exists ha.cells).1 my' hmy'
  obtain ⟨o, ho, hsame'⟩ := (forall₂_exists hb.cells).1 o' ho'
  have hidx := h my hmy o ho
  rw [ha.space, hb.space, hsame.idx_eq, hsame'.idx_eq]
  rw [hsame.cellId_eq, hsame'.cellId_eq] at hkey
  rw [hsame.fetched_eq] at hmyf
  rw [hsame'.fetched_eq] at hof
  rw [hsame.fullMatch_eq, hsame'.fullMatch_eq] at hkind
  exact hidx hkey hmyf hof hkind

variable {sp : CellSpace}

theorem idx_of_full {c : Cell} (hfull : c.fullMatch = true) (hfetched : c.fetched = false) :
    sp.idx c = .ok (sp.fullIdx c.cellId) := by
  simp [CellSpace.idx, hfull, hfetched]

theorem wf_fullCell {c : Cell} (hcell : c.cellId < sp.ci.cellSize) (hfull : c.fullMatch = true)
    (hfetched : c.fetched = false) (hslot : ∃ id, c.slot = .idxPtr id) : c.Wf sp := by
  have hidx : sp.idx c = .ok (sp.fullIdx c.cellId) := idx_of_full hfull hfetched
  refine ⟨hcell, ?_, fun _ => hslot, fun _ => hidx, ?_⟩
  · intro h
    rw [hfetched] at h
    cases h
  · intro i hi id hid
    rw [hidx] at hi
    cases hi
    exact hid

def slotIdx (sp : CellSpace) : IndexDesc → ItemIndex
  | .idx i => i
  | .idxPtr id => sp.idxStore.at id

theorem wf_partialCell {cellId : Nat} {slot : IndexDesc} (hcell : cellId < sp.ci.cellSize)
    (hitems : ∀ id ∈ (slotIdx sp slot).ids, id ∈ (sp.fullIdx cellId).ids) :
    (partialCell cellId slot).Wf sp := by
  cases slot with
  | idx i =>
    refine ⟨hcell, fun _ => ⟨i, rfl⟩, (fun h => by cases h), (fun h => by cases h), ?_⟩
    intro j hj
    cases hj
    exact hitems
  | idxPtr id =>
    refine ⟨hcell, (fun h => by cases h), fun _ => ⟨id, rfl⟩, (fun h => by cases h), ?_⟩
    intro j hj
    cases hj
    exact hitems

theorem wf_ofCell (hsp : sp.Wf) (mem : Nat → Nat) {fullMatch : Bool} {cellId cellIdxId : Nat}
    (hcell : cellId < sp.ci.cellSize)
    (hitems : fullMatch = false →
      ∀ id ∈ (sp.idxStore.at cellIdxId).ids, id ∈ (sp.fullIdx cellId).ids) :
    (ofCell mem sp fullMatch cellId cellIdxId).Wf := by
  refine ⟨hsp, List.pairwise_singleton _ _, ?_⟩
  intro c hc
  obtain rfl := List.mem_singleton.mp hc
  cases fullMatch with
  | true => exact wf_fullCell hcell rfl rfl ⟨_, rfl⟩
  | false => exact wf_partialCell hcell (hitems rfl)

/-- The results are the set operations at every cell, and other contents of the slots that the
descriptions do not use give the same results. -/
structure DifferencesSpec (a b : CellQueryResult) : Prop where
  diff : ∃ d, a.diff b = .ok d ∧ d.Wf ∧
    ∀ cellId id, d.Has cellId id ↔ a.Has cellId id ∧ ¬ b.Has cellId id
  symDiff : ∃ s, a.symDiff b = .ok s ∧ s.Wf ∧
    ∀ cellId id, s.Has cellId id ↔
      (a.Has cellId id ∧ ¬ b.Has cellId id) ∨ (b.Has cellId id ∧ ¬ a.Has cellId id)
  slots : ∀ a' b', a.SameUsed a' → b.SameUsed b' →
    ∃ d d' s s', a.diff b = .ok d ∧ a'.diff b' = .ok d' ∧
      a.symDiff b = .ok s ∧ a'.symDiff b' = .ok s' ∧
      ∀ cellId id, (d'.Has cellId id ↔ d.Has cellId id) ∧ (s'.Has cellId id ↔ s.Has cellId id)

variable {a b : CellQueryResult}

theorem diff_correct (ha : a.Wf) (hb : b.Wf) (hspace : b.space = a.space) (hclear : Clear a b) :
    ∃ d, a.diff b = .ok d ∧ d.Wf ∧
      ∀ cellId id, d.Has cellId id ↔ a.Has cellId id ∧ ¬ b.Has cellId id := by
  have hop := cellOp_diff ha hb hspace
  refine ⟨_, diff_eq ha hb hspace, hop.wf ha hb, fun cellId id => ?_⟩
  rw [hop.has_iff, has_iff_first ha hb, has_iff_second ha hb hspace]
  constructor
  · rintro ⟨p, hp, hkey, hhas⟩
    obtain ⟨hfirst, hsecond⟩ := (diff_has ha hb hspace hclear p hp id).mp hhas
    refine ⟨⟨p, hp, hkey, hfirst⟩, ?_⟩
    rintro ⟨q, hq, hqkey, hq2⟩
    obtain rfl := walk_unique ha hb hq hp (hqkey.trans hkey.symm)
    exact hsecond hq2
  · rintro ⟨⟨p, hp, hkey, hfirst⟩, hsecond⟩
    refine ⟨p, hp, hkey, (diff_has ha hb hspace hclear p hp id).mpr ⟨hfirst, ?_⟩⟩
    exact fun h => hsecond ⟨p, hp, hkey, h⟩

theorem symDiff_correct (ha : a.Wf) (hb : b.Wf) (hspace : b.space = a.space)
    (hclear : Clear a b) :
    ∃ s, a.symDiff b = .ok s ∧ s.Wf ∧ ∀ cellId id, s.Has cellId id ↔
      (a.Has cellId id ∧ ¬ b.Has cellId id) ∨ (b.Has cellId id ∧ ¬ a.Has cellId id) := by
  have hop := cellOp_symDiff ha hb hspace
  refine ⟨_, symDiff_eq ha hb hspace, hop.wf ha hb, fun cellId id => ?_⟩
  rw [hop.has_iff, has_iff_first ha hb, has_iff_second ha hb hspace]
  constructor
  · rintro ⟨p, hp, hkey, hhas⟩
    rcases (symDiff_has ha hb hspace hclear p hp id).mp hhas with ⟨hin, hout⟩ | ⟨hin, hout⟩
    · refine .inl ⟨⟨p, hp, hkey, hin⟩, ?_⟩
      rintro ⟨q, hq, hqkey, hq2⟩
      obtain rfl := walk_unique ha hb hq hp (hqkey.trans hkey.symm)
      exact hout hq2
    · refine .inr ⟨⟨p, hp, hkey, hin⟩, ?_⟩
      rintro ⟨q, hq, hqkey, hq2⟩
      obtain rfl := walk_unique ha hb hq hp (hqkey.trans hkey.symm)
      exact hout hq2
  · rintro (⟨⟨p, hp, hkey, hin⟩, hout⟩ | ⟨⟨p, hp, hkey, hin⟩, hout⟩)
    · refine ⟨p, hp, hkey, (symDiff_has ha hb hspace hclear p hp id).mpr (.inl ⟨hin, ?_⟩)⟩
      exact fun h => hout ⟨p, hp, hkey, h⟩
    · refine ⟨p, hp, hkey, (symDiff_has ha hb hspace hclear p hp id).mpr (.inr ⟨hin, ?_⟩)⟩
      exact fun h => hout ⟨p, hp, hkey, h⟩

theorem differencesSpec_of_clear (ha : a.Wf) (hb : b.Wf) (hspace : b.space = a.space)
    (hclear : Clear a b) : DifferencesSpec a b := by
  refine ⟨diff_correct ha hb hspace hclear, symDiff_correct ha hb hspace hclear, ?_⟩
  intro a' b' hsa hsb
  have hspace' : b'.space = a'.space := by rw [hsa.space, hsb.space, hspace]
  obtain ⟨d, hd, -, hdhas⟩ := diff_correct ha hb hspace hclear
  obtain ⟨s, hs, -, hshas⟩ := symDiff_correct ha hb hspace hclear
  have hclear' := hclear.sameUsed hsa hsb
  obtain ⟨d', hd', -, hdhas'⟩ := diff_correct (hsa.wf ha) (hsb.wf hb) hspace' hclear'
  obtain ⟨s', hs', -, hshas'⟩ := symDiff_correct (hsa.wf ha) (hsb.wf hb) hspace' hclear'
  refine ⟨d, d', s, s', hd, hd', hs, hs', fun cellId id => ?_⟩
  rw [hdhas, hdhas', hshas, hshas', hsa.has_iff, hsb.has_iff]
  exact ⟨Iff.rfl, Iff.rfl⟩

def setSlot (r : CellQueryResult) (c : Cell) (slot : IndexDesc) : CellQueryResult where
  space := r.space
  cells := r.cells.map fun d => if d = c then { d with slot := slot } else d

theorem sameUsed_setSlot (hr : r.Wf) {c : Cell} (id : Nat) (hfull : c.fullMatch = true)
    (hfetched : c.fetched = false) : r.SameUsed (r.setSlot c (.idxPtr id)) := by
  refine ⟨rfl, List.forall₂_map_right_iff.mpr (List.forall₂_same.mpr fun d hd => ?_)⟩
  by_cases heq : d = c
  · rw [if_pos heq, heq]
    refine ⟨rfl, ?_, fun _ => ⟨id, rfl⟩⟩
    simp [hfull, hfetched]
  · rw [if_neg heq]
    exact (hr.cells d hd).sameUsed

theorem mem_setSlot {c : Cell} (hc : c ∈ r.cells) (slot : IndexDesc) : { c with slot := slot } ∈ (r.setSlot c slot).cells :=
  List.mem_map.mpr ⟨c, hc, if_pos rfl⟩

theorem not_has_of_skipped (ha : a.Wf) (hb : b.Wf) (hspace : b.space = a.space) {my o : Cell}
    (hmy : my ∈ a.cells) (ho : o ∈ b.cells) (hkey : my.cellId = o.cellId)
    (hskip : Skipped my o) {s : CellQueryResult} (hs : a.symDiff b = .ok s) (id : Nat) :
    ¬ s.Has my.cellId id := by
  rw [symDiff_eq ha hb hspace] at hs
  obtain rfl := Except.ok.inj hs
  rw [(cellOp_symDiff ha hb hspace).has_iff]
  rintro ⟨p, hp, hpkey, c, hc, -⟩
  have hboth := (mem_walk ha hb (.both my o)).mpr ⟨hmy, ho, hkey⟩
  obtain rfl := walk_unique ha hb hp hboth hpkey
  rw [symDiffCells, if_pos (Or.inr hskip)] at hc
  cases hc

theorem has_cell_iff (hr : r.Wf) {c : Cell} (hc : c ∈ r.cells) (id : Nat) :
    r.Has c.cellId id ↔ id ∈ (r.space.indexOf c).ids := by
  constructor
  · rintro ⟨d, hd, hkey, i, hi, hid⟩
    obtain rfl := hr.sorted.eq hd hc hkey
    rw [(hr.cells d hd).idx_eq] at hi
    cases hi
    exact hid
  · exact fun hid => ⟨c, hc, rfl, _, (hr.cells c hc).idx_eq, hid⟩

theorem clear_of_differencesSpec (ha : a.Wf) (hb : b.Wf) (hspace : b.space = a.space)
    (hspec : DifferencesSpec a b) : Clear a b := by
  intro my hmy o ho hkey hmyf hof hkind
  by_contra hne
  have hmywf := ha.cells my hmy
  have howf := hb.cells o ho
  rw [hmywf.idx_eq, howf.idx_eq] at hne
  -- an item that only one of the cells has
  obtain ⟨id, hid⟩ : ∃ id, ¬ (id ∈ (a.space.indexOf my).ids ↔ id ∈ (b.space.indexOf o).ids) := by
    by_contra hall
    push Not at hall
    exact hne (congrArg Except.ok (ItemIndex.ext_mem hall))
  obtain ⟨s, hs, -, hshas⟩ := hspec.symDiff
  have hin : s.Has my.cellId id := by
    rw [hshas, has_cell_iff ha hmy, hkey, has_cell_iff hb ho]
    tauto
  -- the slot of the full cell gets the id of the partial one
  obtain ⟨myId, hmyId⟩ := hmywf.idSlot hmyf
  obtain ⟨oId, hoId⟩ := howf.idSlot hof
  cases hfull : my.fullMatch with
  | true =>
    have hsame := sameUsed_setSlot ha oId hfull hmyf
    obtain ⟨_, _, t, t', -, -, ht, ht', hiff⟩ := hspec.slots _ _ hsame hb.sameUsed
    rw [hs] at ht
    cases ht
    have hout := not_has_of_skipped (hsame.wf ha) hb hspace (mem_setSlot hmy _) ho hkey
      ⟨hmyf, hof, hoId.symm⟩ ht' id
    exact hout ((hiff my.cellId id).2.mpr hin)
  | false =>
    have hofull : o.fullMatch = true := by
      cases h : o.fullMatch
      · rw [hfull, h] at hkind
        exact absurd rfl hkind
      · rfl
    have hsame := sameUsed_setSlot hb myId hofull hof
    obtain ⟨_, _, t, t', -, -, ht, ht', hiff⟩ := hspec.slots _ _ ha.sameUsed hsame
    rw [hs] at ht
    cases ht
    have hout := not_has_of_skipped ha (hsame.wf hb) hspace hmy (mem_setSlot ho _) hkey
      ⟨hmyf, hof, hmyId⟩ ht' id
    exact hout ((hiff my.cellId id).2.mpr hin)

def oneCell : CellSpace where
  ci := ⟨1, fun _ => 2, fun _ => 0, fun _ => by decide⟩
  idxStore := ⟨[⟨[10, 20], by decide, by decide⟩, ⟨[10], by decide, by decide⟩]⟩
  flags := FF_CELL_GLOBAL_ITEM_IDS

theorem wf_oneCell : oneCell.Wf where
  oneIdSpace := by decide
  counts := by
    intro cellId hcell
    obtain rfl : cellId = 0 := Nat.lt_one_iff.mp hcell
    rfl

def fourCells : CellSpace where
  ci := ⟨4, fun _ => 2, fun cellId => cellId + 2, fun _ => by decide⟩
  idxStore := ⟨[ItemIndex.empty, ⟨[7], by decide, by decide⟩, ⟨[3, 5], by decide, by decide⟩,
    ⟨[4, 7], by decide, by decide⟩, ⟨[2, 9], by decide, by decide⟩, ⟨[6, 8], by decide, by decide⟩]⟩
  flags := FF_CELL_GLOBAL_ITEM_IDS

/-- A full cell, a stored one, a fetched one and an empty one. -/
def fourKinds : CellQueryResult where
  space := fourCells
  cells := [fullCell (fun _ => 0) 0 0, partialCell 1 (.idxPtr 1),
    partialCell 2 (.idx ⟨[9], by decide, by decide⟩), partialCell 3 (.idxPtr 0)]

theorem wf_fourKinds : fourKinds.Wf where
  space := ⟨by decide, by decide⟩
  sorted := by simp [Sorted, fourKinds, fullCell, partialCell, Cell.cellId]
  cells := by
    intro c hc
    simp only [fourKinds, List.mem_cons, List.not_mem_nil, or_false] at hc
    rcases hc with rfl | rfl | rfl | rfl
    · exact wf_fullCell (by decide) rfl rfl ⟨_, rfl⟩
    · exact wf_partialCell (by decide) (by decide)
    · exact wf_partialCell (by decide) (by decide)
    · exact wf_partialCell (by decide) (by decide)

/-- `diff` and `symDiff` are the differences of the cells, whatever the unused slots hold, exactly
for operands that are clear. -/
theorem differences_iff (ha : a.Wf) (hb : b.Wf) (hspace : b.space = a.space) :
    DifferencesSpec a b ↔ Clear a b :=
  ⟨clear_of_differencesSpec ha hb hspace, differencesSpec_of_clear ha hb hspace⟩

theorem differences_iff_oneCell :
    DifferencesSpec (ofCell (fun _ => 0) oneCell false 0 0) (ofCell (fun _ => 0) oneCell false 0 1) ↔
      Clear (ofCell (fun _ => 0) oneCell false 0 0) (ofCell (fun _ => 0) oneCell false 0 1) :=
  differences_iff (wf_ofCell wf_oneCell _ (by decide) fun _ => by decide)
    (wf_ofCell wf_oneCell _ (by decide) fun _ => by decide) rfl

/-- The memory of the full cell happens to hold the id of the partial index. -/
theorem not_differencesSpec_oneCell :
    (ofCell (fun _ => 1) oneCell true 0 0).Wf ∧ (ofCell (fun _ => 1) oneCell false 0 1).Wf ∧
      ¬ DifferencesSpec (ofCell (fun _ => 1) oneCell true 0 0)
        (ofCell (fun _ => 1) oneCell false 0 1) := by
  refine ⟨wf_ofCell wf_oneCell _ (by decide) (fun h => by cases h),
    wf_ofCell wf_oneCell _ (by decide) (fun _ => by decide), fun hspec => ?_⟩
  obtain ⟨d, hd, -, hhas⟩ := hspec.diff
  have hempty : d.cells = [] := by
    have hres : (ofCell (fun _ => 1) oneCell true 0 0).diff (ofCell (fun _ => 1) oneCell false 0 1) =
        .ok ⟨oneCell, []⟩ := by
      simp [diff, ofCell, fullCell, partialCell, IndexDesc.isIdx, pairUp, collect, diffCell,
        sameIdxPtr, Cell.idxPtr]
      rfl
    rw [hres] at hd
    cases hd
    rfl
  have hin : d.Has 0 20 := by
    rw [hhas]
    refine ⟨⟨_, List.mem_singleton_self _, rfl, oneCell.cellIdx 0, rfl, by decide⟩, ?_⟩
    rintro ⟨c, hc, -, i, hi, hid⟩
    obtain rfl := List.mem_singleton.mp hc
    cases hi
    revert hid
    decide
  obtain ⟨c, hc, -⟩ := hin
  rw [hempty] at hc
  cases hc

end CellQueryResult

end Sserialize
