import Sserialize.Spatial.CellQueryResultSlots

namespace Sserialize

open KeyedPairs

namespace CellQueryResult

def isEmptyCell (c : Cell) : Except Fault Bool :=
  if c.fetched then do
    let i ← c.idx
    return decide (i.size = 0)
  else if !c.fullMatch then do
    let id ← c.idxPtr
    return decide (id = 0)
  else .ok false

def countEmpty : List Cell → Except Fault Nat
  | [] => .ok 0
  | c :: cells => do
    let isEmpty ← isEmptyCell c
    let emptyCellCount ← countEmpty cells
    return if isEmpty then emptyCellCount + 1 else emptyCellCount

def realCellCount (r : CellQueryResult) (emptyCellCount : Nat) : Except Fault Nat := do
  let emptyCellCount := if emptyCellCount > r.cells.length then 0 else emptyCellCount
  let emptyCellCount ← if emptyCellCount = 0 then countEmpty r.cells else .ok emptyCellCount
  return r.cells.length - emptyCellCount

def writeSlot (capacity pos : Nat) (desc : CellDesc) (slot : IndexDesc) : Except Fault (Option Cell) :=
  if pos < capacity then .ok (some { desc := desc, slot := slot }) else .error .undefinedBehaviour

def copyCell (mem : Nat → Nat) (capacity pos : Nat) (c : Cell) : Except Fault (Option Cell) :=
  if c.fullMatch then .ok (some { desc := c.desc, slot := .idxPtr (mem pos) })
  else if !c.fetched then do
    let id ← c.idxPtr
    if id ≠ 0 then writeSlot capacity pos c.desc (.idxPtr id) else .ok none
  else do
    let i ← c.idx
    writeSlot capacity pos c.desc (.idx i)

def copyCells (mem : Nat → Nat) (capacity : Nat) : Nat → List Cell → Except Fault (List Cell)
  | _, [] => .ok []
  | pos, c :: cells => do
    match ← copyCell mem capacity pos c with
    | some c' =>
      let cells' ← copyCells mem capacity (pos + 1) cells
      return c' :: cells'
    | none => copyCells mem capacity pos cells

def removeEmpty (mem : Nat → Nat) (r : CellQueryResult) (emptyCellCount : Nat) :
    Except Fault CellQueryResult := do
  let realCellCount ← r.realCellCount emptyCellCount
  let cells ← copyCells mem realCellCount 0 r.cells
  return { space := r.space, cells := cells }

def nonEmpty (sp : CellSpace) (c : Cell) : Bool := decide ((sp.indexOf c).size ≠ 0)

structure KeepsItems (sp : CellSpace) (c c' : Cell) : Prop where
  cellId : c'.cellId = c.cellId
  fullMatch : c'.fullMatch = c.fullMatch
  idx : sp.idx c' = sp.idx c
  items : sp.items c' = sp.items c

def RemovesEmpty (mem : Nat → Nat) (r : CellQueryResult) (emptyCellCount : Nat) : Prop :=
  ∃ r' counted, r.removeEmpty mem emptyCellCount = .ok r' ∧
    r.realCellCount emptyCellCount = .ok counted ∧ r'.cells.length ≤ counted ∧ r'.space = r.space ∧
    List.Forall₂ (KeepsItems r.space) (r.cells.filter (nonEmpty r.space)) r'.cells

def kept (c : Cell) : Bool := c.fullMatch || c.fetched || decide (c.slot ≠ .idxPtr 0)

structure Regular (sp : CellSpace) (c : Cell) : Prop where
  full : c.fullMatch = true → c.fetched = false ∧ (sp.indexOf c).size ≠ 0
  fetched : c.fetched = true → (sp.indexOf c).size ≠ 0
  stored : c.fullMatch = false → c.fetched = false →
    (c.slot = .idxPtr 0 ↔ (sp.indexOf c).size = 0)

structure Slotted (c : Cell) : Prop where
  fetchedSlot : c.fetched = true → ∃ i, c.slot = .idx i
  idSlot : c.fetched = false → ∃ id, c.slot = .idxPtr id

/-- A copy has the same description, and only a full cell loses its slot. -/
structure Copied (c c' : Cell) : Prop where
  desc : c'.desc = c.desc
  full : c.fullMatch = true → ∃ id, c'.slot = .idxPtr id
  slot : c.fullMatch = false → c'.slot = c.slot

variable {sp : CellSpace} {mem : Nat → Nat} {capacity : Nat}

variable {pos : Nat}

theorem writeSlot_of_lt (h : pos < capacity) (desc : CellDesc) (slot : IndexDesc) :
    writeSlot capacity pos desc slot = .ok (some { desc := desc, slot := slot }) :=
  if_pos h

theorem writeSlot_eq_ok {desc : CellDesc} {slot : IndexDesc} {o : Option Cell}
    (h : writeSlot capacity pos desc slot = .ok o) : o = some { desc := desc, slot := slot } := by
  rw [writeSlot] at h
  split at h
  · exact (Except.ok.inj h).symm
  · cases h

variable {c : Cell}

theorem isEmptyCell_eq (hc : c.Wf sp) (hregular : Regular sp c) : isEmptyCell c = .ok (!kept c) := by
  rw [isEmptyCell, kept]
  by_cases hfetched : c.fetched = true
  · obtain ⟨i, hi⟩ := hc.fetchedSlot hfetched
    have hsize := hregular.fetched hfetched
    have hindex : sp.indexOf c = i := by
      rw [CellSpace.indexOf, CellSpace.idx, if_pos hfetched, Cell.idx, hi]
    rw [hindex] at hsize
    rw [if_pos hfetched, Cell.idx, hi, ok_bind, decide_eq_false hsize, hfetched]
    simp
  · rw [if_neg hfetched]
    obtain ⟨id, hid⟩ := hc.idSlot (by simpa using hfetched)
    by_cases hfull : c.fullMatch = true
    · simp [hfull]
    · simp [hfull, hfetched, Cell.idxPtr, hid]

variable {cells : List Cell}

theorem countEmpty_eq (hcells : ∀ c ∈ cells, c.Wf sp) (hregular : ∀ c ∈ cells, Regular sp c) :
    countEmpty cells = .ok (cells.length - (cells.filter kept).length) := by
  induction cells with
  | nil => rfl
  | cons c cells ih =>
    obtain ⟨hc, hcells⟩ := List.forall_mem_cons.mp hcells
    obtain ⟨hreg, hregular⟩ := List.forall_mem_cons.mp hregular
    have hle := List.length_filter_le kept cells
    rw [countEmpty, isEmptyCell_eq hc hreg, ok_bind, ih hcells hregular, ok_bind, List.filter_cons]
    by_cases hkept : kept c = true
    · simp only [hkept, Bool.not_true, Bool.false_eq_true, if_false, if_true, List.length_cons,
        except_pure]
      congr 1
      omega
    · have hdropped : kept c = false := by simpa using hkept
      simp only [hdropped, Bool.not_false, if_true, Bool.false_eq_true, if_false, List.length_cons,
        except_pure]
      congr 1
      omega

variable {r : CellQueryResult}

theorem Wf.slotted (h : r.Wf) : ∀ c ∈ r.cells, Slotted c := fun c hc =>
  ⟨(h.cells c hc).fetchedSlot, (h.cells c hc).idSlot⟩

theorem copyCell_eq_ok (hc : Slotted c) {o : Option Cell}
    (h : copyCell mem capacity pos c = .ok o) :
    (kept c = true ∧ ∃ c', o = some c' ∧ Copied c c') ∨ (kept c = false ∧ o = none) := by
  rw [copyCell] at h
  by_cases hfull : c.fullMatch = true
  · rw [if_pos hfull] at h
    refine .inl ⟨by simp [kept, hfull], _, (Except.ok.inj h).symm, rfl, fun _ => ⟨_, rfl⟩, ?_⟩
    intro hpartial
    rw [hfull] at hpartial
    cases hpartial
  have hnot : c.fullMatch = true → ∃ id, c.slot = .idxPtr id := fun h => absurd h hfull
  rw [if_neg hfull] at h
  by_cases hfetched : c.fetched = true
  · obtain ⟨i, hi⟩ := hc.fetchedSlot hfetched
    simp only [hfetched, Bool.not_true, Bool.false_eq_true, if_false, Cell.idx, hi, ok_bind] at h
    obtain rfl := writeSlot_eq_ok h
    rw [← hi]
    exact .inl ⟨by simp [kept, hfetched], c, rfl, rfl, hnot, fun _ => rfl⟩
  · obtain ⟨id, hid⟩ := hc.idSlot (by simpa using hfetched)
    simp only [hfetched, Bool.not_false, if_true, Cell.idxPtr, hid, ok_bind] at h
    by_cases hzero : id = 0
    · subst hzero
      rw [if_neg (fun hne => hne rfl)] at h
      exact .inr ⟨by simp [kept, hfull, hfetched, hid], (Except.ok.inj h).symm⟩
    · rw [if_pos hzero] at h
      obtain rfl := writeSlot_eq_ok h
      rw [← hid]
      exact .inl ⟨by simp [kept, hid, hzero], c, rfl, rfl, hnot, fun _ => rfl⟩

theorem copyCell_returns (mem : Nat → Nat) (hc : Slotted c)
    (hpos : kept c = true → pos < capacity) : ∃ o, copyCell mem capacity pos c = .ok o := by
  rw [copyCell]
  by_cases hfull : c.fullMatch = true
  · exact ⟨_, if_pos hfull⟩
  rw [if_neg hfull]
  by_cases hfetched : c.fetched = true
  · obtain ⟨i, hi⟩ := hc.fetchedSlot hfetched
    simp only [hfetched, Bool.not_true, Bool.false_eq_true, if_false, Cell.idx, hi, ok_bind]
    exact ⟨_, writeSlot_of_lt (hpos (by simp [kept, hfetched])) _ _⟩
  · obtain ⟨id, hid⟩ := hc.idSlot (by simpa using hfetched)
    simp only [hfetched, Bool.not_false, if_true, Cell.idxPtr, hid, ok_bind]
    by_cases hzero : id = 0
    · exact ⟨none, if_neg (not_not.mpr hzero)⟩
    · rw [if_pos hzero]
      exact ⟨_, writeSlot_of_lt (hpos (by simp [kept, hid, hzero])) _ _⟩

theorem copyCells_eq_ok (hcells : ∀ c ∈ cells, Slotted c) {cells' : List Cell}
    (h : copyCells mem capacity pos cells = .ok cells') :
    List.Forall₂ Copied (cells.filter kept) cells' := by
  induction cells generalizing pos cells' with
  | nil =>
    obtain rfl := Except.ok.inj h
    exact .nil
  | cons c cells ih =>
    obtain ⟨hc, hcells⟩ := List.forall_mem_cons.mp hcells
    rw [copyCells] at h
    obtain ⟨o, hcopy, h⟩ := bind_eq_ok h
    rcases copyCell_eq_ok hc hcopy with ⟨hkept, c', rfl, hcopied⟩ | ⟨hdropped, rfl⟩
    · obtain ⟨rest, hrest, hpure⟩ := bind_eq_ok h
      obtain rfl := Except.ok.inj hpure
      rw [List.filter_cons_of_pos hkept]
      exact .cons hcopied (ih hcells hrest)
    · rw [List.filter_cons_of_neg (by simp [hdropped])]
      exact ih hcells h

theorem copyCells_returns (mem : Nat → Nat) (hcells : ∀ c ∈ cells, Slotted c)
    (hspace : pos + (cells.filter kept).length ≤ capacity) :
    ∃ cells', copyCells mem capacity pos cells = .ok cells' := by
  induction cells generalizing pos with
  | nil => exact ⟨[], rfl⟩
  | cons c cells ih =>
    obtain ⟨hc, hcells⟩ := List.forall_mem_cons.mp hcells
    have hpos : kept c = true → pos < capacity := by
      intro hkept
      rw [List.filter_cons_of_pos hkept, List.length_cons] at hspace
      omega
    obtain ⟨o, hcopy⟩ := copyCell_returns mem hc hpos
    rw [copyCells, hcopy, ok_bind]
    rcases copyCell_eq_ok hc hcopy with ⟨hkept, c', rfl, -⟩ | ⟨hdropped, rfl⟩
    · rw [List.filter_cons_of_pos hkept, List.length_cons] at hspace
      have hbehind : pos + 1 + (cells.filter kept).length ≤ capacity := by omega
      obtain ⟨rest, hrest⟩ := ih hcells hbehind
      exact ⟨c' :: rest, by simp only [hrest, ok_bind, except_pure]⟩
    · rw [List.filter_cons_of_neg (by simp [hdropped])] at hspace
      exact ih hcells hspace

theorem regular_iff :
    Regular sp c ↔ kept c = nonEmpty sp c ∧ ¬ (c.fullMatch = true ∧ c.fetched = true) := by
  constructor
  · intro h
    constructor
    · rw [kept, nonEmpty]
      by_cases hfull : c.fullMatch = true
      · rw [decide_eq_true (h.full hfull).2, hfull]
        rfl
      by_cases hfetched : c.fetched = true
      · rw [decide_eq_true (h.fetched hfetched), hfetched, Bool.or_true]
        rfl
      · have hstored := h.stored (by simpa using hfull) (by simpa using hfetched)
        simp [hfull, hfetched, hstored]
    · rintro ⟨hfull, hfetched⟩
      rw [(h.full hfull).1] at hfetched
      cases hfetched
  · rintro ⟨hkept, hfetched⟩
    have hsize : kept c = true → (sp.indexOf c).size ≠ 0 := by
      intro h
      rw [hkept] at h
      exact of_decide_eq_true h
    refine ⟨?_, ?_, ?_⟩
    · intro hfull
      exact ⟨by simpa [hfull] using hfetched, hsize (by simp [kept, hfull])⟩
    · intro h
      exact hsize (by simp [kept, h])
    · intro hfull hnot
      rw [kept, nonEmpty, hfull, hnot, Bool.or_self, Bool.false_or, decide_eq_decide] at hkept
      exact not_iff_not.mp hkept

theorem Copied.not_fetched {c c' : Cell} (h : Copied c c') (hc : c.Wf sp)
    (hidx : sp.idx c' = sp.idx c) : ¬ (c.fullMatch = true ∧ c.fetched = true) := by
  rintro ⟨hfull, hfetched⟩
  obtain ⟨id, hid⟩ := h.full hfull
  have hfetched' : c'.fetched = true := by rwa [Cell.fetched, h.desc]
  rw [hc.idx_eq, CellSpace.idx, if_pos hfetched', Cell.idx, hid] at hidx
  cases hidx

theorem Copied.keepsItems {c c' : Cell} (h : Copied c c') (hregular : Regular sp c) :
    KeepsItems sp c c' := by
  have hidx : sp.idx c' = sp.idx c := by
    by_cases hfull : c.fullMatch = true
    · have hfetched := (hregular.full hfull).1
      have hfull' : c'.fullMatch = true := by rwa [Cell.fullMatch, h.desc]
      have hfetched' : c'.fetched = false := by rwa [Cell.fetched, h.desc]
      rw [idx_of_full hfull hfetched, idx_of_full hfull' hfetched', Cell.cellId, h.desc]
    · have hslot := h.slot (by simpa using hfull)
      simp only [CellSpace.idx, Cell.idx, Cell.idxPtr, Cell.fetched, Cell.fullMatch, Cell.cellId,
        h.desc, hslot]
  refine ⟨congrArg CellDesc.cellId h.desc, congrArg CellDesc.fullMatch h.desc, hidx, ?_⟩
  rw [CellSpace.items, CellSpace.items, hidx, Cell.fullMatch, Cell.cellId, h.desc]

theorem filter_eq_of_keys (hsorted : Sorted Cell.cellId cells) {p q : Cell → Bool}
    (h : (cells.filter p).map Cell.cellId = (cells.filter q).map Cell.cellId) :
    ∀ c ∈ cells, p c = q c := by
  have hone : ∀ {p q : Cell → Bool},
      (cells.filter p).map Cell.cellId = (cells.filter q).map Cell.cellId →
      ∀ c ∈ cells, p c = true → q c = true := by
    intro p q h c hc hp
    have hmem : c.cellId ∈ (cells.filter q).map Cell.cellId := by
      rw [← h]
      exact List.mem_map_of_mem (List.mem_filter.mpr ⟨hc, hp⟩)
    obtain ⟨d, hd, hkey⟩ := List.mem_map.mp hmem
    obtain ⟨hd, hq⟩ := List.mem_filter.mp hd
    rwa [← Sorted.eq hsorted hd hc hkey]
  intro c hc
  rw [Bool.eq_iff_iff]
  exact ⟨hone h c hc, hone h.symm c hc⟩

theorem realCellCount_eq {n : Nat} (hn : n ≠ 0) (hle : n ≤ r.cells.length) :
    r.realCellCount n = .ok (r.cells.length - n) := by
  rw [realCellCount]
  simp only [if_neg (Nat.not_lt_of_le hle), if_neg hn, ok_bind, except_pure]

theorem realCellCount_counted (h : r.Wf) {n : Nat} (hregular : ∀ c ∈ r.cells, Regular r.space c)
    (hn : n = 0 ∨ r.cells.length < n) : r.realCellCount n = .ok (r.cells.filter kept).length := by
  have hzero : (if n > r.cells.length then 0 else n) = 0 := by
    split <;> omega
  have hle := List.length_filter_le kept r.cells
  rw [realCellCount]
  simp only [hzero, if_true, countEmpty_eq h.cells hregular, ok_bind, except_pure]
  congr 1
  omega

/-- The copies are the cells with items exactly if all cells are regular, and there are not more than
counted exactly if the caller did not give too many empty cells. -/
theorem removeEmpty_iff (mem : Nat → Nat) (r : CellQueryResult) (h : r.Wf) (n : Nat) :
    RemovesEmpty mem r n ↔
      (∀ c ∈ r.cells, Regular r.space c) ∧
        (n = 0 ∨ r.cells.length < n ∨ n ≤ (r.cells.filter fun c => !kept c).length) := by
  have hsplit : (r.cells.filter kept).length + (r.cells.filter fun c => !kept c).length =
      r.cells.length := (List.length_eq_length_filter_add kept).symm
  constructor
  · rintro ⟨r', counted, hremove, hcount, hle, -, hsame⟩
    rw [removeEmpty, hcount, ok_bind] at hremove
    obtain ⟨cells', hcopy, hpure⟩ := bind_eq_ok hremove
    obtain rfl := Except.ok.inj hpure
    have hcopied := copyCells_eq_ok h.slotted hcopy
    have hkeys := map_cellId_eq hsame fun c c' hc => hc.cellId
    rw [map_cellId_eq hcopied fun c c' hc => congrArg CellDesc.cellId hc.desc] at hkeys
    have hagree := filter_eq_of_keys h.sorted hkeys
    constructor
    · intro c hc
      refine regular_iff.mpr ⟨hagree c hc, ?_⟩
      rintro ⟨hfull, hfetched⟩
      have hkept : c ∈ r.cells.filter kept :=
        List.mem_filter.mpr ⟨hc, by simp [kept, hfull]⟩
      obtain ⟨c', hc', hcc'⟩ := (forall₂_exists hcopied).2 c hkept
      obtain ⟨d, hd, hdc'⟩ := (forall₂_exists hsame).1 c' hc'
      have hkey : d.cellId = c.cellId := by
        rw [← hdc'.cellId, Cell.cellId, hcc'.desc]
      obtain rfl := Sorted.eq h.sorted (List.mem_filter.mp hd).1 hc hkey
      exact hcc'.not_fetched (h.cells d hc) hdc'.idx ⟨hfull, hfetched⟩
    · by_cases hn : n = 0
      · exact .inl hn
      by_cases hmore : r.cells.length < n
      · exact .inr (.inl hmore)
      rw [realCellCount_eq hn (Nat.le_of_not_lt hmore)] at hcount
      obtain rfl := Except.ok.inj hcount
      have hlength := hcopied.length_eq
      change cells'.length ≤ _ at hle
      refine .inr (.inr ?_)
      omega
  · rintro ⟨hregular, hn⟩
    have hagree : ∀ c ∈ r.cells, kept c = nonEmpty r.space c := fun c hc =>
      (regular_iff.mp (hregular c hc)).1
    obtain ⟨counted, hcount, hspace⟩ : ∃ counted, r.realCellCount n = .ok counted ∧
        (r.cells.filter kept).length ≤ counted := by
      by_cases hzero : n = 0 ∨ r.cells.length < n
      · exact ⟨_, realCellCount_counted h hregular hzero, Nat.le_refl _⟩
      · refine ⟨_, realCellCount_eq (fun h => hzero (.inl h)) (by omega), ?_⟩
        omega
    obtain ⟨cells', hcopy⟩ := copyCells_returns mem h.slotted
      (by rwa [Nat.zero_add] : 0 + (r.cells.filter kept).length ≤ counted)
    have hcopied := copyCells_eq_ok h.slotted hcopy
    refine ⟨{ space := r.space, cells := cells' }, counted, ?_, hcount, ?_, rfl, ?_⟩
    · rw [removeEmpty, hcount, ok_bind, hcopy]
      rfl
    · change cells'.length ≤ counted
      rw [← hcopied.length_eq]
      exact hspace
    · rw [← List.filter_congr hagree]
      have hboth := (List.forall₂_and_left _ _).mpr
        ⟨fun c hc => hregular c (List.mem_filter.mp hc).1, hcopied⟩
      exact hboth.imp fun c c' hc => hc.2.keepsItems hc.1

def twoItemCells : CellSpace where
  ci := ⟨2, fun _ => 1, fun cellId => cellId + 1, fun _ => by decide⟩
  idxStore := ⟨[ItemIndex.empty, ⟨[3], by decide, by decide⟩, ⟨[5], by decide, by decide⟩]⟩
  flags := FF_CELL_GLOBAL_ITEM_IDS

theorem wf_twoItemCells : twoItemCells.Wf where
  oneIdSpace := by decide
  counts := by decide

theorem removeEmpty_fourKinds : RemovesEmpty (fun _ => 0) fourKinds 1 := by
  refine (removeEmpty_iff (fun _ => 0) fourKinds wf_fourKinds 1).mpr ⟨?_, .inr (.inr (by decide))⟩
  intro c hc
  simp only [fourKinds, List.mem_cons, List.not_mem_nil, or_false] at hc
  rcases hc with rfl | rfl | rfl | rfl
  · exact ⟨by decide, by decide, by decide⟩
  · exact ⟨by decide, by decide, by decide⟩
  · exact ⟨by decide, by decide, by decide⟩
  · exact ⟨by decide, by decide, by decide⟩

def fetchedEmpty : CellQueryResult where
  space := twoItemCells
  cells := [{ desc := ⟨false, true, 0⟩, slot := .idx ItemIndex.empty }]

/-- The cell is counted as empty, and its copy is written behind the memory. -/
theorem not_removesEmpty_fetchedEmpty :
    fetchedEmpty.Wf ∧
      twoItemCells.fetch (partialCell 0 (.idxPtr 0)) =
        .ok { desc := ⟨false, true, 0⟩, slot := .idx ItemIndex.empty } ∧
      ∀ mem, ¬ RemovesEmpty mem fetchedEmpty 0 := by
  refine ⟨⟨wf_twoItemCells, List.pairwise_singleton _ _, ?_⟩, rfl, ?_⟩
  · intro c hc
    obtain rfl := List.mem_singleton.mp hc
    refine ⟨by decide, fun _ => ⟨_, rfl⟩, (fun h => by cases h), (fun h => by cases h), ?_⟩
    intro i hi id hid
    cases hi
    cases hid
  · rintro mem ⟨r', counted, hremove, -⟩
    have hoverrun : fetchedEmpty.removeEmpty mem 0 = .error .undefinedBehaviour := rfl
    rw [hoverrun] at hremove
    cases hremove

end CellQueryResult

end Sserialize
