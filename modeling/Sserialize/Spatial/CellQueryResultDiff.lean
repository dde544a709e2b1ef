import Sserialize.Spatial.CellQueryResult

namespace Sserialize

open KeyedPairs

/-- One id space, and counts that are the sizes of the stored indices. -/
structure CellSpace.Wf (sp : CellSpace) : Prop where
  oneIdSpace : sp.isGlobal = !sp.isLocal
  counts : ∀ cellId < sp.ci.cellSize, (sp.cellIdx cellId).size = sp.ci.cellItemsCount cellId

structure Cell.Wf (sp : CellSpace) (c : Cell) : Prop where
  inRange : c.cellId < sp.ci.cellSize
  fetchedSlot : c.fetched = true → ∃ i, c.slot = .idx i
  idSlot : c.fetched = false → ∃ id, c.slot = .idxPtr id
  full : c.fullMatch = true → sp.idx c = .ok (sp.fullIdx c.cellId)
  partialMatch : ∀ i, sp.idx c = .ok i → ∀ id ∈ i.ids, id ∈ (sp.fullIdx c.cellId).ids

namespace CellQueryResult

structure Wf (r : CellQueryResult) : Prop where
  space : r.space.Wf
  sorted : Sorted Cell.cellId r.cells
  cells : ∀ c ∈ r.cells, c.Wf r.space

def Has (r : CellQueryResult) (cellId id : Nat) : Prop :=
  ∃ c ∈ r.cells, c.cellId = cellId ∧ ∃ i, r.space.idx c = .ok i ∧ id ∈ i.ids

end CellQueryResult

variable {sp : CellSpace}

def CellSpace.indexOf (sp : CellSpace) (c : Cell) : ItemIndex :=
  match sp.idx c with
  | .ok i => i
  | .error _ => ItemIndex.empty

variable {c : Cell}

theorem Cell.Wf.idx_eq (h : c.Wf sp) : sp.idx c = .ok (sp.indexOf c) := by
  have hok : ∃ i, sp.idx c = .ok i := by
    unfold CellSpace.idx
    by_cases hfetched : c.fetched = true
    · obtain ⟨i, hi⟩ := h.fetchedSlot hfetched
      exact ⟨i, by rw [if_pos hfetched, Cell.idx, hi]⟩
    · obtain ⟨id, hid⟩ := h.idSlot (by simpa using hfetched)
      rw [if_neg hfetched]
      by_cases hfull : c.fullMatch = true
      · exact ⟨_, if_pos hfull⟩
      · exact ⟨sp.idxStore.at id, by rw [if_neg hfull, Cell.idxPtr, hid]; rfl⟩
  obtain ⟨i, hi⟩ := hok
  rw [CellSpace.indexOf, hi]

theorem Cell.Wf.copy_eq (h : c.Wf sp) : c.copy = .ok c := by
  unfold Cell.copy
  by_cases hfetched : c.fetched = true
  · obtain ⟨i, hi⟩ := h.fetchedSlot hfetched
    rw [if_pos hfetched, Cell.idx, hi]
    simp only [ok_bind, except_pure, ← hi]
  · obtain ⟨id, hid⟩ := h.idSlot (by simpa using hfetched)
    rw [if_neg hfetched, Cell.idxPtr, hid]
    simp only [ok_bind, except_pure, ← hid]

theorem Cell.Wf.indexOf_full (h : c.Wf sp) (hfull : c.fullMatch = true) :
    sp.indexOf c = sp.fullIdx c.cellId := by
  have hidx := h.full hfull
  rw [h.idx_eq] at hidx
  exact Except.ok.inj hidx

theorem Cell.Wf.mem_full (h : c.Wf sp) {id : Nat} (hid : id ∈ (sp.indexOf c).ids) :
    id ∈ (sp.fullIdx c.cellId).ids :=
  h.partialMatch _ h.idx_eq id hid

namespace CellQueryResult

def Skipped (my o : Cell) : Prop := my.fetched = false ∧ o.fetched = false ∧ my.slot = o.slot

instance (my o : Cell) : Decidable (Skipped my o) :=
  inferInstanceAs (Decidable (_ ∧ _ ∧ _))

theorem sameIdxPtr_eq {my o : Cell} (hmy : my.Wf sp) (ho : o.Wf sp) :
    sameIdxPtr my o = .ok (decide (Skipped my o)) := by
  unfold sameIdxPtr Skipped
  by_cases hfetched : my.fetched = false ∧ o.fetched = false
  · obtain ⟨myId, hmyId⟩ := hmy.idSlot hfetched.1
    obtain ⟨oId, hoId⟩ := ho.idSlot hfetched.2
    simp [hfetched, Cell.idxPtr, hmyId, hoId]
  · have hor : (my.fetched || o.fetched) = true := by
      cases hm : my.fetched <;> cases hc : o.fetched <;> simp_all
    rw [if_pos hor]
    have hnot : ¬ (my.fetched = false ∧ o.fetched = false ∧ my.slot = o.slot) :=
      fun h => hfetched ⟨h.1, h.2.1⟩
    simp [hnot]

def InFirst (sp : CellSpace) : Pairing Cell → Nat → Prop
  | .first my, id => id ∈ (sp.indexOf my).ids
  | .second _, _ => False
  | .both my _, id => id ∈ (sp.indexOf my).ids

def InSecond (sp : CellSpace) : Pairing Cell → Nat → Prop
  | .first _, _ => False
  | .second o, id => id ∈ (sp.indexOf o).ids
  | .both _ o, id => id ∈ (sp.indexOf o).ids

variable {a b : CellQueryResult}

theorem mem_walk (ha : a.Wf) (hb : b.Wf) (p : Pairing Cell) :
    p ∈ pairUp Cell.cellId a.cells b.cells ↔ p.Of Cell.cellId a.cells b.cells :=
  mem_pairUp ha.sorted hb.sorted p

theorem has_iff_first (ha : a.Wf) (hb : b.Wf) (cellId id : Nat) :
    a.Has cellId id ↔
      ∃ p ∈ pairUp Cell.cellId a.cells b.cells, p.key Cell.cellId = cellId ∧
        InFirst a.space p id := by
  constructor
  · rintro ⟨c, hc, rfl, i, hi, hid⟩
    have hmem : id ∈ (a.space.indexOf c).ids := by
      rw [CellSpace.indexOf, hi]
      exact hid
    by_cases hboth : ∃ o ∈ b.cells, o.cellId = c.cellId
    · obtain ⟨o, ho, hkey⟩ := hboth
      exact ⟨.both c o, (mem_walk ha hb _).mpr ⟨hc, ho, hkey.symm⟩, rfl, hmem⟩
    · have hnone : ∀ o ∈ b.cells, o.cellId ≠ c.cellId := fun o ho hkey => hboth ⟨o, ho, hkey⟩
      exact ⟨.first c, (mem_walk ha hb _).mpr ⟨hc, hnone⟩, rfl, hmem⟩
  · rintro ⟨p, hp, hkey, hid⟩
    rw [mem_walk ha hb] at hp
    cases p with
    | first c | both c o => exact ⟨c, hp.1, hkey, _, (ha.cells c hp.1).idx_eq, hid⟩
    | second o => exact hid.elim

theorem has_iff_second (ha : a.Wf) (hb : b.Wf) (hspace : b.space = a.space) (cellId id : Nat) :
    b.Has cellId id ↔
      ∃ p ∈ pairUp Cell.cellId a.cells b.cells, p.key Cell.cellId = cellId ∧
        InSecond a.space p id := by
  constructor
  · rintro ⟨o, ho, rfl, i, hi, hid⟩
    have hmem : id ∈ (a.space.indexOf o).ids := by
      rw [CellSpace.indexOf, ← hspace, hi]
      exact hid
    by_cases hboth : ∃ c ∈ a.cells, c.cellId = o.cellId
    · obtain ⟨c, hc, hkey⟩ := hboth
      exact ⟨.both c o, (mem_walk ha hb _).mpr ⟨hc, ho, hkey⟩, hkey, hmem⟩
    · have hnone : ∀ c ∈ a.cells, c.cellId ≠ o.cellId := fun c hc hkey => hboth ⟨c, hc, hkey⟩
      exact ⟨.second o, (mem_walk ha hb _).mpr ⟨ho, hnone⟩, rfl, hmem⟩
  · rintro ⟨p, hp, hkey, hid⟩
    rw [mem_walk ha hb] at hp
    cases p with
    | first c => exact hid.elim
    | second o =>
      have hidx := (hb.cells o hp.1).idx_eq
      rw [hspace] at hidx
      exact ⟨o, hp.1, hkey, _, by rw [hspace]; exact hidx, hid⟩
    | both c o =>
      have hidx := (hb.cells o hp.2.1).idx_eq
      rw [hspace] at hidx
      exact ⟨o, hp.2.1, hp.2.2.symm.trans hkey, _, by rw [hspace]; exact hidx, hid⟩

theorem walk_unique (ha : a.Wf) (hb : b.Wf) {p q : Pairing Cell}
    (hp : p ∈ pairUp Cell.cellId a.cells b.cells) (hq : q ∈ pairUp Cell.cellId a.cells b.cells)
    (hkey : p.key Cell.cellId = q.key Cell.cellId) : p = q :=
  Sorted.eq (pairwise_pairUp ha.sorted hb.sorted) hp hq hkey

/-- `diffCell` without the faults. -/
def diffCells (sp : CellSpace) : Pairing Cell → List Cell
  | .first my => [my]
  | .second _ => []
  | .both my o =>
    if o.fullMatch = true ∨ Skipped my o then []
    else fetchedCell my.cellId (ItemIndex.apply .difference (sp.indexOf my) (sp.indexOf o))

/-- `symDiffCell` without the faults. -/
def symDiffCells (sp : CellSpace) : Pairing Cell → List Cell
  | .first my => [my]
  | .second o => [o]
  | .both my o =>
    if (my.fullMatch = true ∧ o.fullMatch = true) ∨ Skipped my o then []
    else
      fetchedCell my.cellId (ItemIndex.apply .symmetricDifference (sp.indexOf my) (sp.indexOf o))

theorem wf_of_walk (ha : a.Wf) (hb : b.Wf) (hspace : b.space = a.space) {my o : Cell}
    (hp : Pairing.both my o ∈ pairUp Cell.cellId a.cells b.cells) :
    my.Wf a.space ∧ o.Wf a.space ∧ my.cellId = o.cellId := by
  rw [mem_walk ha hb] at hp
  exact ⟨ha.cells my hp.1, hspace ▸ hb.cells o hp.2.1, hp.2.2⟩

theorem diff_eq (ha : a.Wf) (hb : b.Wf) (hspace : b.space = a.space) :
    a.diff b =
      .ok ⟨a.space, (pairUp Cell.cellId a.cells b.cells).flatMap (diffCells a.space)⟩ := by
  have hcollect : collect (diffCell a.space) (pairUp Cell.cellId a.cells b.cells) =
      .ok ((pairUp Cell.cellId a.cells b.cells).flatMap (diffCells a.space)) := by
    refine collect_eq fun p hp => ?_
    cases p with
    | first my =>
      rw [mem_walk ha hb] at hp
      rw [diffCell, (ha.cells my hp.1).copy_eq]
      rfl
    | second o => rfl
    | both my o =>
      obtain ⟨hmy, ho, -⟩ := wf_of_walk ha hb hspace hp
      rw [diffCell, diffCells, sameIdxPtr_eq hmy ho, hmy.idx_eq, ho.idx_eq]
      by_cases hfull : o.fullMatch = true
      · simp [hfull]
      · by_cases hskip : Skipped my o <;> simp [hfull, hskip]
  rw [diff, hcollect]
  rfl

theorem symDiff_eq (ha : a.Wf) (hb : b.Wf) (hspace : b.space = a.space) :
    a.symDiff b =
      .ok ⟨a.space, (pairUp Cell.cellId a.cells b.cells).flatMap (symDiffCells a.space)⟩ := by
  have hcollect : collect (symDiffCell a.space) (pairUp Cell.cellId a.cells b.cells) =
      .ok ((pairUp Cell.cellId a.cells b.cells).flatMap (symDiffCells a.space)) := by
    refine collect_eq fun p hp => ?_
    cases p with
    | first my =>
      rw [mem_walk ha hb] at hp
      rw [symDiffCell, (ha.cells my hp.1).copy_eq]
      rfl
    | second o =>
      rw [mem_walk ha hb] at hp
      rw [symDiffCell, (hb.cells o hp.1).copy_eq]
      rfl
    | both my o =>
      obtain ⟨hmy, ho, -⟩ := wf_of_walk ha hb hspace hp
      rw [symDiffCell, symDiffCells, sameIdxPtr_eq hmy ho, hmy.idx_eq, ho.idx_eq]
      by_cases hfull : my.fullMatch = true ∧ o.fullMatch = true
      · simp [hfull]
      · have hand : (my.fullMatch && o.fullMatch) = false := by simpa using hfull
        by_cases hskip : Skipped my o <;> simp [hfull, hand, hskip]
  rw [symDiff, hcollect]
  rfl

theorem mem_fetchedCell {cellId : Nat} {res : ItemIndex} {c : Cell} :
    c ∈ fetchedCell cellId res ↔
      res.ids ≠ [] ∧ c = { desc := ⟨false, true, cellId⟩, slot := .idx res } := by
  unfold fetchedCell
  by_cases hnil : res.ids = []
  · simp [ItemIndex.size_eq_zero.mpr hnil, hnil]
  · have hsize : res.size ≠ 0 := fun h => hnil (ItemIndex.size_eq_zero.mp h)
    simp [hsize, hnil]

theorem idx_fetchedCell (sp : CellSpace) (cellId : Nat) (res : ItemIndex) :
    sp.idx { desc := ⟨false, true, cellId⟩, slot := .idx res } = .ok res := rfl

theorem has_fetchedCell (sp : CellSpace) (cellId : Nat) (res : ItemIndex) (id : Nat) :
    (∃ c ∈ fetchedCell cellId res, ∃ i, sp.idx c = .ok i ∧ id ∈ i.ids) ↔ id ∈ res.ids := by
  constructor
  · rintro ⟨c, hc, i, hi, hid⟩
    obtain ⟨-, rfl⟩ := mem_fetchedCell.mp hc
    rw [idx_fetchedCell] at hi
    cases hi
    exact hid
  · intro hid
    exact ⟨_, mem_fetchedCell.mpr ⟨List.ne_nil_of_mem hid, rfl⟩, res, rfl, hid⟩

theorem wf_fetchedCell {cellId : Nat} {res : ItemIndex} (hcell : cellId < sp.ci.cellSize)
    (hres : ∀ id ∈ res.ids, id ∈ (sp.fullIdx cellId).ids) :
    ∀ c ∈ fetchedCell cellId res, c.cellId = cellId ∧ c.Wf sp := by
  intro c hc
  obtain ⟨-, rfl⟩ := mem_fetchedCell.mp hc
  refine ⟨rfl, hcell, fun _ => ⟨res, rfl⟩, (fun h => by cases h), (fun h => by cases h), ?_⟩
  intro i hi
  rw [idx_fetchedCell] at hi
  cases hi
  exact hres

theorem length_fetchedCell (cellId : Nat) (res : ItemIndex) :
    (fetchedCell cellId res).length ≤ 1 := by
  unfold fetchedCell
  split <;> simp

/-- What an operator is that returns at most one cell for each element of the walk. -/
structure CellOp (a b : CellQueryResult) (g : Pairing Cell → List Cell) : Prop where
  cells : ∀ p ∈ pairUp Cell.cellId a.cells b.cells, ∀ c ∈ g p,
    c.cellId = p.key Cell.cellId ∧ c.Wf a.space
  atMostOne : ∀ p ∈ pairUp Cell.cellId a.cells b.cells, (g p).length ≤ 1

variable {g : Pairing Cell → List Cell}

theorem CellOp.wf (hg : CellOp a b g) (ha : a.Wf) (hb : b.Wf) :
    Wf ⟨a.space, (pairUp Cell.cellId a.cells b.cells).flatMap g⟩ where
  space := ha.space
  sorted := sorted_flatMap (pairwise_pairUp ha.sorted hb.sorted)
    (fun p hp c hc => (hg.cells p hp c hc).1) hg.atMostOne
  cells := by
    intro c hc
    obtain ⟨p, hp, hcp⟩ := List.mem_flatMap.mp hc
    exact (hg.cells p hp c hcp).2

theorem CellOp.has_iff (hg : CellOp a b g) (cellId id : Nat) :
    Has ⟨a.space, (pairUp Cell.cellId a.cells b.cells).flatMap g⟩ cellId id ↔
      ∃ p ∈ pairUp Cell.cellId a.cells b.cells, p.key Cell.cellId = cellId ∧
        ∃ c ∈ g p, ∃ i, a.space.idx c = .ok i ∧ id ∈ i.ids := by
  constructor
  · rintro ⟨c, hc, rfl, hid⟩
    obtain ⟨p, hp, hcp⟩ := List.mem_flatMap.mp hc
    exact ⟨p, hp, ((hg.cells p hp c hcp).1).symm, c, hcp, hid⟩
  · rintro ⟨p, hp, rfl, c, hc, hid⟩
    exact ⟨c, List.mem_flatMap.mpr ⟨p, hp, hc⟩, (hg.cells p hp c hc).1, hid⟩

theorem cellOp_diff (ha : a.Wf) (hb : b.Wf) (hspace : b.space = a.space) :
    CellOp a b (diffCells a.space) := by
  constructor
  · intro p hp c hc
    cases p with
    | first my =>
      rw [mem_walk ha hb] at hp
      obtain rfl := List.mem_singleton.mp hc
      exact ⟨rfl, ha.cells c hp.1⟩
    | second o => cases hc
    | both my o =>
      obtain ⟨hmy, -, -⟩ := wf_of_walk ha hb hspace hp
      rw [diffCells] at hc
      split at hc
      · cases hc
      · refine wf_fetchedCell hmy.inRange (fun id hid => ?_) c hc
        exact hmy.mem_full ((ItemIndex.mem_apply _ _ _ _).mp hid).1
  · intro p _
    cases p with
    | first my => exact Nat.le_refl 1
    | second o => exact Nat.zero_le 1
    | both my o =>
      rw [diffCells]
      split
      · exact Nat.zero_le 1
      · exact length_fetchedCell _ _

theorem cellOp_symDiff (ha : a.Wf) (hb : b.Wf) (hspace : b.space = a.space) :
    CellOp a b (symDiffCells a.space) := by
  constructor
  · intro p hp c hc
    cases p with
    | first my =>
      rw [mem_walk ha hb] at hp
      obtain rfl := List.mem_singleton.mp hc
      exact ⟨rfl, ha.cells c hp.1⟩
    | second o =>
      rw [mem_walk ha hb] at hp
      obtain rfl := List.mem_singleton.mp hc
      exact ⟨rfl, hspace ▸ hb.cells c hp.1⟩
    | both my o =>
      obtain ⟨hmy, ho, hkey⟩ := wf_of_walk ha hb hspace hp
      rw [symDiffCells] at hc
      split at hc
      · cases hc
      · refine wf_fetchedCell hmy.inRange (fun id hid => ?_) c hc
        rcases (ItemIndex.mem_apply _ _ _ _).mp hid with ⟨hid, -⟩ | ⟨hid, -⟩
        · exact hmy.mem_full hid
        · exact hkey ▸ ho.mem_full hid
  · intro p _
    cases p with
    | first my | second o => exact Nat.le_refl 1
    | both my o =>
      rw [symDiffCells]
      split
      · exact Nat.zero_le 1
      · exact length_fetchedCell _ _

/-- The condition under which the shortcut never compares the slot of a full cell with the id of a
different partial index: a full and a partial cell of the same id, neither of them fetched, have the
same items. -/
def Clear (a b : CellQueryResult) : Prop :=
  ∀ my ∈ a.cells, ∀ o ∈ b.cells, my.cellId = o.cellId → my.fetched = false → o.fetched = false →
    my.fullMatch ≠ o.fullMatch → a.space.idx my = b.space.idx o

theorem indexOf_eq_of_skipped (ha : a.Wf) (hb : b.Wf) (hspace : b.space = a.space)
    (hclear : Clear a b) {my o : Cell}
    (hp : Pairing.both my o ∈ pairUp Cell.cellId a.cells b.cells) (hskip : Skipped my o) :
    a.space.indexOf my = a.space.indexOf o := by
  obtain ⟨hmy, ho, hkey⟩ := wf_of_walk ha hb hspace hp
  obtain ⟨hmyf, hof, hslot⟩ := hskip
  rw [mem_walk ha hb] at hp
  have hidx : a.space.idx my = a.space.idx o := by
    by_cases hkind : my.fullMatch = o.fullMatch
    · unfold CellSpace.idx Cell.idxPtr
      simp only [hmyf, hof, hkind, hkey, hslot, Bool.false_eq_true, if_false]
    · have h := hclear my hp.1 o hp.2.1 hkey hmyf hof hkind
      rwa [hspace] at h
  unfold CellSpace.indexOf
  rw [hidx]

theorem diff_has (ha : a.Wf) (hb : b.Wf) (hspace : b.space = a.space) (hclear : Clear a b)
    (p : Pairing Cell) (hp : p ∈ pairUp Cell.cellId a.cells b.cells) (id : Nat) :
    (∃ c ∈ diffCells a.space p, ∃ i, a.space.idx c = .ok i ∧ id ∈ i.ids) ↔
      InFirst a.space p id ∧ ¬ InSecond a.space p id := by
  cases p with
  | first my =>
    rw [mem_walk ha hb] at hp
    simp [diffCells, InFirst, InSecond, (ha.cells my hp.1).idx_eq]
  | second o => simp [diffCells, InFirst]
  | both my o =>
    obtain ⟨hmy, ho, hkey⟩ := wf_of_walk ha hb hspace hp
    rw [diffCells, InFirst, InSecond]
    split
    case isTrue hcase =>
      have hsub : id ∈ (a.space.indexOf my).ids → id ∈ (a.space.indexOf o).ids := by
        intro hid
        rcases hcase with hfull | hskip
        · rw [ho.indexOf_full hfull, ← hkey]
          exact hmy.mem_full hid
        · rwa [indexOf_eq_of_skipped ha hb hspace hclear hp hskip] at hid
      simp only [List.not_mem_nil, false_and, exists_false, false_iff, not_and, not_not]
      exact hsub
    case isFalse =>
      rw [has_fetchedCell, ItemIndex.mem_apply]
      rfl

theorem symDiff_has (ha : a.Wf) (hb : b.Wf) (hspace : b.space = a.space) (hclear : Clear a b)
    (p : Pairing Cell) (hp : p ∈ pairUp Cell.cellId a.cells b.cells) (id : Nat) :
    (∃ c ∈ symDiffCells a.space p, ∃ i, a.space.idx c = .ok i ∧ id ∈ i.ids) ↔
      (InFirst a.space p id ∧ ¬ InSecond a.space p id) ∨
        (InSecond a.space p id ∧ ¬ InFirst a.space p id) := by
  cases p with
  | first my =>
    rw [mem_walk ha hb] at hp
    simp [symDiffCells, InFirst, InSecond, (ha.cells my hp.1).idx_eq]
  | second o =>
    rw [mem_walk ha hb] at hp
    have ho : o.Wf a.space := hspace ▸ hb.cells o hp.1
    simp [symDiffCells, InFirst, InSecond, ho.idx_eq]
  | both my o =>
    obtain ⟨hmy, ho, hkey⟩ := wf_of_walk ha hb hspace hp
    rw [symDiffCells, InFirst, InSecond]
    split
    case isTrue hcase =>
      have hsame : a.space.indexOf my = a.space.indexOf o := by
        rcases hcase with ⟨hmyfull, hofull⟩ | hskip
        · rw [hmy.indexOf_full hmyfull, ho.indexOf_full hofull, hkey]
        · exact indexOf_eq_of_skipped ha hb hspace hclear hp hskip
      simp [hsame]
    case isFalse =>
      rw [has_fetchedCell, ItemIndex.mem_apply]
      rfl

end CellQueryResult

end Sserialize
