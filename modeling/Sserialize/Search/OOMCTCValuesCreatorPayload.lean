import Sserialize.Search.OOMCTCValuesCreatorAppend

/-!
# The payload of a block

The block of a node has all of its entries in order, so the cells come one after the other, and in
each of them the items come first and the marker last.
-/

namespace Sserialize.OOMCTCValuesCreator

open MaximalRuns

variable {ν : Type}

/-! ## The entries of a block -/

/-- In a list in order, the entries in front are those with a property that all smaller ones
have. -/
theorem takeWhile_eq_filter {α : Type*} {r : α → α → Prop} {p : α → Bool} {l : List α}
    (hsorted : l.Pairwise r) (hdown : ∀ a ∈ l, ∀ b ∈ l, r a b → p b = true → p a = true) :
    l.takeWhile p = l.filter p ∧ l.dropWhile p = l.filter fun x => !p x := by
  induction l with
  | nil => exact ⟨rfl, rfl⟩
  | cons a l ih =>
    have hrest := ih hsorted.of_cons fun x hx y hy =>
      hdown x (List.mem_cons_of_mem _ hx) y (List.mem_cons_of_mem _ hy)
    by_cases ha : p a = true
    · rw [List.takeWhile_cons_of_pos ha, List.dropWhile_cons_of_pos ha, List.filter_cons_of_pos ha,
        List.filter_cons_of_neg (by simp [ha]), hrest.1, hrest.2]
      exact ⟨rfl, rfl⟩
    · have hnone : ∀ b ∈ l, ¬ p b = true := fun b hb hp =>
        ha (hdown a List.mem_cons_self b (List.mem_cons_of_mem _ hb)
          (List.rel_of_pairwise_cons hsorted hb) hp)
      rw [List.takeWhile_cons_of_neg ha, List.dropWhile_cons_of_neg ha, List.filter_cons_of_neg ha,
        List.filter_cons_of_pos (by simp [ha]), List.filter_eq_nil_iff.mpr hnone,
        List.filter_eq_self.mpr (fun b hb => by simp [hnone b hb])]
      exact ⟨rfl, rfl⟩

def CellLess (a b : ValueEntry ν) : Prop :=
  a.cellId < b.cellId ∨ a.cellId = b.cellId ∧ a.itemId < b.itemId

structure InOrder (entries : List (ValueEntry ν)) : Prop where
  sorted : entries.Pairwise CellLess
  le : ∀ e ∈ entries, e.itemId ≤ fullMatchId

variable {e : ValueEntry ν}

theorem ValueEntry.fullMatch_iff : e.fullMatch = true ↔ e.itemId = fullMatchId := by
  unfold ValueEntry.fullMatch
  exact beq_iff_eq

theorem isPartial_iff {cellId : Nat} :
    isPartial cellId e = true ↔ e.cellId = cellId ∧ e.fullMatch = false := by
  simp [isPartial]

theorem isFull_iff {cellId : Nat} :
    isFull cellId e = true ↔ e.cellId = cellId ∧ e.fullMatch = true := by
  simp [isFull]

variable {entries : List (ValueEntry ν)}

theorem InOrder.cellId_le (h : InOrder (e :: entries)) : ∀ x ∈ e :: entries, e.cellId ≤ x.cellId := by
  intro x hx
  rcases List.mem_cons.mp hx with rfl | hx
  · exact Nat.le_refl _
  · rcases List.rel_of_pairwise_cons h.sorted hx with hlt | ⟨heq, -⟩
    · exact Nat.le_of_lt hlt
    · exact Nat.le_of_eq heq

theorem InOrder.partial_split (h : InOrder (e :: entries)) :
    (e :: entries).takeWhile (isPartial e.cellId) = (e :: entries).filter (isPartial e.cellId) ∧
      (e :: entries).dropWhile (isPartial e.cellId) =
        (e :: entries).filter fun x => !isPartial e.cellId x := by
  refine takeWhile_eq_filter h.sorted fun a ha b hb hab hpart => ?_
  obtain ⟨hcell, hfull⟩ := isPartial_iff.mp hpart
  have hle := h.cellId_le a ha
  have hb := h.le b hb
  rw [← Bool.not_eq_true, ValueEntry.fullMatch_iff] at hfull
  rw [isPartial_iff, ← Bool.not_eq_true, ValueEntry.fullMatch_iff]
  rcases hab with hlt | ⟨heq, hlt⟩
  · omega
  · omega

theorem InOrder.behind_split (h : InOrder (e :: entries)) :
    (((e :: entries).dropWhile (isPartial e.cellId)).head?.any (isFull e.cellId) = true ↔
      ∃ x ∈ e :: entries, x.cellId = e.cellId ∧ x.fullMatch = true) ∧
    behindCell e.cellId (e :: entries) =
      (e :: entries).filter fun x => decide (e.cellId < x.cellId) := by
  have hdrop := h.partial_split.2
  have hsub : ∀ x ∈ (e :: entries).dropWhile (isPartial e.cellId), x ∈ e :: entries := by
    intro x hx
    exact (List.dropWhile_sublist _).subset hx
  have hsorted := h.sorted.sublist (List.dropWhile_sublist (isPartial e.cellId))
  have hfilter : ((e :: entries).dropWhile (isPartial e.cellId)).filter
      (fun x => decide (e.cellId < x.cellId)) =
        (e :: entries).filter fun x => decide (e.cellId < x.cellId) := by
    rw [hdrop, List.filter_filter]
    refine List.filter_congr fun x _ => ?_
    by_cases hlt : e.cellId < x.cellId
    · have hne : isPartial e.cellId x = false := by
        rw [← Bool.not_eq_true, isPartial_iff]
        omega
      simp [hlt, hne]
    · simp [hlt]
  unfold behindCell
  rw [← hfilter]
  have hfull : ∀ x ∈ e :: entries, x.cellId = e.cellId → x.fullMatch = true →
      x ∈ (e :: entries).dropWhile (isPartial e.cellId) := by
    intro x hx _ hmark
    rw [hdrop, List.mem_filter]
    exact ⟨hx, by simp [isPartial, hmark]⟩
  have hnot : ∀ x ∈ (e :: entries).dropWhile (isPartial e.cellId),
      isPartial e.cellId x = false := by
    intro x hx
    rw [hdrop, List.mem_filter] at hx
    simpa using hx.2
  generalize (e :: entries).dropWhile (isPartial e.cellId) = behind at *
  cases behind with
  | nil =>
    refine ⟨⟨fun h => Bool.noConfusion h, ?_⟩, rfl⟩
    rintro ⟨x, hx, hcell, hmark⟩
    cases hfull x hx hcell hmark
  | cons b behind =>
    have hb := hsub b List.mem_cons_self
    have hble := h.cellId_le b hb
    have hbmark := h.le b hb
    by_cases hmark : isFull e.cellId b = true
    · obtain ⟨hcell, hbfull⟩ := isFull_iff.mp hmark
      have hbmark' := ValueEntry.fullMatch_iff.mp hbfull
      refine ⟨iff_of_true hmark ⟨b, hb, hcell, hbfull⟩, ?_⟩
      simp only [List.head?_cons, Option.any_some, hmark, if_true, List.tail_cons]
      rw [List.filter_cons_of_neg (by simp [hcell])]
      refine (List.filter_eq_self.mpr fun x hx => ?_).symm
      have hle := h.le x (hsub x (List.mem_cons_of_mem _ hx))
      rcases List.rel_of_pairwise_cons hsorted hx with hlt | ⟨-, hlt⟩
      · rw [decide_eq_true_iff]
        omega
      · omega
    · have hbcell : e.cellId < b.cellId := by
        have hne := hnot b List.mem_cons_self
        rw [← Bool.not_eq_true, isPartial_iff] at hne
        rw [isFull_iff] at hmark
        cases hbfull : b.fullMatch <;> simp_all <;> omega
      have hall : ∀ x ∈ b :: behind, e.cellId < x.cellId := by
        intro x hx
        rcases List.mem_cons.mp hx with rfl | hx
        · exact hbcell
        · rcases List.rel_of_pairwise_cons hsorted hx with hlt | ⟨heq, -⟩ <;> omega
      constructor
      · refine iff_of_false hmark ?_
        rintro ⟨x, hx, hcell, hxmark⟩
        have hlt := hall x (hfull x hx hcell hxmark)
        omega
      · simp only [List.head?_cons, Option.any_some, hmark]
        exact (List.filter_eq_self.mpr fun x hx => decide_eq_true (hall x hx)).symm

/-! ## The cells of a block -/

/-- The fully matched cells of the entries, and the items of the other ones with their cells. -/
structure Grouped (entries : List (ValueEntry ν)) (full : List Nat)
    (groups : List (Nat × List Nat)) : Prop where
  fullAscending : full.Pairwise (· < ·)
  mem_full : ∀ cellId, cellId ∈ full ↔
    ∃ e ∈ entries, e.cellId = cellId ∧ e.fullMatch = true
  cellsAscending : (groups.map Prod.fst).Pairwise (· < ·)
  itemsAscending : ∀ g ∈ groups, g.2.Pairwise (· < ·)
  nonempty : ∀ g ∈ groups, g.2 ≠ []
  mem_items : ∀ cellId itemId, (∃ g ∈ groups, g.1 = cellId ∧ itemId ∈ g.2) ↔
    ∃ e ∈ entries, e.cellId = cellId ∧ e.itemId = itemId ∧ e.fullMatch = false

theorem Grouped.nil : Grouped ([] : List (ValueEntry ν)) [] [] where
  fullAscending := List.Pairwise.nil
  mem_full := by simp
  cellsAscending := List.Pairwise.nil
  itemsAscending := by simp
  nonempty := by simp
  mem_items := by simp

variable {groups : List (Nat × List Nat)}

theorem Grouped.cell {cellId : Nat} {items : List Nat} {marked : Bool} {full : List Nat}
    (h : Grouped (entries.filter fun x => decide (cellId < x.cellId)) full groups)
    (hle : ∀ x ∈ entries, cellId ≤ x.cellId)
    (hmarked : marked = true ↔ ∃ x ∈ entries, x.cellId = cellId ∧ x.fullMatch = true)
    (hascending : items.Pairwise (· < ·))
    (hitems : ∀ itemId, itemId ∈ items ↔
      ∃ x ∈ entries, x.cellId = cellId ∧ x.itemId = itemId ∧ x.fullMatch = false) :
    Grouped entries ((if marked then [cellId] else []) ++ full)
      ((if items ≠ [] then [(cellId, items)] else []) ++ groups) := by
  have hfullLt : ∀ c ∈ full, cellId < c := by
    intro c hc
    obtain ⟨x, hx, rfl, -⟩ := (h.mem_full c).mp hc
    simpa using (List.mem_filter.mp hx).2
  have hgroupsLt : ∀ g ∈ groups, cellId < g.1 := by
    intro g hg
    obtain ⟨itemId, hitem⟩ := List.exists_mem_of_ne_nil _ (h.nonempty g hg)
    obtain ⟨x, hx, hcell, -⟩ := (h.mem_items g.1 itemId).mp ⟨g, hg, rfl, hitem⟩
    rw [← hcell]
    simpa using (List.mem_filter.mp hx).2
  have hothers : ∀ x ∈ entries, x.cellId ≠ cellId →
      x ∈ entries.filter fun x => decide (cellId < x.cellId) := by
    intro x hx hne
    have hlt := Nat.lt_of_le_of_ne (hle x hx) hne.symm
    exact List.mem_filter.mpr ⟨hx, decide_eq_true hlt⟩
  constructor
  case fullAscending =>
    rw [List.pairwise_append]
    refine ⟨by split <;> simp, h.fullAscending, fun a ha c hc => ?_⟩
    split at ha
    · rw [List.mem_singleton.mp ha]
      exact hfullLt c hc
    · cases ha
  case mem_full =>
    intro c
    rw [List.mem_append, h.mem_full]
    constructor
    · rintro (hc | ⟨x, hx, hrest⟩)
      · split at hc
        · obtain ⟨x, hx, hcell, hmark⟩ := hmarked.mp ‹_›
          exact ⟨x, hx, hcell.trans (List.mem_singleton.mp hc).symm, hmark⟩
        · cases hc
      · exact ⟨x, (List.mem_filter.mp hx).1, hrest⟩
    · rintro ⟨x, hx, rfl, hmark⟩
      by_cases hcell : x.cellId = cellId
      · rw [if_pos (hmarked.mpr ⟨x, hx, hcell, hmark⟩)]
        exact .inl (List.mem_singleton.mpr hcell)
      · exact .inr ⟨x, hothers x hx hcell, rfl, hmark⟩
  case cellsAscending =>
    rw [List.map_append, List.pairwise_append]
    refine ⟨by split <;> simp, h.cellsAscending, fun a ha c hc => ?_⟩
    obtain ⟨g, hg, rfl⟩ := List.mem_map.mp hc
    split at ha
    · obtain rfl : a = cellId := by simpa using ha
      exact hgroupsLt g hg
    · cases ha
  case itemsAscending =>
    intro g hg
    rcases List.mem_append.mp hg with hg | hg
    · split at hg
      · rw [List.mem_singleton.mp hg]
        exact hascending
      · cases hg
    · exact h.itemsAscending g hg
  case nonempty =>
    intro g hg
    rcases List.mem_append.mp hg with hg | hg
    · split at hg
      · rw [List.mem_singleton.mp hg]
        assumption
      · cases hg
    · exact h.nonempty g hg
  case mem_items =>
    intro c i
    constructor
    · rintro ⟨g, hg, rfl, hitem⟩
      rcases List.mem_append.mp hg with hg | hg
      · split at hg
        · rw [List.mem_singleton.mp hg] at hitem ⊢
          exact (hitems i).mp hitem
        · cases hg
      · obtain ⟨x, hx, hrest⟩ := (h.mem_items g.1 i).mp ⟨g, hg, rfl, hitem⟩
        exact ⟨x, (List.mem_filter.mp hx).1, hrest⟩
    · rintro ⟨x, hx, rfl, rfl, hmark⟩
      by_cases hcell : x.cellId = cellId
      · have hitem := (hitems x.itemId).mpr ⟨x, hx, hcell, rfl, hmark⟩
        rw [if_pos (List.ne_nil_of_mem hitem)]
        exact ⟨(cellId, items), List.mem_cons_self, hcell.symm, hitem⟩
      · obtain ⟨g, hg, hrest⟩ := (h.mem_items x.cellId x.itemId).mpr
          ⟨x, hothers x hx hcell, rfl, rfl, hmark⟩
        exact ⟨g, List.mem_append_right _ hg, hrest⟩

def Pointers (ifo : Nat → List Nat → Nat) (ptrs : List Nat) (groups : List (Nat × List Nat)) :
    Prop :=
  List.Forall₂ (fun ptr g => ∃ n, ptr = ifo n g.2) ptrs groups

theorem handleCells_spec (ifo : Nat → List Nat → Nat) (h : InOrder entries)
    (ses : SingleEntryState) :
    ∃ full groups ptrs, Grouped entries full groups ∧ Pointers ifo ptrs groups ∧
      handleCells ifo ses entries =
        ⟨ses.fmCellIds ++ full, ses.pmCellIds ++ groups.map Prod.fst, ses.pmCellIdxPtrs ++ ptrs,
          ses.indexes + groups.length⟩ := by
  induction hlen : entries.length using Nat.strong_induction_on generalizing entries ses with
  | _ n ih =>
    cases entries with
    | nil =>
      refine ⟨[], [], [], Grouped.nil, List.Forall₂.nil, ?_⟩
      rw [handleCells]
      simp
    | cons e entries =>
      obtain ⟨hmarked, hbehind⟩ := h.behind_split
      have hpartial := h.partial_split.1
      have hrest : InOrder (behindCell e.cellId (e :: entries)) := by
        rw [hbehind]
        exact ⟨h.sorted.filter _, fun x hx => h.le x (List.mem_filter.mp hx).1⟩
      obtain ⟨full, groups, ptrs, hgrouped, hptrs, heq⟩ := ih _
        (hlen ▸ length_behindCell_lt e entries) hrest
        (handleCell ifo ses e.cellId (e :: entries)) rfl
      rw [hbehind] at hgrouped
      set items := ((e :: entries).takeWhile (isPartial e.cellId)).map ValueEntry.itemId with hitems
      have hascending : items.Pairwise (· < ·) := by
        rw [hitems, hpartial, List.pairwise_map]
        refine ((h.sorted.filter _).imp_of_mem fun {a b} ha hb hab => ?_)
        have hacell := (isPartial_iff.mp (List.mem_filter.mp ha).2).1
        have hbcell := (isPartial_iff.mp (List.mem_filter.mp hb).2).1
        rcases hab with hlt | ⟨-, hlt⟩
        · omega
        · exact hlt
      have hmem : ∀ itemId, itemId ∈ items ↔ ∃ x ∈ e :: entries,
          x.cellId = e.cellId ∧ x.itemId = itemId ∧ x.fullMatch = false := by
        intro itemId
        rw [hitems, hpartial, List.mem_map]
        constructor
        · rintro ⟨x, hx, rfl⟩
          obtain ⟨hx, hpart⟩ := List.mem_filter.mp hx
          obtain ⟨hcell, hmark⟩ := isPartial_iff.mp hpart
          exact ⟨x, hx, hcell, rfl, hmark⟩
        · rintro ⟨x, hx, hcell, rfl, hmark⟩
          exact ⟨x, List.mem_filter.mpr ⟨hx, isPartial_iff.mpr ⟨hcell, hmark⟩⟩, rfl⟩
      refine ⟨_, _, (if items ≠ [] then [ifo ses.indexes items] else []) ++ ptrs,
        hgrouped.cell h.cellId_le hmarked hascending hmem, ?_, ?_⟩
      · refine List.rel_append ?_ hptrs
        split
        · exact List.Forall₂.cons ⟨_, rfl⟩ List.Forall₂.nil
        · exact List.Forall₂.nil
      · rw [handleCells, heq, handleCell, ← hitems]
        by_cases hnone : items = [] <;>
          by_cases hmark : (((e :: entries).dropWhile (isPartial e.cellId)).head?.any
            (isFull e.cellId)) = true <;>
          simp [hnone, hmark] <;> omega

/-! ## The bytes -/

theorem readItems_eq {decode : Nat → List Nat} {ifo : Nat → List Nat → Nat} {s t : RLEStream}
    {ptrs : List Nat} (hdecode : ∀ n l, l.Pairwise (· < ·) → decode (ifo n l) = l)
    (hgroups : ∀ g ∈ groups, g.2.Pairwise (· < ·)) (hptrs : Pointers ifo ptrs groups)
    (hread : RLEStream.Reads s ptrs t) (hend : ∃ t', RLEStream.next t = .ok t') :
    ∃ s', RLEStream.next s = .ok s' ∧
      readItems decode s' (groups.map Prod.fst) = .ok groups := by
  induction groups generalizing s ptrs with
  | nil =>
    cases hptrs
    cases hread
    obtain ⟨t', hnext⟩ := hend
    exact ⟨t', hnext, rfl⟩
  | cons g groups ih =>
    cases hptrs with
    | @cons ptr _ ptrs _ hptr hrest =>
      obtain ⟨n, rfl⟩ := hptr
      obtain ⟨s', hnext, hid, hread⟩ := hread
      obtain ⟨s'', hnext', hitems⟩ :=
        ih (fun x hx => hgroups x (List.mem_cons_of_mem _ hx)) hrest hread
      have hindex : decode s'.curId = g.2 := by
        rw [hid, hdecode n g.2 (hgroups g List.mem_cons_self)]
      refine ⟨s', hnext, ?_⟩
      rw [List.map_cons, readItems, hnext', ok_bind, hitems, ok_bind, hindex]
      rfl

theorem handle_spec {ifo : Nat → List Nat → Nat} {decode : Nat → List Nat}
    (h : InOrder (e :: entries)) (hdecode : ∀ n l, l.Pairwise (· < ·) → decode (ifo n l) = l)
    (henc : RLEStream.Encodable (indexIds ifo (e :: entries))) :
    ∃ bytes full groups, handle ifo (e :: entries) = .ok (e.nodeId, bytes) ∧
      Grouped (e :: entries) full groups ∧ readPayload decode bytes = .ok (full, groups) := by
  obtain ⟨full, groups, ptrs, hgrouped, hptrs, hcells⟩ := handleCells_spec ifo h .new
  obtain ⟨c, c', hputAll, hflush, hcount, hdecodes⟩ := RLEStream.decodes_putAll henc
  obtain ⟨c'', hflush', hdest⟩ := RLEStream.Creator.flush_of_zero hcount
  refine ⟨c'.dest, full, groups, ?_, hgrouped, ?_⟩
  · rw [handle, hputAll, ok_bind, hflush, ok_bind, hflush', ok_bind, hdest]
    rfl
  · obtain ⟨d, hread⟩ := hdecodes [] 0
    rw [List.append_nil, indexIds, hcells] at hread
    simp only [SingleEntryState.new, List.nil_append] at hread
    obtain ⟨s, hfm, hfmId, s', hpm, hpmId, hptrsRead⟩ := hread
    obtain ⟨s'', hnext, hitems⟩ := readItems_eq hdecode hgrouped.itemsAscending hptrs hptrsRead
      ⟨_, RLEStream.next_end d _⟩
    have hfull : decode s.curId = full := by rw [hfmId, hdecode _ _ hgrouped.fullAscending]
    have hpartial : decode s'.curId = groups.map Prod.fst := by
      rw [hpmId, hdecode _ _ hgrouped.cellsAscending]
    rw [readPayload, RLEStream.new, hfm, ok_bind, hpm, ok_bind, hnext, ok_bind, hpartial, hitems,
      ok_bind, hfull]
    rfl

/-! ## The blocks -/

section Blocks

variable [LinearOrder ν] {entries : List (ValueEntry ν)}
  {block block' : BlockDescription (ValueEntry ν)}

theorem LessThan.nodeId_le {a b : ValueEntry ν} (h : LessThan a b) : a.nodeId ≤ b.nodeId := by
  unfold LessThan at h
  by_contra hlt
  rw [if_neg (fun hab => hlt (le_of_lt hab)), if_pos (not_le.mp hlt)] at h
  exact h

theorem LessThan.cellLess {a b : ValueEntry ν} (h : LessThan a b) (heq : a.nodeId = b.nodeId) :
    CellLess a b := by
  unfold LessThan at h
  rw [heq, if_neg (lt_irrefl _), if_neg (lt_irrefl _)] at h
  split at h
  · exact .inl ‹_›
  · split at h
    · exact h.elim
    · exact .inr ⟨by omega, h⟩

theorem mem_slice {α : Type*} {l : List α} {b e : Nat} {x : α} :
    x ∈ (l.drop b).take (e - b) ↔ ∃ i, b ≤ i ∧ i < e ∧ l[i]? = some x := by
  rw [List.mem_iff_getElem?]
  constructor
  · rintro ⟨j, hj⟩
    rw [List.getElem?_take] at hj
    split at hj
    · rw [List.getElem?_drop] at hj
      exact ⟨b + j, by omega, by omega, hj⟩
    · cases hj
  · rintro ⟨i, hb, he, hi⟩
    refine ⟨i - b, ?_⟩
    rw [List.getElem?_take, if_pos (by omega), List.getElem?_drop, Nat.add_sub_cancel' hb, hi]

theorem IsBlock.mem_iff (h : IsBlock ValueEntry.nodeId entries block)
    (hsorted : entries.Pairwise LessThan) {node : ν}
    (hnode : (entries.map ValueEntry.nodeId)[block.beginPos]? = some node) (x : ValueEntry ν) :
    x ∈ block.data ↔ x ∈ entries ∧ x.nodeId = node := by
  have hkeys : (entries.map ValueEntry.nodeId).Pairwise (· ≤ ·) :=
    List.pairwise_map.mpr (hsorted.imp LessThan.nodeId_le)
  have hpos : ∀ {i : Nat}, entries[i]? = some x →
      ((block.beginPos ≤ i ∧ i < block.endPos) ↔ x.nodeId = node) := by
    intro i hi
    have hlt := (List.getElem?_eq_some_iff.mp hi).1
    rw [← h.1.eq_iff hkeys (by rwa [List.length_map]), hnode, List.getElem?_map, hi]
    exact Option.some_inj
  rw [h.2, mem_slice]
  constructor
  · rintro ⟨i, hb, he, hi⟩
    exact ⟨List.mem_of_getElem? hi, (hpos hi).mp ⟨hb, he⟩⟩
  · rintro ⟨hmem, heq⟩
    obtain ⟨i, hi⟩ := List.mem_iff_getElem?.mp hmem
    obtain ⟨hb, he⟩ := (hpos hi).mpr heq
    exact ⟨i, hb, he, hi⟩

omit [LinearOrder ν] in
theorem IsBlock.exists_cons (h : IsBlock ValueEntry.nodeId entries block) :
    ∃ first rest, block.data = first :: rest ∧
      (entries.map ValueEntry.nodeId)[block.beginPos]? = some first.nodeId := by
  have hlt := h.1.nonempty
  have hrange := h.1.inRange
  rw [List.length_map] at hrange
  refine ⟨entries[block.beginPos], (entries.drop (block.beginPos + 1)).take
    (block.endPos - block.beginPos - 1), ?_, ?_⟩
  · rw [h.2, List.drop_eq_getElem_cons (by omega), List.take_cons (by omega)]
  · rw [List.getElem?_map, List.getElem?_eq_getElem (by omega)]
    rfl

end Blocks

end Sserialize.OOMCTCValuesCreator
