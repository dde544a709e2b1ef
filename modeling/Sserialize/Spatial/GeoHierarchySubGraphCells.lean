import Sserialize.Spatial.GeoHierarchySubGraphRegions

namespace Sserialize.GeoHierarchySubGraph

open GeoHierarchy

section

variable (gh : GeoHierarchy) (filter : Nat → Bool) (id : Nat)

def IsMinimalKeptOfCell (p : Nat) : Prop :=
  filter p = true ∧ gh.Ancestor id p ∧
    ∀ q, filter q = true → gh.Ancestor id q → ¬ gh.Above q p

def keptDirect : List Nat := (gh.cellDirectParents id).filter filter

def keptRemaining : List Nat := (gh.cellRemainingParents id).filter filter

noncomputable def collectedDirect : List Nat :=
  GreedyMinimal.collect gh.Above (keptDirect gh filter id) (keptRemaining gh filter id)

open Classical in
noncomputable def foundDirect : List Nat :=
  if ((gh.cellDirectParents id).filter fun rId => !filter rId) = [] then keptDirect gh filter id
  else (collectedDirect gh filter id).mergeSort

open Classical in
noncomputable def foundRest : List Nat :=
  (keptRemaining gh filter id).filter fun rId => rId ∉ collectedDirect gh filter id

end

variable {gh : GeoHierarchy} {filter : Nat → Bool} {id fuel : Nat}

theorem slice_append {ptrs : List Nat} {b m e : Nat} (hbm : b ≤ m) (hme : m ≤ e) :
    slice ptrs b m ++ slice ptrs m e = slice ptrs b e := by
  obtain ⟨x, rfl⟩ : ∃ x, m = b + x := ⟨m - b, by omega⟩
  obtain ⟨y, rfl⟩ : ∃ y, e = b + x + y := ⟨e - (b + x), by omega⟩
  have hx : b + x + y - b = x + y := by omega
  rw [slice, slice, slice, Nat.add_sub_cancel_left, Nat.add_sub_cancel_left, hx, List.take_add,
    List.drop_drop]

section

variable (hgh : gh.WellFormed) (hid : id < gh.cellSize)

include hgh hid

theorem cellParents_split :
    gh.cellParents id = gh.cellDirectParents id ++ gh.cellRemainingParents id :=
  (slice_append (Nat.le_add_right _ _) (hgh.cellPtrsAscend id hid)).symm

theorem cellRow_bounds :
    (gh.cellAt id).parentsBegin + (gh.cellAt id).directParentsOffset ≤
        (gh.cellAt (id + 1)).parentsBegin ∧
      (gh.cellAt (id + 1)).parentsBegin ≤ gh.cellPtrs.length := by
  have hnext := (hgh.cellAt_eq (show id + 1 ≤ gh.cellSize from hid)).2
  exact ⟨hgh.cellPtrsAscend id hid, le_trans (Nat.le_add_right _ _) (hgh.cellPtrsEnd _ hnext)⟩

theorem cell_read :
    ∃ b m e, gh.cellParentsBegin id = .ok b ∧ gh.cellDirectParentsEnd id = .ok m ∧
      gh.cellParentsEnd id = .ok e ∧ gh.cellItemsCount id = .ok (gh.cellAt id).itemCount ∧
      (loopPositions b m).mapM gh.cellPtr = .ok (gh.cellDirectParents id) ∧
      (loopPositions m e).mapM gh.cellPtr = .ok (gh.cellRemainingParents id) := by
  obtain ⟨hrow, -⟩ := hgh.cellAt_eq (Nat.le_of_lt hid)
  obtain ⟨hnext, -⟩ := hgh.cellAt_eq (show id + 1 ≤ gh.cellSize from hid)
  obtain ⟨hascend, hend⟩ := cellRow_bounds hgh hid
  have hptrs := hgh.cellPtrsSize
  have hlt : id + 1 < 2 ^ 32 := by
    have hsize := hgh.cellSize_eq
    have hrows := hgh.cellRows
    omega
  refine ⟨_, (gh.cellAt id).parentsBegin + (gh.cellAt id).directParentsOffset,
    (gh.cellAt (id + 1)).parentsBegin, ?_, ?_, ?_, ?_,
    mapM_checkedAt (Nat.le_add_right _ _) (hascend.trans hend) hptrs,
    mapM_checkedAt hascend hend hptrs⟩
  · rw [cellParentsBegin, hrow, ok_bind]
    rfl
  · rw [cellDirectParentsEnd, hrow, ok_bind, u32_of_lt (by omega)]
    rfl
  · rw [cellParentsEnd, u32_of_lt hlt, cellParentsBegin, hnext, ok_bind]
    rfl
  · rw [cellItemsCount, hrow, ok_bind]
    rfl

variable {p : Nat}

theorem mem_kept :
    p ∈ keptDirect gh filter id ++ keptRemaining gh filter id ↔
      filter p = true ∧ gh.Ancestor id p := by
  rw [keptDirect, keptRemaining, ← List.filter_append, ← cellParents_split hgh hid,
    List.mem_filter, hgh.mem_cellParents id hid, and_comm]

theorem nodup_kept : (keptDirect gh filter id ++ keptRemaining gh filter id).Nodup := by
  rw [keptDirect, keptRemaining, ← List.filter_append, ← cellParents_split hgh hid]
  exact (hgh.cellParentsNodup id hid).filter _

theorem lt_of_mem_kept (h : p ∈ keptDirect gh filter id ++ keptRemaining gh filter id) :
    p < gh.regionSize :=
  hgh.cellParentsInside id hid p ((hgh.mem_cellParents id hid p).mpr ((mem_kept hgh hid).mp h).2)

theorem minimalIn_kept_iff :
    p ∈ keptDirect gh filter id ++ keptRemaining gh filter id ∧
        GreedyMinimal.MinimalIn gh.Above
          (keptDirect gh filter id ++ keptRemaining gh filter id) p ↔
      IsMinimalKeptOfCell gh filter id p := by
  constructor
  · rintro ⟨hmem, hmin⟩
    obtain ⟨hfilter, hancestor⟩ := (mem_kept hgh hid).mp hmem
    exact ⟨hfilter, hancestor, fun q hq hiq => hmin q ((mem_kept hgh hid).mpr ⟨hq, hiq⟩)⟩
  · rintro ⟨hfilter, hancestor, hmin⟩
    refine ⟨(mem_kept hgh hid).mpr ⟨hfilter, hancestor⟩, fun q hq => ?_⟩
    obtain ⟨hfq, hiq⟩ := (mem_kept hgh hid).mp hq
    exact hmin q hfq hiq

theorem minimalIn_keptDirect (hr : gh.Reduced) {a : Nat} (ha : a ∈ keptDirect gh filter id) :
    GreedyMinimal.MinimalIn gh.Above
      (keptDirect gh filter id ++ keptRemaining gh filter id) a := by
  intro q hq hqa
  have hadirect := (List.mem_filter.mp ha).1
  obtain ⟨-, d, hd, hdq⟩ := (mem_kept hgh hid).mp hq
  obtain rfl | hdq := Relation.reflTransGen_iff_eq_or_transGen.mp hdq
  · exact hr.cellDirectParents id hid a hadirect q hd hqa
  · exact hr.cellDirectParents id hid a hadirect d hd (Above.trans hdq hqa)

theorem mem_collectedDirect (hr : gh.Reduced) :
    p ∈ collectedDirect gh filter id ↔ IsMinimalKeptOfCell gh filter id p := by
  have hirrefl : ∀ x ∈ keptRemaining gh filter id, ¬ gh.Above x x := fun x hx h =>
    Nat.lt_irrefl x (hgh.above_lt (lt_of_mem_kept hgh hid (List.mem_append_right _ hx)) h).1
  have hpairwise : (keptRemaining gh filter id).Pairwise fun x y => ¬ gh.Above y x := by
    have hascend := (hr.cellRemainingParents id hid).filter filter
    refine hascend.imp_of_mem fun _ hy hxy habove => ?_
    have hlt := (hgh.above_lt (lt_of_mem_kept hgh hid (List.mem_append_right _ hy)) habove).1
    exact Nat.lt_asymm hxy hlt
  have htrans : ∀ a b c, gh.Above a b → gh.Above b c → gh.Above a c := fun _ _ _ => Above.trans
  have hmin := (GreedyMinimal.collect_minimal_iff htrans
    fun a ha => minimalIn_keptDirect hgh hid hr ha).mpr
      (GreedyMinimal.behindSmaller_of_pairwise hpairwise hirrefl)
  rw [← minimalIn_kept_iff hgh hid]
  constructor
  · exact fun hp => ⟨GreedyMinimal.mem_of_mem_collect hp, hmin p hp⟩
  · exact fun hp => GreedyMinimal.mem_collect_of_minimal hp.1 hp.2

theorem collectedDirect_of_nil
    (hnil : ((gh.cellDirectParents id).filter fun rId => !filter rId) = []) (hr : gh.Reduced) :
    p ∈ collectedDirect gh filter id ↔ p ∈ keptDirect gh filter id := by
  refine ⟨fun hp => ?_, GreedyMinimal.mem_collect_of_mem⟩
  obtain ⟨-, ⟨d, hd, hdp⟩, hmin⟩ := (mem_collectedDirect hgh hid hr).mp hp
  have hkept : filter d = true := by
    by_contra hnot
    have hmem : d ∈ (gh.cellDirectParents id).filter fun rId => !filter rId :=
      List.mem_filter.mpr ⟨hd, by simpa using hnot⟩
    rw [hnil] at hmem
    exact absurd hmem List.not_mem_nil
  obtain rfl | hdp := Relation.reflTransGen_iff_eq_or_transGen.mp hdp
  · exact List.mem_filter.mpr ⟨hd, hkept⟩
  · exact absurd hdp (hmin d hkept ⟨d, hd, .refl⟩)

theorem nodup_collectedDirect : (collectedDirect gh filter id).Nodup :=
  GreedyMinimal.nodup_collect (List.nodup_append.mp (nodup_kept hgh hid)).1

theorem foundDirect_perm (hr : gh.Reduced) :
    (foundDirect gh filter id).Perm (collectedDirect gh filter id) := by
  rw [foundDirect]
  by_cases hnil : ((gh.cellDirectParents id).filter fun rId => !filter rId) = []
  · rw [if_pos hnil]
    refine (List.perm_ext_iff_of_nodup ?_ (nodup_collectedDirect hgh hid)).mpr fun p =>
      (collectedDirect_of_nil hgh hid hnil hr).symm
    exact (List.nodup_append.mp (nodup_kept hgh hid)).1
  · rw [if_neg hnil]
    exact List.mergeSort_perm _ _

theorem mem_found (hr : gh.Reduced) :
    p ∈ foundDirect gh filter id ++ foundRest gh filter id ↔
      filter p = true ∧ gh.Ancestor id p := by
  rw [List.mem_append, (foundDirect_perm hgh hid hr).mem_iff, foundRest, List.mem_filter,
    decide_eq_true_eq, ← mem_kept hgh hid]
  constructor
  · rintro (hp | ⟨hp, -⟩)
    · exact GreedyMinimal.mem_of_mem_collect hp
    · exact List.mem_append_right _ hp
  · intro hp
    by_cases hcollected : p ∈ collectedDirect gh filter id
    · exact .inl hcollected
    · refine .inr ⟨(List.mem_append.mp hp).resolve_left fun hdirect => ?_, hcollected⟩
      exact hcollected (GreedyMinimal.mem_collect_of_mem hdirect)

end

section

variable {sub : GeoHierarchySubGraph} (hgh : gh.WellFormed)
  (hreads : Reads gh filter 0 sub.parents) (hfuel : gh.regionSize ≤ fuel)

include hgh hreads hfuel

theorem foldlM_visitIndirect {xs : List Nat} :
    ∀ {s : CellSearch}, (∀ x ∈ s.added ++ xs, x < gh.regionSize) → (s.added ++ xs).Nodup →
      (∀ a ∈ s.added, filter a = true) →
      (∀ y, y ∈ s.ancestors ↔ filter y = true ∧ ∃ a ∈ s.added, gh.Above a y) →
      ∃ ancestors, xs.foldlM (visitIndirect filter fuel sub) s =
        .ok ⟨GreedyMinimal.collect gh.Above s.added (xs.filter filter), ancestors,
          s.nonDirectParents ++ (xs.filter filter).filter fun x =>
            x ∉ GreedyMinimal.collect gh.Above s.added (xs.filter filter)⟩ := by
  induction xs with
  | nil =>
    intro s _ _ _ _
    exact ⟨s.ancestors, congrArg Except.ok (by
      rw [List.filter_nil, List.filter_nil, List.append_nil, GreedyMinimal.collect])⟩
  | cons x xs ih =>
    intro s hlt hnodup hadded hanc
    have hx : x < gh.regionSize := hlt x (List.mem_append_right _ List.mem_cons_self)
    have hlt' : ∀ y ∈ s.added ++ xs, y < gh.regionSize := by
      intro y hy
      obtain hy | hy := List.mem_append.mp hy
      · exact hlt y (List.mem_append_left _ hy)
      · exact hlt y (List.mem_append_right _ (List.mem_cons_of_mem _ hy))
    obtain ⟨hadd, hxs, hdisjoint⟩ := List.nodup_append.mp hnodup
    rw [List.nodup_cons] at hxs
    have hxadded : x ∉ s.added := fun h => hdisjoint x h x List.mem_cons_self rfl
    have hnodup' : (s.added ++ xs).Nodup := List.nodup_append.mpr
      ⟨hadd, hxs.2, fun a ha b hb => hdisjoint a ha b (List.mem_cons_of_mem _ hb)⟩
    rw [List.foldlM_cons, visitIndirect]
    cases hfilter : filter x with
    | false =>
      rw [if_neg Bool.false_ne_true, List.filter_cons_of_neg (by rw [hfilter]; simp)]
      exact ih hlt' hnodup' hadded hanc
    | true =>
      have hiff : (∃ a ∈ s.added, a = x ∨ gh.Above a x) ↔ x ∈ s.ancestors := by
        rw [hanc]
        constructor
        · rintro ⟨a, ha, rfl | hax⟩
          · exact absurd ha hxadded
          · exact ⟨hfilter, a, ha, hax⟩
        · rintro ⟨-, a, ha, hax⟩
          exact ⟨a, ha, .inr hax⟩
      rw [if_pos rfl, List.filter_cons_of_pos hfilter, GreedyMinimal.collect]
      by_cases hmem : x ∈ s.ancestors
      · rw [if_pos hmem, if_pos (hiff.mpr hmem)]
        obtain ⟨ancestors, hrest⟩ := ih (s := ⟨s.added, s.ancestors, s.nonDirectParents ++ [x]⟩)
          hlt' hnodup' hadded hanc
        have hnot : x ∉ GreedyMinimal.collect gh.Above s.added (xs.filter filter) := by
          intro h
          obtain h | h := List.mem_append.mp (GreedyMinimal.mem_of_mem_collect h)
          · exact hxadded h
          · exact hxs.1 (List.mem_of_mem_filter h)
        refine ⟨ancestors, hrest.trans (congrArg Except.ok ?_)⟩
        rw [List.filter_cons_of_pos (by simpa using hnot), List.append_assoc]
        rfl
      · rw [if_neg hmem, if_neg (mt hiff.mp hmem)]
        obtain ⟨dest, hdest, hdestMem⟩ := getAncestors_eq hgh hreads hfuel (Nat.zero_le x) hx
          hfilter s.ancestors
        have hperm : (s.added ++ [x] ++ xs).Perm (s.added ++ x :: xs) := by
          rw [List.append_assoc]
          exact List.Perm.refl _
        obtain ⟨ancestors, hrest⟩ := ih (s := ⟨s.added ++ [x], dest, s.nonDirectParents⟩)
          (fun y hy => hlt y (hperm.mem_iff.mp hy)) (hperm.nodup_iff.mpr hnodup)
          (fun a ha => by
            obtain ha | ha := List.mem_append.mp ha
            · exact hadded a ha
            · rw [List.mem_singleton.mp ha]
              exact hfilter)
          (fun y => by
            dsimp only
            rw [hdestMem, hanc]
            simp only [List.mem_append, List.mem_singleton, or_and_right, exists_or, and_or_left,
              exists_eq_left])
        have hin : x ∈ GreedyMinimal.collect gh.Above (s.added ++ [x]) (xs.filter filter) :=
          GreedyMinimal.mem_collect_of_mem (List.mem_append_right _ List.mem_cons_self)
        rw [hdest, ok_bind]
        refine ⟨ancestors, hrest.trans (congrArg Except.ok ?_)⟩
        rw [List.filter_cons_of_neg (by simpa using hin)]

theorem addCell_eq (hr : gh.Reduced) (hid : id < gh.cellSize) :
    addCell gh filter fuel sub id = .ok (sub.pushCell (foundDirect gh filter id)
      (foundRest gh filter id) (gh.cellAt id).itemCount) := by
  obtain ⟨b, m, e, hb, hm, he, hcount, hdirect, hindirect⟩ := cell_read hgh hid
  rw [addCell, hb, ok_bind, hm, ok_bind, he, ok_bind, hcount, ok_bind, hdirect, ok_bind, hindirect,
    ok_bind, foundDirect]
  dsimp only
  by_cases hnil : ((gh.cellDirectParents id).filter fun rId => !filter rId) = []
  · rw [if_neg (by rw [hnil]; exact not_not_intro rfl), if_pos hnil]
    have hrest : foundRest gh filter id = keptRemaining gh filter id := by
      refine List.filter_eq_self.mpr fun p hp => decide_eq_true fun hcollected => ?_
      have hkept := (collectedDirect_of_nil hgh hid hnil hr).mp hcollected
      exact (List.nodup_append.mp (nodup_kept hgh hid)).2.2 p hkept p hp rfl
    rw [hrest]
    rfl
  · rw [if_pos fun h => hnil (List.eq_nil_of_length_eq_zero h), if_neg hnil]
    have hkept : ∀ x ∈ keptDirect gh filter id,
        0 ≤ x ∧ x < gh.regionSize ∧ filter x = true := fun x hx =>
      ⟨Nat.zero_le x, lt_of_mem_kept hgh hid (List.mem_append_left _ hx),
        (List.mem_filter.mp hx).2⟩
    obtain ⟨dest, hdest, hmem⟩ := ancestorsOf_eq hgh hreads hfuel hkept
    have hsplit := cellParents_split hgh hid
    have hsub : ∀ x ∈ keptDirect gh filter id ++ gh.cellRemainingParents id,
        x ∈ gh.cellParents id := by
      intro x hx
      rw [hsplit]
      obtain hx | hx := List.mem_append.mp hx
      · exact List.mem_append_left _ (List.mem_of_mem_filter hx)
      · exact List.mem_append_right _ hx
    have hnodup : (keptDirect gh filter id ++ gh.cellRemainingParents id).Nodup := by
      have hall := hgh.cellParentsNodup id hid
      rw [hsplit] at hall
      exact hall.sublist (List.filter_sublist.append_right _)
    obtain ⟨ancestors, hfold⟩ := foldlM_visitIndirect hgh hreads hfuel
      (s := ⟨keptDirect gh filter id, dest, []⟩)
      (fun x hx => hgh.cellParentsInside id hid x (hsub x hx)) hnodup (fun a ha => (hkept a ha).2.2)
      hmem
    change (ancestorsOf sub.parents fuel (keptDirect gh filter id) >>= _) = _
    rw [hdest, ok_bind]
    change ((gh.cellRemainingParents id).foldlM (visitIndirect filter fuel sub)
      ⟨keptDirect gh filter id, dest, []⟩ >>= _) = _
    rw [hfold, ok_bind]
    rfl

end

end Sserialize.GeoHierarchySubGraph
