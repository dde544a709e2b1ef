import Mathlib.Algebra.Order.BigOperators.Group.List
import Sserialize.Library.Packed
import Sserialize.Spatial.GeoHierarchySubGraphSearch

namespace Sserialize.GeoHierarchySubGraph

open GeoHierarchy

section

variable {parents : Nat → Except Fault (List Nat)} {ptrs : Nat → List Nat} {D : Nat → Prop}
  {bound : Nat}

theorem getAncestors_spec (hread : ∀ x, D x → parents x = .ok (ptrs x))
    (hlt : ∀ x, D x → ∀ y ∈ ptrs x, x < y ∧ y < bound ∧ D y) {depth : Nat} :
    ∀ {rid : Nat} (dest : List Nat), D rid → rid < bound → bound ≤ rid + depth →
      ∃ dest', getAncestors parents depth rid dest = .ok dest' ∧ ∀ y, y ∈ dest' ↔
        y ∈ dest ∨ Relation.TransGen (fun a b => b ∈ ptrs a) rid y := by
  induction depth with
  | zero =>
    intro rid dest _ hrid hdepth
    omega
  | succ depth ih =>
    intro rid dest hD _ hdepth
    have hfold : ∀ (rest dest : List Nat), (∀ y ∈ rest, y ∈ ptrs rid) →
        ∃ dest', rest.foldlM (fun dest it => do
            let dest ← getAncestors parents depth it dest
            return dest.insert it) dest = (.ok dest' : Except Fault (List Nat)) ∧
          ∀ y, y ∈ dest' ↔ y ∈ dest ∨
            ∃ p ∈ rest, Relation.ReflTransGen (fun a b => b ∈ ptrs a) p y := by
      intro rest
      induction rest with
      | nil => exact fun dest _ => ⟨dest, rfl, fun y => by simp⟩
      | cons p rest ihRest =>
        intro dest hrest
        have hp := hlt rid hD p (hrest p List.mem_cons_self)
        obtain ⟨dest₁, hdest₁, hmem₁⟩ := ih dest hp.2.2 hp.2.1 (by omega)
        obtain ⟨dest₂, hdest₂, hmem₂⟩ := ihRest (dest₁.insert p) fun y hy =>
          hrest y (List.mem_cons_of_mem _ hy)
        refine ⟨dest₂, ?_, fun y => ?_⟩
        · rw [List.foldlM_cons, hdest₁, ok_bind]
          exact hdest₂
        · rw [hmem₂, List.mem_insert_iff, hmem₁, List.exists_mem_cons_iff,
            Relation.reflTransGen_iff_eq_or_transGen]
          tauto
    obtain ⟨dest', hdest', hmem⟩ := hfold (ptrs rid) dest fun y hy => hy
    refine ⟨dest', ?_, fun y => ?_⟩
    · rw [getAncestors, hread rid hD, ok_bind]
      exact hdest'
    · rw [hmem, Relation.TransGen.head'_iff]

end

variable {gh : GeoHierarchy} {filter : Nat → Bool} {i low fuel : Nat}

theorem transGen_foundParents (hgh : gh.WellFormed) {x y : Nat} (hx : x < gh.regionSize)
    (hfilter : filter x = true) :
    Relation.TransGen (fun a b => b ∈ foundParents gh filter a) x y ↔
      filter y = true ∧ gh.Above x y := by
  constructor
  · intro h
    induction h with
    | single h => exact (foundParents_spec hgh hx hfilter).sound _ h
    | @tail b c _ h ih =>
      have hb := hgh.above_lt hx ih.2
      have hc := (foundParents_spec hgh hb.2 ih.1).sound _ h
      exact ⟨hc.1, ih.2.trans hc.2⟩
  · rintro ⟨hy, habove⟩
    -- the found parent below `y` is closer to it
    obtain ⟨n, hn⟩ : ∃ n, y ≤ x + n := ⟨y, Nat.le_add_left _ _⟩
    induction n generalizing x with
    | zero =>
      have hlt := (hgh.above_lt hx habove).1
      omega
    | succ n ih =>
      have hspec := foundParents_spec hgh hx hfilter
      obtain ⟨c, hc, rfl | hcy⟩ := hspec.complete y hy habove
      · exact .single hc
      · have hsound := hspec.sound c hc
        have hlt := hgh.above_lt hx hsound.2
        exact .head hc (ih hlt.2 hsound.1 hcy (by omega))

def Reads (gh : GeoHierarchy) (filter : Nat → Bool) (low : Nat)
    (parents : Nat → Except Fault (List Nat)) : Prop :=
  ∀ x, low ≤ x → x < gh.regionSize → filter x = true → parents x = .ok (foundParents gh filter x)

section

variable {parents : Nat → Except Fault (List Nat)} (hgh : gh.WellFormed)
  (hreads : Reads gh filter low parents) (hfuel : gh.regionSize ≤ fuel)

include hgh hreads hfuel

theorem getAncestors_eq {rid : Nat} (hlow : low ≤ rid) (hrid : rid < gh.regionSize)
    (hfilter : filter rid = true) (dest : List Nat) :
    ∃ dest', getAncestors parents fuel rid dest = .ok dest' ∧
      ∀ y, y ∈ dest' ↔ y ∈ dest ∨ filter y = true ∧ gh.Above rid y := by
  have hlt : ∀ x, (low ≤ x ∧ x < gh.regionSize ∧ filter x = true) →
      ∀ y ∈ foundParents gh filter x,
        x < y ∧ y < gh.regionSize ∧ low ≤ y ∧ y < gh.regionSize ∧ filter y = true := by
    rintro x ⟨hlx, hx, hfx⟩ y hy
    have hsound := (foundParents_spec hgh hx hfx).sound y hy
    have hxy := hgh.above_lt hx hsound.2
    exact ⟨hxy.1, hxy.2, hlx.trans hxy.1.le, hxy.2, hsound.1⟩
  obtain ⟨dest', hdest', hmem⟩ := getAncestors_spec (fun x hx => hreads x hx.1 hx.2.1 hx.2.2) hlt
    dest ⟨hlow, hrid, hfilter⟩ hrid (hfuel.trans (Nat.le_add_left fuel rid))
  refine ⟨dest', hdest', fun y => ?_⟩
  rw [hmem, transGen_foundParents hgh hrid hfilter]

theorem ancestorsOf_eq {added : List Nat}
    (hadded : ∀ x ∈ added, low ≤ x ∧ x < gh.regionSize ∧ filter x = true) :
    ∃ dest, ancestorsOf parents fuel added = .ok dest ∧
      ∀ y, y ∈ dest ↔ filter y = true ∧ ∃ a ∈ added, gh.Above a y := by
  suffices h : ∀ start : List Nat, ∃ dest,
      added.foldlM (fun dest x => getAncestors parents fuel x dest) start = .ok dest ∧
        ∀ y, y ∈ dest ↔ y ∈ start ∨ filter y = true ∧ ∃ a ∈ added, gh.Above a y by
    obtain ⟨dest, hdest, hmem⟩ := h []
    exact ⟨dest, hdest, fun y => by rw [hmem]; simp⟩
  induction added with
  | nil => exact fun start => ⟨start, rfl, fun y => by simp⟩
  | cons a added ih =>
    intro start
    obtain ⟨hlow, hlt, hfilter⟩ := hadded a List.mem_cons_self
    obtain ⟨dest₁, hdest₁, hmem₁⟩ := getAncestors_eq hgh hreads hfuel hlow hlt hfilter start
    obtain ⟨dest₂, hdest₂, hmem₂⟩ := ih (fun x hx => hadded x (List.mem_cons_of_mem _ hx)) dest₁
    refine ⟨dest₂, ?_, fun y => ?_⟩
    · rw [List.foldlM_cons, hdest₁, ok_bind]
      exact hdest₂
    · rw [hmem₂, hmem₁, List.exists_mem_cons_iff]
      tauto

end

structure Enough (gh : GeoHierarchy) (filter : Nat → Bool) (fuel : Nat) : Prop where
  depth : gh.regionSize ≤ fuel
  visits : ∀ i < gh.regionSize, (visited gh filter i).length ≤ fuel

section

variable {t : TempRegionInfos}

/-- What the state of the search stands for. The ancestors of the kept parents themselves are known,
but not these parents as ancestors. -/
structure SearchInv (gh : GeoHierarchy) (filter : Nat → Bool) (i : Nat) (s : Search) : Prop where
  added : ∀ a ∈ s.added, filter a = true ∧ gh.Above i a
  ancestors : ∀ y, y ∉ keptParents gh filter i →
    (y ∈ s.ancestors ↔ filter y = true ∧ ∃ a ∈ s.added, a = y ∨ gh.Above a y)

/-- `visitRemoved` without the errors. -/
noncomputable def visitStep (filter : Nat → Bool) (fuel : Nat) (t : TempRegionInfos) (s : Search)
    (c : Nat) : Search :=
  if c ∈ s.ancestors then s
  else if filter c then
    match getAncestors t.parents fuel c (s.ancestors.insert c) with
    | .ok ancestors => ⟨s.added ++ [c], ancestors⟩
    | .error _ => s
  else s

variable (hgh : gh.WellFormed) (hr : gh.Reduced) (hi : i < gh.regionSize)
  (hreads : Reads gh filter (i + 1) t.parents) (hfuel : gh.regionSize ≤ fuel) {s : Search} {c : Nat}

include hgh hr hi hreads hfuel

theorem visitStep_spec (hs : SearchInv gh filter i s) (hc : Visitable gh filter i c) :
    visitRemoved gh filter fuel t s c = .ok (visitStep filter fuel t s c, bypass gh filter c) ∧
      SearchInv gh filter i (visitStep filter fuel t s c) ∧
      (visitStep filter fuel t s c).added =
        GreedyMinimal.collect gh.Above s.added (if filter c = true then [c] else []) := by
  have hlt := hgh.above_lt hi hc.above
  cases hfilter : filter c with
  | false =>
    have hnot : ¬ filter c = true := by
      rw [hfilter]
      exact Bool.false_ne_true
    by_cases hmem : c ∈ s.ancestors
    · have hkept : c ∉ keptParents gh filter i := fun h => hnot (mem_keptParents.mp h).2
      exact absurd ((hs.ancestors c hkept).mp hmem).1 hnot
    · have hstep : visitStep filter fuel t s c = s := by
        rw [visitStep, if_neg hmem, if_neg hnot]
      rw [hstep, visitRemoved, if_neg hmem, if_neg hnot, regionParents_eq hgh hlt.2, bypass,
        if_neg hnot]
      exact ⟨rfl, hs, rfl⟩
  | true =>
    have hkept := hc.not_mem_keptParents hr hi hfilter
    rw [if_pos rfl, GreedyMinimal.collect, bypass, if_pos hfilter, visitRemoved, visitStep]
    by_cases hmem : c ∈ s.ancestors
    · rw [if_pos hmem, if_pos hmem, if_pos ((hs.ancestors c hkept).mp hmem).2]
      exact ⟨rfl, hs, rfl⟩
    · have hnone : ¬ ∃ a ∈ s.added, a = c ∨ gh.Above a c := fun h =>
        hmem ((hs.ancestors c hkept).mpr ⟨hfilter, h⟩)
      obtain ⟨dest, hdest, hanc⟩ := getAncestors_eq hgh hreads hfuel hlt.1 hlt.2 hfilter
        (s.ancestors.insert c)
      rw [if_neg hmem, if_pos hfilter, if_neg hmem, if_pos hfilter, if_neg hnone, hdest]
      refine ⟨rfl, ⟨fun a ha => ?_, fun y hy => ?_⟩, rfl⟩
      · obtain ha | ha := List.mem_append.mp ha
        · exact hs.added a ha
        · rw [List.mem_singleton.mp ha]
          exact ⟨hfilter, hc.above⟩
      · change y ∈ dest ↔ _ ∧ ∃ a ∈ s.added ++ [c], _
        rw [hanc, List.mem_insert_iff, hs.ancestors y hy]
        constructor
        · rintro ((rfl | ⟨hfy, a, ha, hay⟩) | ⟨hfy, hcy⟩)
          · exact ⟨hfilter, y, List.mem_append_right _ List.mem_cons_self, .inl rfl⟩
          · exact ⟨hfy, a, List.mem_append_left _ ha, hay⟩
          · exact ⟨hfy, c, List.mem_append_right _ List.mem_cons_self, .inr hcy⟩
        · rintro ⟨hfy, a, ha, hay⟩
          obtain ha | ha := List.mem_append.mp ha
          · exact .inl (.inr ⟨hfy, a, ha, hay⟩)
          · rw [List.mem_singleton] at ha
            subst ha
            obtain rfl | hay := hay
            · exact .inl (.inl rfl)
            · exact .inr ⟨hfy, hay⟩

theorem foldl_visitStep {xs : List Nat} (hxs : ∀ x ∈ xs, Visitable gh filter i x)
    (hs : SearchInv gh filter i s) :
    (xs.foldl (visitStep filter fuel t) s).added =
      GreedyMinimal.collect gh.Above s.added (xs.filter filter) := by
  induction xs generalizing s with
  | nil => rfl
  | cons x xs ih =>
    obtain ⟨-, hinv, hadded⟩ := visitStep_spec hgh hr hi hreads hfuel hs (hxs x List.mem_cons_self)
    rw [List.foldl_cons, ih (fun y hy => hxs y (List.mem_cons_of_mem _ hy)) hinv, hadded,
      ← GreedyMinimal.collect_append]
    cases hfilter : filter x with
    | true =>
      rw [List.filter_cons_of_pos hfilter]
      rfl
    | false =>
      rw [List.filter_cons_of_neg (by rw [hfilter]; exact Bool.false_ne_true)]
      rfl

theorem newParents_eq (hvisits : (visited gh filter i).length ≤ fuel) (hfilter : filter i = true) :
    newParents gh filter fuel t i = .ok (foundParents gh filter i) := by
  rw [newParents, regionParents_eq hgh hi, ok_bind, foundParents, if_pos hfilter]
  change (if (removedParents gh filter i).length ≠ 0 then _ else _) = _
  by_cases hnil : removedParents gh filter i = []
  · rw [if_pos hnil, if_neg (by rw [hnil]; exact not_not_intro rfl)]
    rfl
  · rw [if_neg hnil, if_pos fun h => hnil (List.eq_nil_of_length_eq_zero h)]
    have hkept : ∀ x ∈ keptParents gh filter i, i + 1 ≤ x ∧ x < gh.regionSize ∧ filter x = true :=
      fun x hx => ⟨(hgh.parentsLarger i hi x (mem_keptParents.mp hx).1).1,
        (hgh.parentsLarger i hi x (mem_keptParents.mp hx).1).2, (mem_keptParents.mp hx).2⟩
    obtain ⟨dest, hdest, hmem⟩ := ancestorsOf_eq hgh hreads hfuel hkept
    have hstart : SearchInv gh filter i ⟨keptParents gh filter i, dest⟩ := by
      refine ⟨fun a ha => ⟨(mem_keptParents.mp ha).2, .of_parent (mem_keptParents.mp ha).1⟩,
        fun y hy => ?_⟩
      change y ∈ dest ↔ _ ∧ ∃ a ∈ keptParents gh filter i, _
      rw [hmem]
      constructor
      · rintro ⟨hfy, a, ha, hay⟩
        exact ⟨hfy, a, ha, .inr hay⟩
      · rintro ⟨hfy, a, ha, rfl | hay⟩
        · exact absurd ha hy
        · exact ⟨hfy, a, ha, hay⟩
    have hinv : ∀ s x, SearchInv gh filter i s → Visitable gh filter i x →
        SearchInv gh filter i (visitStep filter fuel t s x) := fun s x hs hx =>
      (visitStep_spec hgh hr hi hreads hfuel hs hx).2.1
    have hloop := BreadthFirst.loop_eq hinv
      (fun s x hs hx => (visitStep_spec hgh hr hi hreads hfuel hs hx).1)
      (fun x hx y hy => Visitable.bypass hx hy) (fun x hx => .inl hx) hstart
      (endsWithin hgh hi) hvisits
    change (ancestorsOf t.parents fuel (keptParents gh filter i) >>= _) = _
    rw [hdest, ok_bind]
    change (BreadthFirst.loop (visitRemoved gh filter fuel t) fuel ⟨keptParents gh filter i, dest⟩
      (removedParents gh filter i) >>= _) = _
    rw [hloop, ok_bind]
    have hadded := foldl_visitStep hgh hr hi hreads hfuel (fun x hx => visitable_of_mem hx) hstart
    exact congrArg (fun added : List Nat => Except.ok added.mergeSort) hadded

end

theorem ptrRange_flatten {parts : List (List Nat)} {j : Nat} {part : List Nat}
    (h : parts[j]? = some part) :
    ptrRange parts.flatten (Packed.offset parts j) (Packed.offset parts (j + 1)) = .ok part := by
  have hsucc := Packed.offset_succ h
  have hget := Packed.drop_take_flatten h []
  rw [List.append_nil] at hget
  rw [ptrRange, if_pos ⟨by omega, Packed.offset_le _ _⟩, slice, hsucc, Nat.add_sub_cancel_left, hget]

section

variable (gh : GeoHierarchy) (filter : Nat → Bool)

noncomputable def descendingParents : List (List Nat) :=
  (List.range gh.regionSize).map fun j => foundParents gh filter (gh.regionSize - 1 - j)

noncomputable def ascendingParents : List (List Nat) :=
  (List.range gh.regionSize).map (foundParents gh filter)

variable {gh filter}

theorem getElem?_descendingParents {j : Nat} (hj : j < gh.regionSize) :
    (descendingParents gh filter)[j]? = some (foundParents gh filter (gh.regionSize - 1 - j)) := by
  rw [descendingParents, List.getElem?_map, List.getElem?_range hj]
  rfl

theorem getElem?_ascendingParents (hi : i < gh.regionSize) :
    (ascendingParents gh filter)[i]? = some (foundParents gh filter i) := by
  rw [ascendingParents, List.getElem?_map, List.getElem?_range hi]
  rfl

theorem descendingParents_perm :
    (descendingParents gh filter).Perm (ascendingParents gh filter) := by
  have hreverse : (List.range gh.regionSize).map (fun j => gh.regionSize - 1 - j) =
      (List.range gh.regionSize).reverse := by
    rw [List.range_eq_range', List.reverse_range', Nat.zero_add, List.range_eq_range']
  have hmap : descendingParents gh filter =
      (List.range gh.regionSize).reverse.map (foundParents gh filter) := by
    rw [← hreverse, List.map_map]
    rfl
  rw [hmap]
  exact (List.reverse_perm _).map _

structure TempHolds (gh : GeoHierarchy) (filter : Nat → Bool) (k : Nat) (t : TempRegionInfos) :
    Prop where
  ptrs : t.regionParentsPtrs = ((descendingParents gh filter).take k).flatten
  length : t.regionDesc.length = gh.regionSize
  desc : ∀ j < k, t.regionDesc[gh.regionSize - 1 - j]? =
    some (u32 (Packed.offset (descendingParents gh filter) j))

variable {t : TempRegionInfos} {k : Nat}

theorem temp_parents_eq
    (hptrs : t.regionParentsPtrs = ((descendingParents gh filter).take k).flatten) {j : Nat}
    (hj : j < k) (hk : k ≤ gh.regionSize)
    (hfits : Packed.offset (descendingParents gh filter) k < 2 ^ 32)
    (hbegin : t.regionDesc[gh.regionSize - 1 - j]? =
      some (u32 (Packed.offset (descendingParents gh filter) j)))
    (hend : t.parentsEnd (gh.regionSize - 1 - j) =
      .ok (u32 (Packed.offset (descendingParents gh filter) (j + 1)))) :
    t.parents (gh.regionSize - 1 - j) =
      .ok (foundParents gh filter (gh.regionSize - 1 - j)) := by
  have hget : ((descendingParents gh filter).take k)[j]? =
      some (foundParents gh filter (gh.regionSize - 1 - j)) := by
    rw [List.getElem?_take_of_lt hj]
    exact getElem?_descendingParents (by omega)
  have hrange := ptrRange_flatten hget
  rw [Packed.offset_take hj.le, Packed.offset_take hj] at hrange
  have hlt : Packed.offset (descendingParents gh filter) (j + 1) < 2 ^ 32 :=
    (Packed.offset_mono _ hj).trans_lt hfits
  have hlt' : Packed.offset (descendingParents gh filter) j < 2 ^ 32 :=
    (Packed.offset_mono _ (Nat.le_succ j)).trans_lt hlt
  rw [TempRegionInfos.parents, TempRegionInfos.parentsBegin, checkedAt_of_getElem hbegin, ok_bind,
    hend, ok_bind, u32_of_lt hlt, u32_of_lt hlt', hptrs, hrange]

theorem parentsEnd_of_pos {rid : Nat} (h : 0 < rid) :
    t.parentsEnd rid = checkedAt t.regionDesc (rid - 1) := if_neg h.ne'

end

section

variable {t : TempRegionInfos} {k : Nat} (hgh : gh.WellFormed)

theorem TempHolds.begin (h : TempHolds gh filter k t) (hk : k < gh.regionSize) :
    ∀ j ≤ k, (t.regionDesc.set (gh.regionSize - 1 - k)
        (u32 t.regionParentsPtrs.length))[gh.regionSize - 1 - j]? =
      some (u32 (Packed.offset (descendingParents gh filter) j)) := by
  intro j hj
  have hlength := h.length
  obtain rfl | hlt := Nat.eq_or_lt_of_le hj
  · rw [List.getElem?_set_self (by omega), h.ptrs]
    rfl
  · rw [List.getElem?_set_ne (by omega)]
    exact h.desc j hlt

include hgh

theorem addRegion_eq (hr : gh.Reduced) (hfuel : Enough gh filter fuel) (h : TempHolds gh filter k t)
    (hk : k < gh.regionSize) (hfits : Packed.offset (descendingParents gh filter) k < 2 ^ 32) :
    ∃ t', addRegion gh filter fuel t (gh.regionSize - 1 - k) = .ok t' ∧
      TempHolds gh filter (k + 1) t' := by
  have hbegin := h.begin hk
  have htake : ((descendingParents gh filter).take (k + 1)).flatten =
      t.regionParentsPtrs ++ foundParents gh filter (gh.regionSize - 1 - k) := by
    rw [List.take_add_one, getElem?_descendingParents hk, List.flatten_append, ← h.ptrs]
    exact congrArg _ (List.append_nil _)
  have hlength : (t.regionDesc.set (gh.regionSize - 1 - k)
      (u32 t.regionParentsPtrs.length)).length = gh.regionSize := by
    rw [List.length_set]
    exact h.length
  rw [addRegion]
  by_cases hfilter : filter (gh.regionSize - 1 - k) = true
  · have hreads : Reads gh filter (gh.regionSize - 1 - k + 1) (TempRegionInfos.parents
        { t with
          regionDesc := t.regionDesc.set (gh.regionSize - 1 - k)
            (u32 t.regionParentsPtrs.length) }) := by
      intro x hlow hx _
      obtain ⟨j, hj, rfl⟩ : ∃ j < k, x = gh.regionSize - 1 - j :=
        ⟨gh.regionSize - 1 - x, by omega, by omega⟩
      refine temp_parents_eq (t := ⟨t.regionParentsPtrs, t.regionDesc.set _ _⟩) h.ptrs hj hk.le
        hfits (hbegin j hj.le) ?_
      rw [parentsEnd_of_pos (by omega)]
      exact checkedAt_of_getElem (hbegin (j + 1) hj)
    have hnew := newParents_eq hgh hr (by omega) hreads hfuel.depth
      (hfuel.visits _ (by omega)) hfilter
    rw [if_pos hfilter, hnew, ok_bind]
    exact ⟨_, rfl, htake.symm, hlength, fun j hj => hbegin j (Nat.lt_succ_iff.mp hj)⟩
  · rw [if_neg hfilter]
    refine ⟨_, rfl, ?_, hlength, fun j hj => hbegin j (Nat.lt_succ_iff.mp hj)⟩
    rw [htake, foundParents, if_neg hfilter, List.append_nil]

theorem addRegions_eq (hr : gh.Reduced) (hfuel : Enough gh filter fuel)
    (hfits : (descendingParents gh filter).flatten.length < 2 ^ 32) :
    ∀ {k : Nat} {t : TempRegionInfos}, k + i = gh.regionSize → TempHolds gh filter k t →
      ∃ t', addRegions gh filter fuel i t = .ok t' ∧ TempHolds gh filter gh.regionSize t' := by
  induction i with
  | zero =>
    intro k t hk h
    rw [Nat.add_zero] at hk
    subst hk
    exact ⟨t, rfl, h⟩
  | succ i ih =>
    intro k t hk h
    obtain ⟨t₁, hadd, h₁⟩ := addRegion_eq hgh hr hfuel h (by omega)
      ((Packed.offset_le _ _).trans_lt hfits)
    obtain ⟨t₂, hrest, h₂⟩ := ih (by omega) h₁
    have hi : gh.regionSize - 1 - k = i := by omega
    rw [hi] at hadd
    exact ⟨t₂, by rw [addRegions, hadd, ok_bind, hrest], h₂⟩

end

end Sserialize.GeoHierarchySubGraph
