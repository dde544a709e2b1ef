import Sserialize.Spatial.SpatialGeoHierarchy

namespace Sserialize

theorem mapM_spec {α β : Type} {f : α → Except Fault β} {P : α → β → Prop} {xs : List α}
    (h : ∀ x ∈ xs, ∃ y, f x = .ok y ∧ P x y) :
    ∃ ys, xs.mapM f = .ok ys ∧ List.Forall₂ P xs ys := by
  induction xs with
  | nil => exact ⟨[], rfl, .nil⟩
  | cons x xs ih =>
    obtain ⟨y, hy, hP⟩ := h x List.mem_cons_self
    obtain ⟨ys, hys, hall⟩ := ih fun z hz => h z (List.mem_cons_of_mem _ hz)
    refine ⟨y :: ys, ?_, .cons hP hall⟩
    rw [List.mapM_cons, hy, ok_bind, hys, ok_bind]
    rfl

namespace SpatialGeoHierarchy

variable {Rect : Type} {gh : SpatialGeoHierarchy Rect}

theorem getAncestors_succ (depth regionId : Nat) (out : Finset Nat) :
    gh.getAncestors (depth + 1) regionId out = (do
      let r ← subscript gh.regions regionId
      (r.parents gh.regionData).foldlM (fun out parent => gh.getAncestors depth parent out)
        (out ∪ (r.parents gh.regionData).toFinset)) := rfl

theorem IsDag.getAncestors_spec (h : gh.IsDag) {depth regionId : Nat}
    (hregion : regionId < gh.regions.length)
    (hdepth : LongestWalk.rank gh.parentsOf (Finset.range gh.regions.length) regionId < depth)
    (out : Finset Nat) :
    ∃ out', gh.getAncestors depth regionId out = .ok out' ∧
      ∀ y, y ∈ out' ↔ y ∈ out ∨ gh.Ancestor regionId y := by
  induction depth generalizing regionId out with
  | zero => omega
  | succ depth ih =>
    have hloop : ∀ (ps : List Nat) (out : Finset Nat), (∀ p ∈ ps, p ∈ gh.parentsOf regionId) →
        ∃ out', ps.foldlM (fun out parent => gh.getAncestors depth parent out) out =
            (.ok out' : Except Fault (Finset Nat)) ∧
          ∀ y, y ∈ out' ↔ y ∈ out ∨ ∃ p ∈ ps, gh.Ancestor p y := by
      intro ps
      induction ps with
      | nil => exact fun out _ => ⟨out, rfl, fun y => by simp⟩
      | cons p ps ihLoop =>
        intro out hps
        have hp := hps p List.mem_cons_self
        have hrank := h.parents_acyclic.rank_lt (Finset.mem_range.mpr hregion) hp
        obtain ⟨out₁, hout₁, hmem₁⟩ := ih (h.parents_lt _ p hp) (by omega) out
        obtain ⟨out', hout', hmem'⟩ := ihLoop out₁ fun q hq => hps q (List.mem_cons_of_mem _ hq)
        refine ⟨out', ?_, fun y => ?_⟩
        · rw [List.foldlM_cons, hout₁, ok_bind]
          exact hout'
        · rw [hmem', hmem₁, List.exists_mem_cons_iff, or_assoc]
    have hparents : gh.parentsOf regionId = gh.regions[regionId].parents gh.regionData :=
      parentsOf_of_getElem (List.getElem?_eq_getElem hregion)
    obtain ⟨out', hout', hmem⟩ := hloop (gh.parentsOf regionId)
      (out ∪ (gh.parentsOf regionId).toFinset) fun p hp => hp
    refine ⟨out', ?_, fun y => ?_⟩
    · rw [getAncestors_succ, subscript_of_lt hregion, ok_bind, ← hparents]
      exact hout'
    · rw [hmem, Finset.mem_union, List.mem_toFinset, or_assoc, Ancestor,
        Relation.TransGen.head'_iff]
      simp only [Relation.reflTransGen_iff_eq_or_transGen, and_or_left, exists_or]
      apply or_congr_right
      apply or_congr_left
      constructor
      · exact fun hy => ⟨y, hy, rfl⟩
      · rintro ⟨p, hp, rfl⟩
        exact hp

/-- The parents of a cell in front of `compactify` and behind it: those are left that are no
ancestor of another one, in ascending order, and every ancestor is still one. -/
structure Compacted (gh : SpatialGeoHierarchy Rect) (before after : List Nat) : Prop where
  mem : ∀ p, p ∈ after ↔ p ∈ before ∧ ∀ q ∈ before, ¬ gh.Ancestor q p
  ascending : after.Pairwise (· < ·)
  closure : ∀ r, (∃ p ∈ before, p = r ∨ gh.Ancestor p r) → ∃ p ∈ after, p = r ∨ gh.Ancestor p r

theorem compacted_nil : Compacted gh [] [] where
  mem p := by simp
  ascending := .nil
  closure r h := h

theorem not_compacted_nil {p : Nat} {before : List Nat} (hp : p ∈ before) :
    ¬ Compacted gh before [] := by
  intro h
  obtain ⟨q, hq, -⟩ := h.closure p ⟨p, hp, .inl rfl⟩
  exact absurd hq List.not_mem_nil

theorem writeKept_cons (x : Nat) (kept : List Nat) (pIt : Nat) (data : List Nat) :
    writeKept (x :: kept) pIt data = (do
      let data ← subscriptSet data pIt x
      let data ← subscriptSet data pIt (u32 (x + 1))
      writeKept kept pIt data) := rfl

theorem writeKept_spec {kept : List Nat} {pIt : Nat} {data : List Nat}
    (h : kept ≠ [] → pIt < data.length) :
    ∃ data', writeKept kept pIt data = .ok (pIt, data') := by
  induction kept generalizing data with
  | nil => exact ⟨data, rfl⟩
  | cons x kept ih =>
    have hin := h (List.cons_ne_nil x kept)
    have hset : ∀ y, pIt < (data.set pIt y).length := fun y => by rwa [List.length_set]
    obtain ⟨data', hdata'⟩ := @ih ((data.set pIt x).set pIt (u32 (x + 1))) fun _ => by
      rw [List.length_set]
      exact hset x
    refine ⟨data', ?_⟩
    rw [writeKept_cons, subscriptSet_of_lt hin, ok_bind, subscriptSet_of_lt (hset x), ok_bind,
      hdata']

theorem IsDag.keepParents_spec (h : gh.IsDag) {depth : Nat} (hdepth : gh.regions.length ≤ depth)
    {parents : List Nat} (hparents : ∀ p ∈ parents, p < gh.regions.length)
    (s : List Nat × Finset Nat) : ∃ s', parents.foldlM (gh.keepParent depth) s = .ok s' := by
  induction parents generalizing s with
  | nil => exact ⟨s, rfl⟩
  | cons p parents ih =>
    have hrest := ih fun q hq => hparents q (List.mem_cons_of_mem _ hq)
    have hp := hparents p List.mem_cons_self
    obtain ⟨s₁, hs₁⟩ : ∃ s₁, gh.keepParent depth s p = .ok s₁ := by
      rw [keepParent]
      by_cases hremoved : p ∈ s.2
      · exact ⟨s, if_pos hremoved⟩
      · have hrank := h.parents_acyclic.rank_lt_card (Finset.mem_range.mpr hp)
        rw [Finset.card_range] at hrank
        obtain ⟨removed, hrun, -⟩ := h.getAncestors_spec hp (hrank.trans_le hdepth) s.2
        rw [if_neg hremoved, hrun]
        exact ⟨_, rfl⟩
    obtain ⟨s', hs'⟩ := hrest s₁
    refine ⟨s', ?_⟩
    rw [List.foldlM_cons, hs₁]
    exact hs'

theorem IsDag.compactifyCell_spec (h : gh.IsDag) {depth : Nat}
    (hdepth : gh.regions.length ≤ depth) {cell : Cell Rect}
    (hcell : ∀ p ∈ cell.parents, p < gh.regions.length) :
    ∃ cell', gh.compactifyCell depth cell = .ok cell' ∧ cell'.parents = [] := by
  obtain ⟨⟨kept, removed⟩, hkeep⟩ := h.keepParents_spec hdepth hcell ([], ∅)
  have hin : kept ≠ [] → 0 < cell.parentsData.length := by
    intro hkept
    by_contra hempty
    have hnone : cell.parents = [] := by
      rw [Cell.parents, List.eq_nil_of_length_eq_zero (Nat.eq_zero_of_not_pos hempty),
        List.take_nil]
    rw [hnone] at hkeep
    obtain ⟨rfl, -⟩ := Prod.mk.inj (Except.ok.inj hkeep)
    exact hkept rfl
  obtain ⟨data, hwrite⟩ := writeKept_spec hin
  refine ⟨{ cell with parentsData := data, parentsSize := 0 }, ?_, List.take_zero⟩
  rw [compactifyCell, hkeep, ok_bind]
  dsimp only
  rw [hwrite]
  rfl

/-- `compactify` of the cells does what it says for the cells that have no parents. -/
theorem compactify_right_iff (h : gh.IsDag) {depth : Nat} (hdepth : gh.regions.length ≤ depth)
    (hcells : ∀ cell ∈ gh.cells, ∀ p ∈ cell.parents, p < gh.regions.length) :
    ∃ gh', gh.compactify depth = .ok gh' ∧ gh'.cells.length = gh.cells.length ∧
      ∀ i, ∀ hi : i < gh.cells.length, ∀ hi' : i < gh'.cells.length,
        Compacted gh gh.cells[i].parents gh'.cells[i].parents ↔ gh.cells[i].parents = [] := by
  obtain ⟨cells, hmap, hall⟩ := mapM_spec fun cell hcell =>
    h.compactifyCell_spec hdepth (hcells cell hcell)
  refine ⟨{ gh with cells := cells }, ?_, hall.length_eq.symm, ?_⟩
  · rw [compactify, hmap]
    rfl
  · intro i hi hi'
    have hafter : cells[i].parents = [] := (List.forall₂_iff_get.mp hall).2 i hi hi'
    rw [hafter]
    constructor
    · intro hright
      by_contra hne
      obtain ⟨p, hp⟩ := List.exists_mem_of_ne_nil _ hne
      exact not_compacted_nil hp hright
    · intro hnone
      rw [hnone]
      exact compacted_nil

def nested : SpatialGeoHierarchy Unit where
  cells := [⟨[0, 1], 2, [], ()⟩]
  regionData := [1, 0, 0, 0]
  regions := [⟨0, 0, 1, 0, 1, 0, 0, ()⟩, ⟨2, 1, 0, 0, 1, 1, 1, ()⟩]
  rootRegion := ⟨0, 0, 0, 0, 0, 0, 0, ()⟩

theorem parentsOf_nested (id : Nat) : nested.parentsOf id = if id = 0 then [1] else [] := by
  cases id with
  | zero => rfl
  | succ id =>
    cases id with
    | zero => rfl
    | succ id => rfl

theorem childrenOf_nested (id : Nat) : nested.childrenOf id = if id = 1 then [0] else [] := by
  cases id with
  | zero => rfl
  | succ id =>
    cases id with
    | zero => rfl
    | succ id => rfl

theorem isDag_nested : nested.IsDag where
  inside := by decide
  ghId id r h := by
    cases id with
    | zero => exact (Option.some.inj h) ▸ rfl
    | succ id =>
      cases id with
      | zero => exact (Option.some.inj h) ▸ rfl
      | succ id => cases h
  mem_children p _ id := by
    rw [childrenOf_nested, parentsOf_nested]
    have hlength : nested.regions.length = 2 := rfl
    split <;> split <;> simp <;> omega
  parents_lt id p hp := by
    rw [parentsOf_nested] at hp
    have hlength : nested.regions.length = 2 := rfl
    split at hp <;> simp at hp
    omega
  irrefl id h := by
    refine absurd (lt_of_ancestor ?_ h) (Nat.lt_irrefl id)
    intro id p hp
    rw [parentsOf_nested] at hp
    split at hp <;> simp at hp
    omega

theorem compactify_right_iff_nested :
    ∃ gh', nested.compactify 2 = .ok gh' ∧ gh'.cells.length = nested.cells.length ∧
      ∀ i, ∀ hi : i < nested.cells.length, ∀ hi' : i < gh'.cells.length,
        Compacted nested nested.cells[i].parents gh'.cells[i].parents ↔
          nested.cells[i].parents = [] :=
  compactify_right_iff isDag_nested (Nat.le_refl 2) (by decide)

/-- Region 0 is lost. -/
theorem compactify_not_right :
    (nested.compactify 2).toOption.map (fun gh => gh.cells.map Cell.parents) = some [[]] ∧
      ¬ Compacted nested [0, 1] [] :=
  ⟨by decide, not_compacted_nil List.mem_cons_self⟩

end SpatialGeoHierarchy

end Sserialize
