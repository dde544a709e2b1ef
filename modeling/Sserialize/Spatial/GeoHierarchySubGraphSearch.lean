import Sserialize.Library.GreedyMinimal
import Sserialize.Spatial.GeoHierarchySubGraph
import Sserialize.Spatial.GeoHierarchySubSetCorrect

namespace Sserialize

namespace GeoHierarchy

variable (gh : GeoHierarchy)

def Above (r p : Nat) : Prop := Relation.TransGen (fun c r => r ∈ gh.parents c) r p

def cellRemainingParents (id : Nat) : List Nat :=
  let row := gh.cellAt id
  slice gh.cellPtrs (row.parentsBegin + row.directParentsOffset) (gh.cellAt (id + 1)).parentsBegin

/-- No parent is an ancestor of another one, and the ancestors of a cell behind its direct parents
ascend. -/
structure Reduced : Prop where
  parents : ∀ id < gh.regionSize, ∀ p ∈ gh.parents id, ∀ q ∈ gh.parents id, ¬ gh.Above q p
  cellDirectParents : ∀ id < gh.cellSize, ∀ p ∈ gh.cellDirectParents id,
    ∀ q ∈ gh.cellDirectParents id, ¬ gh.Above q p
  cellRemainingParents : ∀ id < gh.cellSize, (gh.cellRemainingParents id).Pairwise (· < ·)

variable {gh}

theorem Above.of_parent {r p : Nat} (h : p ∈ gh.parents r) : gh.Above r p := .single h

theorem Above.trans {a b c : Nat} (h : gh.Above a b) (h' : gh.Above b c) : gh.Above a c :=
  Relation.TransGen.trans h h'

theorem WellFormed.above_lt (hgh : gh.WellFormed) {r p : Nat} (hr : r < gh.regionSize)
    (h : gh.Above r p) : r < p ∧ p < gh.regionSize := by
  induction h with
  | single h => exact hgh.parentsLarger _ hr _ h
  | tail _ h ih =>
    have hstep := hgh.parentsLarger _ ih.2 _ h
    exact ⟨ih.1.trans hstep.1, hstep.2⟩

end GeoHierarchy

namespace GeoHierarchySubGraph

open GeoHierarchy

section

variable (gh : GeoHierarchy) (filter : Nat → Bool)

def IsMinimalKept (r p : Nat) : Prop :=
  filter p = true ∧ gh.Above r p ∧ ∀ q, filter q = true → gh.Above r q → ¬ gh.Above q p

def keptParents (i : Nat) : List Nat := (gh.parents i).filter filter

def removedParents (i : Nat) : List Nat := (gh.parents i).filter fun rId => !filter rId

def bypass (c : Nat) : List Nat := if filter c then [] else gh.parents c

def visited (i : Nat) : List Nat :=
  BreadthFirst.order (bypass gh filter) gh.regionSize (removedParents gh filter i)

def candidates (i : Nat) : List Nat := (visited gh filter i).filter filter

noncomputable def collected (i : Nat) : List Nat :=
  GreedyMinimal.collect gh.Above (keptParents gh filter i) (candidates gh filter i)

open Classical in
noncomputable def foundParents (i : Nat) : List Nat :=
  if filter i then
    if removedParents gh filter i = [] then keptParents gh filter i
    else (collected gh filter i).mergeSort
  else []

end

variable {gh : GeoHierarchy} {filter : Nat → Bool} {i : Nat}

theorem regionParents_eq (hgh : gh.WellFormed) (hi : i < gh.regionSize) :
    regionParents gh i = .ok (gh.parents i) := by
  obtain ⟨b, e, hb, he, hread, -⟩ := hgh.parents_read hi
  rw [regionParents, hb, ok_bind, he, ok_bind, hread]

theorem mem_keptParents {p : Nat} :
    p ∈ keptParents gh filter i ↔ p ∈ gh.parents i ∧ filter p = true := List.mem_filter

theorem mem_removedParents {p : Nat} :
    p ∈ removedParents gh filter i ↔ p ∈ gh.parents i ∧ filter p = false := by
  rw [removedParents, List.mem_filter, Bool.not_eq_true']

def Visitable (gh : GeoHierarchy) (filter : Nat → Bool) (i x : Nat) : Prop :=
  x ∈ removedParents gh filter i ∨ ∃ q ∈ gh.parents i, gh.Above q x

theorem Visitable.above {x : Nat} (h : Visitable gh filter i x) : gh.Above i x := by
  obtain h | ⟨q, hq, hqx⟩ := h
  · exact .of_parent (mem_removedParents.mp h).1
  · exact (Above.of_parent hq).trans hqx

theorem Visitable.bypass {x : Nat} (h : Visitable gh filter i x) {y : Nat}
    (hy : y ∈ bypass gh filter x) : Visitable gh filter i y := by
  rw [GeoHierarchySubGraph.bypass] at hy
  by_cases hx : filter x = true
  · rw [if_pos hx] at hy
    exact absurd hy List.not_mem_nil
  · rw [if_neg hx] at hy
    refine .inr ?_
    obtain h | ⟨q, hq, hqx⟩ := h
    · exact ⟨x, (mem_removedParents.mp h).1, .of_parent hy⟩
    · exact ⟨q, hq, hqx.trans (.of_parent hy)⟩

theorem Visitable.not_mem_keptParents (hr : gh.Reduced) (hi : i < gh.regionSize) {x : Nat}
    (h : Visitable gh filter i x) (hx : filter x = true) : x ∉ keptParents gh filter i := by
  intro hmem
  obtain h | ⟨q, hq, hqx⟩ := h
  · exact nomatch hx.symm.trans (mem_removedParents.mp h).2
  · exact hr.parents i hi x (mem_keptParents.mp hmem).1 q hq hqx

theorem visitable_of_mem {x : Nat} (h : x ∈ visited gh filter i) : Visitable gh filter i x :=
  BreadthFirst.of_mem_order (fun _ hx _ hy => Visitable.bypass hx hy) (fun _ hy => .inl hy) x h

theorem endsWithin (hgh : gh.WellFormed) (hi : i < gh.regionSize) :
    BreadthFirst.EndsWithin (bypass gh filter) gh.regionSize (removedParents gh filter i) := by
  have hlt : ∀ x < gh.regionSize, ∀ y ∈ bypass gh filter x, x < y ∧ y < gh.regionSize := by
    intro x hx y hy
    rw [bypass] at hy
    by_cases hfilter : filter x = true
    · rw [if_pos hfilter] at hy
      exact absurd hy List.not_mem_nil
    · rw [if_neg hfilter] at hy
      exact hgh.parentsLarger x hx y hy
  refine BreadthFirst.endsWithin_of_lt hlt fun x hx => ?_
  exact ⟨(hgh.parentsLarger i hi x (mem_removedParents.mp hx).1).2, Nat.le_add_left _ _⟩

theorem exists_candidate (hgh : gh.WellFormed) (hi : i < gh.regionSize) {p : Nat}
    (hp : filter p = true) (h : gh.Above i p) :
    ∃ c ∈ keptParents gh filter i ++ candidates gh filter i, c = p ∨ gh.Above c p := by
  have hend : BreadthFirst.EndsWithin (bypass gh filter) gh.regionSize (removedParents gh filter i) :=
    endsWithin hgh hi
  obtain ⟨hstart, hclosed⟩ := BreadthFirst.mem_order_of_reach hend
  -- the path reaches its first kept region over regions that the search visits
  suffices hpath : ∀ x, gh.Above x p →
      (∀ y ∈ gh.parents x, y ∈ keptParents gh filter i ∨ y ∈ visited gh filter i) →
      ∃ c ∈ keptParents gh filter i ++ candidates gh filter i, c = p ∨ gh.Above c p by
    refine hpath i h fun y hy => ?_
    cases hfilter : filter y with
    | true => exact .inl (mem_keptParents.mpr ⟨hy, hfilter⟩)
    | false => exact .inr (hstart y (mem_removedParents.mpr ⟨hy, hfilter⟩))
  intro x hx
  induction hx using Relation.TransGen.head_induction_on with
  | single hparent =>
    intro hparents
    refine ⟨p, ?_, .inl rfl⟩
    obtain hmem | hmem := hparents p hparent
    · exact List.mem_append_left _ hmem
    · exact List.mem_append_right _ (List.mem_filter.mpr ⟨hmem, hp⟩)
  | @head x y hparent hrest ih =>
    intro hparents
    cases hfilter : filter y with
    | true =>
      refine ⟨y, ?_, .inr hrest⟩
      obtain hmem | hmem := hparents y hparent
      · exact List.mem_append_left _ hmem
      · exact List.mem_append_right _ (List.mem_filter.mpr ⟨hmem, hfilter⟩)
    | false =>
      have hmem : y ∈ visited gh filter i := by
        refine (hparents y hparent).resolve_left fun hkept => ?_
        exact nomatch hfilter.symm.trans (mem_keptParents.mp hkept).2
      refine ih fun z hz => .inr (hclosed y hmem z ?_)
      rw [bypass, if_neg (by rw [hfilter]; exact Bool.false_ne_true)]
      exact hz

theorem candidate_above {c : Nat}
    (h : c ∈ keptParents gh filter i ++ candidates gh filter i) :
    filter c = true ∧ gh.Above i c := by
  obtain h | h := List.mem_append.mp h
  · obtain ⟨hparent, hfilter⟩ := mem_keptParents.mp h
    exact ⟨hfilter, .of_parent hparent⟩
  · obtain ⟨hvisited, hfilter⟩ := List.mem_filter.mp h
    exact ⟨hfilter, (visitable_of_mem hvisited).above⟩

theorem foundParents_perm (hfilter : filter i = true) :
    (foundParents gh filter i).Perm (collected gh filter i) := by
  rw [foundParents, if_pos hfilter]
  by_cases hnil : removedParents gh filter i = []
  · rw [if_pos hnil, collected, candidates, visited, hnil]
    have horder : ∀ n, BreadthFirst.order (bypass gh filter) n [] = [] := by
      intro n
      induction n with
      | zero => rfl
      | succ n ih =>
        rw [BreadthFirst.order, List.flatMap_nil, ih]
        rfl
    rw [horder]
    exact List.Perm.refl _
  · rw [if_neg hnil]
    exact List.mergeSort_perm _ _

/-- What the list of parents of a kept region is, whatever the order of the search is. -/
structure FoundSpec (gh : GeoHierarchy) (filter : Nat → Bool) (i : Nat) (ptrs : List Nat) :
    Prop where
  sound : ∀ p ∈ ptrs, filter p = true ∧ gh.Above i p
  complete : ∀ p, filter p = true → gh.Above i p → ∃ c ∈ ptrs, c = p ∨ gh.Above c p
  nodup : ptrs.Nodup

theorem foundParents_spec (hgh : gh.WellFormed) (hi : i < gh.regionSize)
    (hfilter : filter i = true) : FoundSpec gh filter i (foundParents gh filter i) := by
  have hperm : (foundParents gh filter i).Perm (collected gh filter i) := foundParents_perm hfilter
  refine ⟨fun p hp => ?_, fun p hp habove => ?_, hperm.nodup_iff.mpr ?_⟩
  · exact candidate_above (GreedyMinimal.mem_of_mem_collect (hperm.mem_iff.mp hp))
  · obtain ⟨c, hc, hcp⟩ := exists_candidate hgh hi hp habove
    obtain ⟨a, ha, hac⟩ := GreedyMinimal.exists_collect hc
    refine ⟨a, hperm.mem_iff.mpr ha, ?_⟩
    obtain rfl | hac := hac
    · exact hcp
    · obtain rfl | hcp := hcp
      · exact .inr hac
      · exact .inr (hac.trans hcp)
  · exact GreedyMinimal.nodup_collect ((hgh.parentsNodup i hi).filter _)

end GeoHierarchySubGraph

end Sserialize
