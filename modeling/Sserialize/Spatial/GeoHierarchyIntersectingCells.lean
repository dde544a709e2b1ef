import Sserialize.Library.Worklist
import Sserialize.Spatial.GeoGrid
import Sserialize.Spatial.GeoHierarchySubGraphCorrect

namespace Sserialize

namespace GeoRect

def overlap (r other : GeoRect) : Bool :=
  if r.minLat > other.maxLat ∨ r.maxLat < other.minLat ∨ r.minLon > other.maxLon ∨
      r.maxLon < other.minLon then false
  else true

def containsRect (r other : GeoRect) : Bool :=
  r.contains ⟨other.minLat, other.minLon⟩ && r.contains ⟨other.maxLat, other.maxLon⟩

theorem overlap_iff {r other : GeoRect} :
    r.overlap other = true ↔ r.minLat ≤ other.maxLat ∧ other.minLat ≤ r.maxLat ∧
      r.minLon ≤ other.maxLon ∧ other.minLon ≤ r.maxLon := by
  rw [overlap]
  split
  next h =>
    refine iff_of_false Bool.false_ne_true ?_
    rintro ⟨h1, h2, h3, h4⟩
    rcases h with h | h | h | h
    · exact absurd h1 (not_le.mpr h)
    · exact absurd h2 (not_le.mpr h)
    · exact absurd h3 (not_le.mpr h)
    · exact absurd h4 (not_le.mpr h)
  next h => exact iff_of_true rfl (by simpa [not_or] using h)

theorem containsRect_iff {r other : GeoRect} :
    r.containsRect other = true ↔
      (r.minLat ≤ other.minLat ∧ other.minLat ≤ r.maxLat ∧ r.minLon ≤ other.minLon ∧
        other.minLon ≤ r.maxLon) ∧
      (r.minLat ≤ other.maxLat ∧ other.maxLat ≤ r.maxLat ∧ r.minLon ≤ other.maxLon ∧
        other.maxLon ≤ r.maxLon) := by
  rw [containsRect, Bool.and_eq_true, contains_iff, contains_iff]

variable {r s t : GeoRect}

theorem overlap_of_containsRect (h : s.containsRect t = true) (hoverlap : r.overlap t = true) :
    r.overlap s = true := by
  rw [containsRect_iff] at h
  rw [overlap_iff] at hoverlap ⊢
  obtain ⟨⟨h1, -, h3, -⟩, -, h6, -, h8⟩ := h
  obtain ⟨h9, h10, h11, h12⟩ := hoverlap
  exact ⟨h9.trans h6, h1.trans h10, h11.trans h8, h3.trans h12⟩

theorem overlap_of_containsRect_containsRect (hrs : r.containsRect s = true)
    (hst : s.containsRect t = true) : r.overlap t = true := by
  rw [containsRect_iff] at hrs hst
  rw [overlap_iff]
  obtain ⟨⟨h1, -, h3, -⟩, -, h6, -, h8⟩ := hrs
  obtain ⟨⟨-, g2, -, g4⟩, g5, -, g7, -⟩ := hst
  exact ⟨h1.trans g5, g2.trans h6, h3.trans g7, g4.trans h8⟩

end GeoRect

/-- The columns that the search reads: `RD_CELL_LIST_PTR` and `RD_EXCLUSIVE_CELL_LIST_PTR` of the
regions, and the boundaries. -/
structure StaticGeoHierarchy extends GeoHierarchy where
  cellListPtrs : List Nat
  exclusiveCellListPtrs : List Nat
  regionBoundaries : List GeoRect
  cellBoundaries : List GeoRect

namespace StaticGeoHierarchy

variable (gh : StaticGeoHierarchy) (idxStore : ItemIndexStore) (rect : GeoRect)

def regionBoundary (id : Nat) : Except Fault GeoRect := checkedAt gh.regionBoundaries id

def cellBoundary (id : Nat) : Except Fault GeoRect := checkedAt gh.cellBoundaries id

def cellIndexPtr (id : Nat) : Except Fault Nat := checkedAt gh.cellListPtrs id

def exclusiveCellIndexPtr (id : Nat) : Except Fault Nat := checkedAt gh.exclusiveCellListPtrs id

def regionChildrenSize (id : Nat) : Except Fault Nat := do
  let row ← checkedAt gh.regions id
  return row.parentsOffset

def child (id pos : Nat) : Except Fault Nat := do
  let cB ← gh.regionChildrenBegin id
  let cE ← gh.regionParentsBegin id
  if u32 (cB + pos) < cE then gh.regionPtr (u32 (cB + pos)) else return GeoHierarchy.npos

structure State where
  queue : List Nat
  visitedRegions : List Nat
  intersectingCells : List Nat

def pushRootChild (s : State) (childId : Nat) : Except Fault State := do
  let boundary ← gh.regionBoundary childId
  if rect.overlap boundary then
    return { s with
      queue := s.queue ++ [childId]
      visitedRegions := s.visitedRegions ++ [childId] }
  else return s

def pushChild (s : State) (childId : Nat) : Except Fault State := do
  if s.visitedRegions.contains childId then return s
  else
    let boundary ← gh.regionBoundary childId
    if rect.overlap boundary then
      return { s with
        queue := s.queue ++ [childId]
        visitedRegions := s.visitedRegions ++ [childId] }
    else return s

def forChildren (push : State → Nat → Except Fault State) (r : Nat) (s : State) :
    Except Fault State := do
  let size ← gh.regionChildrenSize r
  (List.range size).foldlM (fun s i => do
    let childId ← gh.child r i
    push s childId) s

def pushCell (s : State) (cellId : Nat) : Except Fault State := do
  let boundary ← gh.cellBoundary cellId
  if rect.overlap boundary then
    return { s with intersectingCells := s.intersectingCells ++ [cellId] }
  else return s

/-- An iteration of the loop for the region at the front of the queue. Nothing is added of an empty
index, so the tests of `idxSize` are not repeated here. -/
def visit (r : Nat) (s : State) : Except Fault State := do
  let boundary ← gh.regionBoundary r
  if rect.containsRect boundary then
    let cIdxPtr ← gh.cellIndexPtr r
    return { s with intersectingCells := s.intersectingCells ++ (idxStore.at cIdxPtr).ids }
  else
    let s ← gh.forChildren (gh.pushChild rect) r s
    let exclusiveCellIndexPtr ← gh.exclusiveCellIndexPtr r
    (idxStore.at exclusiveCellIndexPtr).ids.foldlM (gh.pushCell rect) s

def loop : Nat → State → Option (Except Fault State)
  | 0, _ => none
  | fuel + 1, s =>
    match s.queue with
    | [] => some (.ok s)
    | r :: queue =>
      match gh.visit idxStore rect r { s with queue := queue } with
      | .error e => some (.error e)
      | .ok s => loop fuel s

/-- `std::unique` on the sorted cells. -/
def unique : List Nat → List Nat
  | [] => []
  | [x] => [x]
  | x :: y :: xs => if x = y then unique (y :: xs) else x :: unique (y :: xs)

theorem loop_cons {r : Nat} {queue visitedRegions cells : List Nat} {s : State}
    (hvisit : gh.visit idxStore rect r ⟨queue, visitedRegions, cells⟩ = .ok s) (fuel : Nat) :
    gh.loop idxStore rect (fuel + 1) ⟨r :: queue, visitedRegions, cells⟩ =
      gh.loop idxStore rect fuel s := by
  simp only [loop, hvisit]

def intersectingCells (fuel : Nat) : Option (Except Fault (List Nat)) :=
  match gh.forChildren (gh.pushRootChild rect) gh.regionSize ⟨[], [], []⟩ with
  | .error e => some (.error e)
  | .ok s =>
    (gh.loop idxStore rect fuel s).map fun s => do
      let s ← s
      return unique (s.intersectingCells.mergeSort)

theorem unique_cons_cons (x y : Nat) (xs : List Nat) :
    unique (x :: y :: xs) = if x = y then unique (y :: xs) else x :: unique (y :: xs) := rfl

theorem mem_unique (c : Nat) (xs : List Nat) : c ∈ unique xs ↔ c ∈ xs := by
  induction xs with
  | nil => exact Iff.rfl
  | cons x xs ih =>
    cases xs with
    | nil => exact Iff.rfl
    | cons y xs =>
      rw [unique_cons_cons, List.mem_cons]
      split
      next h =>
        rw [ih]
        exact (or_iff_right_of_imp fun hc => hc ▸ h ▸ List.mem_cons_self).symm
      next => rw [List.mem_cons, ih]

theorem unique_ascending {xs : List Nat} (h : xs.Pairwise (· ≤ ·)) :
    (unique xs).Pairwise (· < ·) := by
  induction xs with
  | nil => exact List.Pairwise.nil
  | cons x xs ih =>
    obtain ⟨hx, hxs⟩ := List.pairwise_cons.mp h
    cases xs with
    | nil => exact List.pairwise_singleton _ _
    | cons y xs =>
      rw [unique_cons_cons]
      split
      next => exact ih hxs
      next hne =>
        refine List.pairwise_cons.mpr ⟨fun c hc => ?_, ih hxs⟩
        have hxy : x < y := lt_of_le_of_ne (hx y List.mem_cons_self) hne
        rcases List.mem_cons.mp ((mem_unique c _).mp hc) with rfl | hc
        · exact hxy
        · exact hxy.trans_le ((List.pairwise_cons.mp hxs).1 c hc)

def regionBoundaryOf (r : Nat) : GeoRect := gh.regionBoundaries.getD r ⟨0, 0, 0, 0⟩

def cellBoundaryOf (c : Nat) : GeoRect := gh.cellBoundaries.getD c ⟨0, 0, 0, 0⟩

def cellsOf (r : Nat) : List Nat := (idxStore.at (gh.cellListPtrs.getD r 0)).ids

def exclusiveCellsOf (r : Nat) : List Nat := (idxStore.at (gh.exclusiveCellListPtrs.getD r 0)).ids

/-- Boundaries contain those of children and cells, the cells of a region are the exclusive ones and
those of its children, and every cell is in a region. The regions without parents are the children
of the root region. -/
structure Consistent : Prop where
  tables : gh.toGeoHierarchy.Tables
  regionRows : gh.regionSize ≤ gh.cellListPtrs.length ∧
    gh.regionSize ≤ gh.exclusiveCellListPtrs.length ∧ gh.regionSize ≤ gh.regionBoundaries.length
  cellRows : gh.cellSize ≤ gh.cellBoundaries.length
  storeRows : ∀ ptr ∈ gh.cellListPtrs ++ gh.exclusiveCellListPtrs, ptr < idxStore.size
  rootChildren : ∀ id, id ∈ gh.children gh.regionSize ↔ id < gh.regionSize ∧ gh.parents id = []
  childrenInside : ∀ r < gh.regionSize, ∀ k ∈ gh.children r,
    (gh.regionBoundaryOf r).containsRect (gh.regionBoundaryOf k) = true
  cellsInside : ∀ r < gh.regionSize, ∀ c ∈ gh.cellsOf idxStore r, c < gh.cellSize ∧
    (gh.regionBoundaryOf r).containsRect (gh.cellBoundaryOf c) = true
  mem_cellsOf : ∀ r < gh.regionSize, ∀ c, c ∈ gh.cellsOf idxStore r ↔
    c ∈ gh.exclusiveCellsOf idxStore r ∨ ∃ k ∈ gh.children r, c ∈ gh.cellsOf idxStore k
  covered : ∀ c < gh.cellSize, ∃ r < gh.regionSize, c ∈ gh.cellsOf idxStore r

def overlappingCells : List Nat :=
  (List.range gh.cellSize).filter fun c => rect.overlap (gh.cellBoundaryOf c)

variable {gh idxStore rect}

theorem checkedAt_getD {α : Type} {xs : List α} {pos : Nat} (h : pos < xs.length) (d : α) :
    checkedAt xs pos = .ok (xs.getD pos d) := by
  rw [checkedAt_of_getElem (List.getElem?_eq_getElem h), List.getD_eq_getElem _ d h]

theorem mapM_congr_mem {α β : Type} {f g : α → Except Fault β} {xs : List α}
    (h : ∀ x ∈ xs, f x = g x) : xs.mapM f = xs.mapM g := by
  induction xs with
  | nil => rfl
  | cons x xs ih =>
    rw [List.mapM_cons, List.mapM_cons, h x List.mem_cons_self,
      ih fun y hy => h y (List.mem_cons_of_mem x hy)]

theorem forChildren_eq (h : gh.toGeoHierarchy.Tables) (push : State → Nat → Except Fault State)
    {r : Nat} (hr : r ≤ gh.regionSize) (s : State) :
    gh.forChildren push r s = (gh.children r).foldlM push s := by
  have hlt : r < gh.regions.length := by
    have hsize := h.regionSize_eq
    have hrows := h.regionRows.1
    omega
  have hrow : checkedAt gh.regions r = .ok (gh.regionAt r) := checkedAt_getD hlt _
  have hmem : gh.regionAt r ∈ gh.regions := by
    rw [GeoHierarchy.regionAt, List.getD_eq_getElem _ _ hlt]
    exact List.getElem_mem hlt
  have hend := h.regionPtrsEnd _ hmem
  have hptrs := h.regionPtrsSize
  have hread : (List.range (gh.regionAt r).parentsOffset).mapM (gh.child r) =
      .ok (gh.children r) := by
    have hslice := mapM_checkedAt (Nat.le_add_right (gh.regionAt r).childrenBegin _)
      (Nat.le_trans (Nat.le_add_right _ _) hend) hptrs
    rw [loopPositions, sub32_of_le (Nat.le_add_right _ _) (by omega), Nat.add_sub_cancel_left,
      List.mapM_map] at hslice
    refine (mapM_congr_mem fun i hi => ?_).trans hslice
    have hi := List.mem_range.mp hi
    rw [child, GeoHierarchy.regionChildrenBegin, hrow, ok_bind, except_pure, ok_bind,
      GeoHierarchy.regionParentsBegin, hrow, ok_bind, except_pure, ok_bind, u32_of_lt (by omega),
      u32_of_lt (by omega), if_pos (by omega)]
    exact congrArg (checkedAt gh.regionPtrs) (u32_of_lt (by omega)).symm
  rw [forChildren, regionChildrenSize, hrow, ok_bind, except_pure, ok_bind]
  exact GeoHierarchy.foldlM_read hread s

def accept (gh : StaticGeoHierarchy) (rect : GeoRect) (r : Nat) : Bool :=
  rect.overlap (gh.regionBoundaryOf r)

def succ (gh : StaticGeoHierarchy) (rect : GeoRect) (r : Nat) : List Nat :=
  if rect.containsRect (gh.regionBoundaryOf r) then [] else gh.children r

def emit (gh : StaticGeoHierarchy) (idxStore : ItemIndexStore) (rect : GeoRect) (r : Nat) :
    List Nat :=
  if rect.containsRect (gh.regionBoundaryOf r) then gh.cellsOf idxStore r
  else (gh.exclusiveCellsOf idxStore r).filter fun c => rect.overlap (gh.cellBoundaryOf c)

def ofWorklist (w : Worklist.State Nat) (cells : List Nat) : State :=
  ⟨w.queue, w.relaxed, cells⟩

namespace Consistent

variable (h : gh.Consistent idxStore)

include h

theorem regionBoundary_eq {r : Nat} (hr : r < gh.regionSize) :
    gh.regionBoundary r = .ok (gh.regionBoundaryOf r) :=
  checkedAt_getD (hr.trans_le h.regionRows.2.2) _

theorem cellBoundary_eq {c : Nat} (hc : c < gh.cellSize) :
    gh.cellBoundary c = .ok (gh.cellBoundaryOf c) :=
  checkedAt_getD (hc.trans_le h.cellRows) _

theorem children_lt {r k : Nat} (hr : r < gh.regionSize) (hk : k ∈ gh.children r) :
    k < r ∧ k < gh.regionSize := by
  obtain ⟨hlt, hparent⟩ := (h.tables.mem_children r hr k).mp hk
  exact ⟨(h.tables.parentsLarger k hlt r hparent).1, hlt⟩

theorem succ_lt {r k : Nat} (hr : r < gh.regionSize) (hk : k ∈ gh.succ rect r) :
    k < gh.regionSize := by
  rw [succ] at hk
  split at hk
  next => exact absurd hk List.not_mem_nil
  next => exact (h.children_lt hr hk).2

theorem reach_lt {r : Nat}
    (hr : Worklist.Reach (gh.succ rect) (gh.accept rect)
      ((gh.children gh.regionSize).filter (gh.accept rect)) r) : r < gh.regionSize := by
  induction hr with
  | start hx => exact ((h.rootChildren _).mp (List.mem_of_mem_filter hx)).1
  | step _ hy _ ih => exact h.succ_lt ih hy

variable {xs : List Nat}

theorem pushRootChildren_eq (hxs : ∀ x ∈ xs, x < gh.regionSize) (w : Worklist.State Nat)
    (cells : List Nat) :
    xs.foldlM (gh.pushRootChild rect) (ofWorklist w cells) =
      .ok ⟨w.queue ++ xs.filter (gh.accept rect), w.relaxed ++ xs.filter (gh.accept rect), cells⟩ := by
  induction xs generalizing w with
  | nil =>
    rw [List.filter_nil, List.append_nil, List.append_nil]
    rfl
  | cons x xs ih =>
    have ih := ih fun y hy => hxs y (List.mem_cons_of_mem x hy)
    rw [List.foldlM_cons, pushRootChild, h.regionBoundary_eq (hxs x List.mem_cons_self), ok_bind]
    cases hx : gh.accept rect x with
    | true =>
      have hoverlap : rect.overlap (gh.regionBoundaryOf x) = true := hx
      rw [if_pos hoverlap, List.filter_cons_of_pos hx, except_pure, ok_bind]
      refine (ih { w with queue := w.queue ++ [x], relaxed := w.relaxed ++ [x] }).trans ?_
      rw [List.append_assoc, List.append_assoc, List.singleton_append]
    | false =>
      rw [accept] at hx
      rw [hx, if_neg Bool.false_ne_true, List.filter_cons_of_neg (by rw [accept, hx]; decide),
        except_pure, ok_bind]
      exact ih w

theorem pushChild_eq {x : Nat} (hx : x < gh.regionSize) (w : Worklist.State Nat)
    (cells : List Nat) :
    gh.pushChild rect (ofWorklist w cells) x =
      .ok (ofWorklist (Worklist.relax (gh.accept rect) w x) cells) := by
  rw [pushChild, Worklist.relax]
  by_cases hvisited : w.relaxed.contains x = true
  · rw [hvisited, Bool.not_true, Bool.false_and, if_neg Bool.false_ne_true]
    exact if_pos hvisited
  · rw [Bool.not_eq_true] at hvisited
    rw [hvisited, Bool.not_false, Bool.true_and]
    refine (if_neg (by rw [ofWorklist, hvisited]; exact Bool.false_ne_true)).trans ?_
    rw [h.regionBoundary_eq hx, ok_bind, accept]
    split
    next => rfl
    next => rfl

theorem pushChildren_eq (hxs : ∀ x ∈ xs, x < gh.regionSize) (w : Worklist.State Nat)
    (cells : List Nat) :
    xs.foldlM (gh.pushChild rect) (ofWorklist w cells) =
      .ok (ofWorklist (xs.foldl (Worklist.relax (gh.accept rect)) w) cells) := by
  induction xs generalizing w with
  | nil => rfl
  | cons x xs ih =>
    rw [List.foldlM_cons, h.pushChild_eq (hxs x List.mem_cons_self), ok_bind, List.foldl_cons]
    exact ih (fun y hy => hxs y (List.mem_cons_of_mem x hy)) _

theorem pushCells_eq (hxs : ∀ x ∈ xs, x < gh.cellSize) (s : State) :
    xs.foldlM (gh.pushCell rect) s =
      .ok { s with
        intersectingCells :=
          s.intersectingCells ++ xs.filter fun c => rect.overlap (gh.cellBoundaryOf c) } := by
  induction xs generalizing s with
  | nil =>
    rw [List.filter_nil, List.append_nil]
    rfl
  | cons x xs ih =>
    have ih := ih fun y hy => hxs y (List.mem_cons_of_mem x hy)
    rw [List.foldlM_cons, pushCell, h.cellBoundary_eq (hxs x List.mem_cons_self), ok_bind]
    cases hx : rect.overlap (gh.cellBoundaryOf x) with
    | true =>
      have hfilter := List.filter_cons_of_pos (p := fun c => rect.overlap (gh.cellBoundaryOf c))
        (l := xs) hx
      rw [if_pos rfl, except_pure, ok_bind, ih, hfilter]
      exact congrArg (fun cells => Except.ok { s with intersectingCells := cells })
        (List.append_cons s.intersectingCells x _).symm
    | false =>
      rw [if_neg Bool.false_ne_true, except_pure, ok_bind, ih,
        List.filter_cons_of_neg (by rw [hx]; decide)]

theorem exclusive_lt {r c : Nat} (hr : r < gh.regionSize)
    (hc : c ∈ gh.exclusiveCellsOf idxStore r) : c < gh.cellSize :=
  (h.cellsInside r hr c ((h.mem_cellsOf r hr c).mpr (.inl hc))).1

theorem visit_eq {r : Nat} (hr : r < gh.regionSize) (w : Worklist.State Nat) (cells : List Nat) :
    gh.visit idxStore rect r (ofWorklist w cells) =
      .ok (ofWorklist ((gh.succ rect r).foldl (Worklist.relax (gh.accept rect)) w)
        (cells ++ gh.emit idxStore rect r)) := by
  rw [visit, h.regionBoundary_eq hr, ok_bind, succ, emit]
  split
  next =>
    have hptr : gh.cellIndexPtr r = .ok (gh.cellListPtrs.getD r 0) :=
      checkedAt_getD (hr.trans_le h.regionRows.1) 0
    rw [hptr, ok_bind]
    rfl
  next =>
    have hptr : gh.exclusiveCellIndexPtr r = .ok (gh.exclusiveCellListPtrs.getD r 0) :=
      checkedAt_getD (hr.trans_le h.regionRows.2.1) 0
    rw [forChildren_eq h.tables _ hr.le,
      h.pushChildren_eq fun k hk => (h.children_lt hr hk).2, ok_bind, hptr, ok_bind]
    exact h.pushCells_eq (fun c hc => h.exclusive_lt hr hc) _

theorem loop_eq {fuel : Nat} {w : Worklist.State Nat} {taken all : List Nat}
    (hqueue : ∀ x ∈ w.queue, x < gh.regionSize)
    (hrun : QueueSearch.run (gh.succ rect) (gh.accept rect) fuel taken w = some all) :
    ∃ s, gh.loop idxStore rect fuel (ofWorklist w (taken.flatMap (gh.emit idxStore rect))) =
        some (.ok s) ∧ s.intersectingCells = all.flatMap (gh.emit idxStore rect) := by
  induction fuel generalizing taken w with
  | zero => cases hrun
  | succ fuel ih =>
    obtain ⟨queue, relaxed, found⟩ := w
    cases queue with
    | nil =>
      cases hrun
      exact ⟨_, rfl, rfl⟩
    | cons r queue =>
      have hr := hqueue r List.mem_cons_self
      have hrest : ∀ x ∈ queue, x < gh.regionSize :=
        fun x hx => hqueue x (List.mem_cons_of_mem r hx)
      obtain ⟨added, hadds⟩ :=
        Worklist.foldl_relax (gh.accept rect) (gh.succ rect r) ⟨queue, relaxed, found⟩
      have hqueue' : ∀ x ∈ queue ++ added, x < gh.regionSize := by
        intro x hx
        rcases List.mem_append.mp hx with hx | hx
        · exact hrest x hx
        · exact h.succ_lt hr (hadds.mem x hx).1
      obtain ⟨s, hloop, hcells⟩ := ih (hadds.queue ▸ hqueue') hrun
      refine ⟨s, ?_, hcells⟩
      rw [List.flatMap_append, List.flatMap_singleton] at hloop
      exact (gh.loop_cons idxStore rect (h.visit_eq hr ⟨queue, relaxed, found⟩ _) fuel).trans hloop

theorem emit_sound {r c : Nat} (hr : r < gh.regionSize) (hc : c ∈ gh.emit idxStore rect r) :
    c < gh.cellSize ∧ rect.overlap (gh.cellBoundaryOf c) = true := by
  rw [emit] at hc
  split at hc
  next hinside =>
    obtain ⟨hlt, hcell⟩ := h.cellsInside r hr c hc
    exact ⟨hlt, GeoRect.overlap_of_containsRect_containsRect hinside hcell⟩
  next =>
    obtain ⟨hmem, hoverlap⟩ := List.mem_filter.mp hc
    exact ⟨h.exclusive_lt hr hmem, hoverlap⟩

theorem exists_emit {start : List Nat} {c : Nat}
    (hoverlap : rect.overlap (gh.cellBoundaryOf c) = true) (r : Nat) (hr : r < gh.regionSize)
    (hreach : Worklist.Reach (gh.succ rect) (gh.accept rect) start r)
    (hc : c ∈ gh.cellsOf idxStore r) :
    ∃ k, Worklist.Reach (gh.succ rect) (gh.accept rect) start k ∧
      c ∈ gh.emit idxStore rect k := by
  induction r using Nat.strong_induction_on with
  | _ r ih =>
    by_cases hinside : rect.containsRect (gh.regionBoundaryOf r) = true
    · exact ⟨r, hreach, by rwa [emit, if_pos hinside]⟩
    · rcases (h.mem_cellsOf r hr c).mp hc with hc | ⟨k, hk, hc⟩
      · refine ⟨r, hreach, ?_⟩
        rw [emit, if_neg hinside]
        exact List.mem_filter.mpr ⟨hc, hoverlap⟩
      · obtain ⟨hlt, hk'⟩ := h.children_lt hr hk
        refine ih k hlt hk' (.step hreach ?_ ?_) hc
        · rwa [succ, if_neg hinside]
        · exact GeoRect.overlap_of_containsRect (h.cellsInside k hk' c hc).2 hoverlap

theorem exists_rootChild {c : Nat} (r : Nat) (hr : r < gh.regionSize)
    (hc : c ∈ gh.cellsOf idxStore r) :
    ∃ q ∈ gh.children gh.regionSize, c ∈ gh.cellsOf idxStore q := by
  induction hn : gh.regionSize - r using Nat.strong_induction_on generalizing r with
  | _ n ih =>
    subst hn
    cases hparents : gh.parents r with
    | nil => exact ⟨r, (h.rootChildren r).mpr ⟨hr, hparents⟩, hc⟩
    | cons p ps =>
      have hp : p ∈ gh.parents r := hparents ▸ List.mem_cons_self
      obtain ⟨hlt, hp'⟩ := h.tables.parentsLarger r hr p hp
      refine ih (gh.regionSize - p) (by omega) p hp' ?_ rfl
      exact (h.mem_cellsOf p hp' c).mpr
        (.inr ⟨r, (h.tables.mem_children p hp' r).mpr ⟨hr, hp⟩, hc⟩)

theorem mem_emit_iff {all : List Nat}
    (hall : ∀ r, r ∈ all ↔ Worklist.Reach (gh.succ rect) (gh.accept rect)
      ((gh.children gh.regionSize).filter (gh.accept rect)) r) (c : Nat) :
    c ∈ all.flatMap (gh.emit idxStore rect) ↔ c ∈ gh.overlappingCells rect := by
  rw [List.mem_flatMap, overlappingCells, List.mem_filter, List.mem_range]
  constructor
  · rintro ⟨r, hr, hc⟩
    exact h.emit_sound (h.reach_lt ((hall r).mp hr)) hc
  · rintro ⟨hc, hoverlap⟩
    obtain ⟨r, hr, hcr⟩ := h.covered c hc
    obtain ⟨q, hq, hcq⟩ := h.exists_rootChild r hr hcr
    have hq' := ((h.rootChildren q).mp hq).1
    have haccept : gh.accept rect q = true :=
      GeoRect.overlap_of_containsRect (h.cellsInside q hq' c hcq).2 hoverlap
    obtain ⟨k, hk, hck⟩ := h.exists_emit hoverlap q hq'
      (.start (List.mem_filter.mpr ⟨hq, haccept⟩)) hcq
    exact ⟨k, (hall k).mpr hk, hck⟩

end Consistent

theorem overlappingCells_ascending (gh : StaticGeoHierarchy) (rect : GeoRect) :
    (gh.overlappingCells rect).Pairwise (· < ·) :=
  List.pairwise_lt_range.filter _

/-- The cells that overlap with the rectangle are found, each once and in ascending order. -/
theorem intersectingCells_eq (h : gh.Consistent idxStore) (rect : GeoRect) {fuel : Nat}
    (hfuel : (gh.children gh.regionSize).length + gh.regionSize < fuel) :
    gh.intersectingCells idxStore rect fuel = some (.ok (gh.overlappingCells rect)) := by
  have hchildren : ∀ x ∈ gh.children gh.regionSize, x < gh.regionSize :=
    fun x hx => ((h.rootChildren x).mp hx).1
  set start := (gh.children gh.regionSize).filter (gh.accept rect)
  have hpush : gh.forChildren (gh.pushRootChild rect) gh.regionSize ⟨[], [], []⟩ =
      .ok ⟨start, start, []⟩ := by
    rw [forChildren_eq h.tables _ le_rfl]
    exact h.pushRootChildren_eq hchildren ⟨[], [], []⟩ []
  have hmem : ∀ x ∈ start, x ∈ Finset.range gh.regionSize :=
    fun x hx => Finset.mem_range.mpr (hchildren x (List.mem_of_mem_filter hx))
  have hclosed : ∀ x ∈ Finset.range gh.regionSize, ∀ y ∈ gh.succ rect x,
      y ∈ Finset.range gh.regionSize :=
    fun x hx y hy => Finset.mem_range.mpr (h.succ_lt (Finset.mem_range.mp hx) hy)
  have hcount : start.length + (Finset.range gh.regionSize \ start.toFinset).card < fuel := by
    have hlength : start.length ≤ (gh.children gh.regionSize).length := List.length_filter_le _ _
    have hcard : (Finset.range gh.regionSize \ start.toFinset).card ≤ gh.regionSize :=
      (Finset.card_le_card Finset.sdiff_subset).trans_eq (Finset.card_range _)
    omega
  obtain ⟨all, hrun, hall⟩ := QueueSearch.run_taken (Finset.range gh.regionSize) hclosed
    (QueueSearch.inv_start (gh.succ rect) (gh.accept rect) start) hmem hcount
  obtain ⟨s, hloop, hcells⟩ := h.loop_eq (fun x hx => Finset.mem_range.mp (hmem x hx)) hrun
  have hunique : unique s.intersectingCells.mergeSort = gh.overlappingCells rect := by
    refine (unique_ascending (List.pairwise_mergeSort' (· ≤ ·) _)).eq_of_mem_iff
      (gh.overlappingCells_ascending rect) fun c => ?_
    rw [mem_unique, List.mem_mergeSort, hcells]
    exact h.mem_emit_iff hall c
  rw [intersectingCells, hpush]
  refine (congrArg (Option.map _) hloop).trans ?_
  rw [← hunique]
  rfl

/-- The regions of `GeoHierarchySubGraph.twoPaths` with their boundaries. The cell is exclusive to region
0. -/
def twoPathsTables : StaticGeoHierarchy where
  toGeoHierarchy := GeoHierarchySubGraph.twoPaths
  cellListPtrs := [0, 0, 0, 0, 0]
  exclusiveCellListPtrs := [0, 1, 1, 1, 1]
  regionBoundaries := [⟨0, 1, 0, 1⟩, ⟨0, 2, 0, 2⟩, ⟨0, 1, 0, 3⟩, ⟨0, 3, 0, 3⟩, ⟨0, 4, 0, 4⟩]
  cellBoundaries := [⟨0, 1, 0, 1⟩]

def twoPathsStore : ItemIndexStore where
  indices := [⟨[0], by decide, by decide⟩, ItemIndex.empty]

theorem consistent_twoPathsTables : twoPathsTables.Consistent twoPathsStore where
  tables := GeoHierarchySubGraph.wellFormed_twoPaths.toTables
  regionRows := by decide
  cellRows := by decide
  storeRows := by decide
  rootChildren := by
    intro id
    have hchildren : twoPathsTables.children twoPathsTables.regionSize = [4] := by decide
    have hparents : ∀ id < twoPathsTables.regionSize, twoPathsTables.parents id = [] → id = 4 := by
      decide
    rw [hchildren, List.mem_singleton]
    constructor
    · rintro rfl
      exact ⟨by decide, by decide⟩
    · exact fun h => hparents id h.1 h.2
  childrenInside := by decide
  cellsInside := by decide
  mem_cellsOf := by
    intro r hr c
    have hcells : ∀ r < twoPathsTables.regionSize, twoPathsTables.cellsOf twoPathsStore r = [0] := by
      decide
    have hexclusive : ∀ r < twoPathsTables.regionSize,
        ∀ c ∈ twoPathsTables.exclusiveCellsOf twoPathsStore r, c = 0 := by
      decide
    have hfound : ∀ r < twoPathsTables.regionSize, 0 ∈ twoPathsTables.exclusiveCellsOf twoPathsStore r ∨
        ∃ k ∈ twoPathsTables.children r, 0 ∈ twoPathsTables.cellsOf twoPathsStore k := by
      decide
    have hlt : ∀ r < twoPathsTables.regionSize, ∀ k ∈ twoPathsTables.children r,
        k < twoPathsTables.regionSize := by
      decide
    rw [hcells r hr, List.mem_singleton]
    constructor
    · rintro rfl
      exact hfound r hr
    · rintro (hc | ⟨k, hk, hc⟩)
      · exact hexclusive r hr c hc
      · rwa [hcells k (hlt r hr k hk), List.mem_singleton] at hc
  covered := by decide

theorem intersectingCells_twoPaths :
    (twoPathsTables.children twoPathsTables.regionSize).length + twoPathsTables.regionSize < 7 ∧
      twoPathsTables.intersectingCells twoPathsStore ⟨1, 9, 1, 9⟩ 7 =
        some (.ok (twoPathsTables.overlappingCells ⟨1, 9, 1, 9⟩)) :=
  ⟨by decide, intersectingCells_eq consistent_twoPathsTables ⟨1, 9, 1, 9⟩ (by decide)⟩

example : twoPathsTables.overlappingCells ⟨1, 9, 1, 9⟩ = [0] := by decide

end StaticGeoHierarchy

end Sserialize
