import Mathlib.Data.Rat.Floor
import Sserialize.Library.Worklist

/-!
# `CQRDilator` and `CQRDilatorWithCache`

The cells around a set of base cells. The dilator with a cache first stores the cells around each
cell up to a threshold. Distances are rational numbers: they are only compared, and cut down to
integers when they are put into the cache. Cells are what `uint32_t` values are in the source.
-/

namespace Sserialize

structure TracGraph where
  size : Nat
  neighbors : Nat → List Nat

namespace CQRDilator

/-- The search that both dilators make around a cell: the accepted neighbours are the start. The
fuel is enough, see `search_done`. -/
def search (tg : TracGraph) (accept : Nat → Bool) (cellId : Nat) : Option (Worklist.State Nat) :=
  let ring := (tg.neighbors cellId).filter accept
  Worklist.run tg.neighbors accept (ring.length + tg.size + 1) ⟨ring, ring, []⟩

/-- `isNotBaseCell(cid)`. The set bits of `baseCells` are relative to the first base cell. -/
def isNotBaseCell (base : List Nat) (cid : Nat) : Bool :=
  let lowestCellId := base.headD 0
  cid < lowestCellId || !(base.map (· - lowestCellId)).contains (cid - lowestCellId)

/-- A cell that is put into `dilated` unless its bit in `dilatedMarks` is set already. -/
def mark (dilated : List Nat) (cellId : Nat) : List Nat :=
  if dilated.contains cellId then dilated else dilated ++ [cellId]

def dilateCell (tg : TracGraph) (distance : Nat → Nat → ℚ) (base : List Nat) (diameter : ℚ)
    (dilated : List Nat) (cellId : Nat) : Option (List Nat) := do
  let accept := fun nId => isNotBaseCell base nId && decide (distance cellId nId < diameter)
  let s ← search tg accept cellId
  return s.relaxed.foldl mark dilated

def dilateWith (dilator : List Nat → Nat → Option (List Nat)) (base : List Nat) :
    Option (List Nat) := do
  let dilated ← base.foldlM dilator []
  return dilated.mergeSort (· ≤ ·)

def dilate (tg : TracGraph) (distance : Nat → Nat → ℚ) (base : List Nat) (diameter : ℚ) :
    Option (List Nat) :=
  dilateWith (dilateCell tg distance base diameter) base

end CQRDilator

namespace CQRDilatorWithCache

open CQRDilator

structure CacheEntry where
  cellId : Nat
  distance : Nat
  deriving Repr, DecidableEq

def entryLt (a b : CacheEntry) : Bool :=
  if a.distance = b.distance then a.cellId < b.cellId else a.distance < b.distance

/-- Conversion of a distance to `uint32_t`. -/
def toUint32 (x : ℚ) : Nat := x.floor.toNat

/-- The entries that `handle(cellId)` puts into the cache. -/
def entries (tg : TracGraph) (distance : Nat → Nat → ℚ) (threshold cellId : Nat) :
    Option (List CacheEntry) := do
  let s ← search tg (fun nId => decide (distance cellId nId < threshold)) cellId
  let ce := s.found.map fun nId => ⟨nId, toUint32 (distance cellId nId)⟩
  return ce.mergeSort fun a b => !entryLt b a

/-- `m_id2d` and `m_cache`. -/
structure Cache where
  id2d : List Nat
  cache : List CacheEntry
  deriving Repr, DecidableEq

def Cache.start (tg : TracGraph) : Cache := ⟨List.replicate tg.size 0, []⟩

/-- What `handle(cellId)` does to the cache, under its lock. -/
def Cache.insert (c : Cache) (cellId : Nat) (ce : List CacheEntry) : Cache :=
  ⟨c.id2d.set cellId c.cache.length, c.cache ++ ce⟩

def handle (tg : TracGraph) (distance : Nat → Nat → ℚ) (threshold : Nat) (c : Cache)
    (cellId : Nat) : Option Cache := do
  let ce ← entries tg distance threshold cellId
  return c.insert cellId ce

/-- The workers of `populateCache`: the next cell, the cell that each worker is at, the cache. -/
structure Pool where
  i : Nat
  busy : Nat → Option Nat
  cache : Cache

/-- A step of one of the workers. -/
inductive Step (tg : TracGraph) (distance : Nat → Nat → ℚ) (threshold workers : Nat) :
    Pool → Pool → Prop where
  | take {p : Pool} {w : Nat} (hw : w < workers) (hfree : p.busy w = none) (hi : p.i < tg.size) :
      Step tg distance threshold workers p
        ⟨p.i + 1, Function.update p.busy w (some p.i), p.cache⟩
  | handled {p : Pool} {w cellId : Nat} {cache : Cache} (hw : w < workers)
      (hbusy : p.busy w = some cellId)
      (hcache : handle tg distance threshold p.cache cellId = some cache) :
      Step tg distance threshold workers p ⟨p.i, Function.update p.busy w none, cache⟩

/-- The cache after `populateCache` with this number of workers. -/
def Populates (tg : TracGraph) (distance : Nat → Nat → ℚ) (threshold workers : Nat)
    (cache : Cache) : Prop :=
  if workers = 1 then
    (List.range tg.size).foldlM (handle tg distance threshold) (Cache.start tg) = some cache
  else
    ∃ busy, (∀ w < workers, busy w = none) ∧
      Relation.ReflTransGen (Step tg distance threshold workers)
        ⟨0, fun _ => none, Cache.start tg⟩ ⟨tg.size, busy, cache⟩

def workerCount (threadCount hardwareConcurrency : Nat) : Nat :=
  if threadCount = 0 then hardwareConcurrency else threadCount

def Cache.range (c : Cache) (cellId : Nat) : List CacheEntry :=
  let i := c.id2d.getD cellId 0
  let s := if cellId + 1 ≥ c.id2d.length then c.cache.length else c.id2d.getD (cellId + 1) 0
  (c.cache.drop i).take (s - i)

/-- `CQRDilatorWithCache::SingleCellDilator::dilate`. No function sets `m_threshold`. -/
def dilateCell (tg : TracGraph) (distance : Nat → Nat → ℚ) (m_threshold : Nat) (c : Cache)
    (base : List Nat) (diameter : ℚ) (dilated : List Nat) (cellId : Nat) : Option (List Nat) :=
  if cellId ≥ c.id2d.length ∨ (m_threshold : ℚ) < diameter then
    CQRDilator.dilateCell tg distance base diameter dilated cellId
  else
    let ces := (c.range cellId).takeWhile fun ce => decide ((ce.distance : ℚ) ≤ diameter)
    some ((ces.map CacheEntry.cellId).foldl mark dilated)

/-- `dilate` of a dilator with a cache. -/
def dilate (tg : TracGraph) (distance : Nat → Nat → ℚ) (m_threshold : Nat) (c : Cache)
    (base : List Nat) (diameter : ℚ) : Option (List Nat) :=
  dilateWith (dilateCell tg distance m_threshold c base diameter) base

end CQRDilatorWithCache

end Sserialize

/-!
## Correctness of `CQRDilator`

The search around a cell finds what can be reached over accepted cells, so that `CQRDilator` dilates
to the cells that are reachable from a base cell through non-base cells near it.
-/

namespace Sserialize

/-- A cell graph: neighbours are cells, and being neighbours is symmetric and irreflexive. What
`dilate` does rests on the first alone; symmetry and irreflexivity are for the cached distances
(`entries_spec`) and for the comparison of the two (`agrees_iff`). -/
structure TracGraph.Lawful (tg : TracGraph) : Prop where
  lt_size : ∀ c < tg.size, ∀ n ∈ tg.neighbors c, n < tg.size
  irrefl : ∀ c < tg.size, c ∉ tg.neighbors c
  symm : ∀ c < tg.size, ∀ n ∈ tg.neighbors c, c ∈ tg.neighbors n

namespace CQRDilator

structure IsDistance (distance : Nat → Nat → ℚ) : Prop where
  nonneg : ∀ a b, 0 ≤ distance a b
  self : ∀ a, distance a a = 0
  symm : ∀ a b, distance a b = distance b a

/-- The cells that are reachable from `b` through non-base cells at distance less than the
diameter. -/
inductive Reachable (tg : TracGraph) (distance : Nat → Nat → ℚ) (base : List Nat) (diameter : ℚ)
    (b : Nat) : Nat → Prop where
  | neighbor {n : Nat} (hn : n ∈ tg.neighbors b) (hbase : n ∉ base)
      (hdist : distance b n < diameter) : Reachable tg distance base diameter b n
  | step {m n : Nat} (hm : Reachable tg distance base diameter b m) (hn : n ∈ tg.neighbors m)
      (hbase : n ∉ base) (hdist : distance b n < diameter) :
      Reachable tg distance base diameter b n

def Dilation (tg : TracGraph) (distance : Nat → Nat → ℚ) (base : List Nat) (diameter : ℚ)
    (c : Nat) : Prop :=
  ∃ b ∈ base, Reachable tg distance base diameter b c

variable {tg : TracGraph} {distance : Nat → Nat → ℚ} {base : List Nat} {diameter : ℚ}
  {accept : Nat → Bool} {cellId : Nat}

theorem Reachable.not_mem {b c : Nat} (h : Reachable tg distance base diameter b c) : c ∉ base := by
  cases h with
  | neighbor hn hbase hdist => exact hbase
  | step hm hn hbase hdist => exact hbase

/-! ## The search -/

theorem search_done (htg : tg.Lawful) (hcell : cellId < tg.size) (accept : Nat → Bool) :
    ∃ s, search tg accept cellId = some s ∧
      Worklist.Done tg.neighbors accept ((tg.neighbors cellId).filter accept) s := by
  have hclosed : ∀ x ∈ Finset.range tg.size, ∀ y ∈ tg.neighbors x, y ∈ Finset.range tg.size := by
    intro x hx y hy
    exact Finset.mem_range.mpr (htg.lt_size x (Finset.mem_range.mp hx) y hy)
  refine Worklist.run_done (Finset.range tg.size) hclosed (Worklist.inv_start _ _ _) ?_ ?_
  · intro x hx
    exact Finset.mem_range.mpr (htg.lt_size cellId hcell x (List.mem_of_mem_filter hx))
  · have hcard : (Finset.range tg.size \
        ((tg.neighbors cellId).filter accept).toFinset).card ≤ tg.size := by
      calc (Finset.range tg.size \ ((tg.neighbors cellId).filter accept).toFinset).card
          ≤ (Finset.range tg.size).card := Finset.card_le_card Finset.sdiff_subset
        _ = tg.size := Finset.card_range tg.size
    dsimp only
    omega

theorem not_reach_of_not_accept {ring : List Nat} (hring : ring = []) (c : Nat) :
    ¬ Worklist.Reach tg.neighbors accept ring c := by
  intro h
  induction h with
  | start hx =>
    rw [hring] at hx
    exact absurd hx List.not_mem_nil
  | step _ _ _ ih => exact ih

/-! ## Marks -/

theorem mem_mark {dilated : List Nat} {x c : Nat} : c ∈ mark dilated x ↔ c ∈ dilated ∨ c = x := by
  rw [mark]
  by_cases hx : dilated.contains x = true
  · rw [if_pos hx]
    constructor
    · exact .inl
    · rintro (hc | rfl)
      · exact hc
      · exact List.contains_iff_mem.mp hx
  · rw [if_neg hx, List.mem_append, List.mem_singleton]

theorem mem_foldl_mark {xs dilated : List Nat} {c : Nat} :
    c ∈ xs.foldl mark dilated ↔ c ∈ dilated ∨ c ∈ xs := by
  induction xs generalizing dilated with
  | nil => simp
  | cons x xs ih => rw [List.foldl_cons, ih, mem_mark, List.mem_cons, or_assoc]

/-! ## Base cells -/

theorem isNotBaseCell_iff (hsorted : base.Pairwise (· < ·)) (cid : Nat) :
    isNotBaseCell base cid = true ↔ cid ∉ base := by
  cases base with
  | nil => simp [isNotBaseCell]
  | cons b base =>
    have hle : ∀ x ∈ b :: base, b ≤ x := by
      intro x hx
      rcases List.mem_cons.mp hx with rfl | hx
      · exact Nat.le_refl x
      · exact Nat.le_of_lt ((List.pairwise_cons.mp hsorted).1 x hx)
    have hbit : cid - b ∈ (b :: base).map (· - b) ∧ b ≤ cid ↔ cid ∈ b :: base := by
      constructor
      · rintro ⟨hmem, hcid⟩
        obtain ⟨x, hx, heq⟩ := List.mem_map.mp hmem
        have hxle := hle x hx
        have hxeq : x = cid := by omega
        exact hxeq ▸ hx
      · intro hmem
        exact ⟨List.mem_map.mpr ⟨cid, hmem, rfl⟩, hle cid hmem⟩
    rw [← hbit, isNotBaseCell, List.headD_cons]
    simp only [Bool.or_eq_true, decide_eq_true_eq, Bool.not_eq_true', List.contains_eq_mem,
      decide_eq_false_iff_not]
    constructor
    · rintro (hlt | hnot) ⟨hmem, hcid⟩
      · omega
      · exact hnot hmem
    · intro hnot
      by_cases hcid : cid < b
      · exact .inl hcid
      · exact .inr fun hmem => hnot ⟨hmem, by omega⟩

def near (distance : Nat → Nat → ℚ) (base : List Nat) (diameter : ℚ) (cellId nId : Nat) : Bool :=
  isNotBaseCell base nId && decide (distance cellId nId < diameter)

theorem near_iff (hsorted : base.Pairwise (· < ·)) (nId : Nat) :
    near distance base diameter cellId nId = true ↔
      nId ∉ base ∧ distance cellId nId < diameter := by
  rw [near, Bool.and_eq_true, isNotBaseCell_iff hsorted, decide_eq_true_eq]

theorem reach_iff (hsorted : base.Pairwise (· < ·)) (c : Nat) :
    Worklist.Reach tg.neighbors (near distance base diameter cellId)
      ((tg.neighbors cellId).filter (near distance base diameter cellId)) c ↔
      Reachable tg distance base diameter cellId c := by
  constructor
  · intro h
    induction h with
    | start hx =>
      obtain ⟨hmem, hnear⟩ := List.mem_filter.mp hx
      obtain ⟨hbase, hdist⟩ := (near_iff hsorted _).mp hnear
      exact .neighbor hmem hbase hdist
    | step _ hy haccept ih =>
      obtain ⟨hbase, hdist⟩ := (near_iff hsorted _).mp haccept
      exact .step ih hy hbase hdist
  · intro h
    induction h with
    | neighbor hn hbase hdist =>
      exact .start (List.mem_filter.mpr ⟨hn, (near_iff hsorted _).mpr ⟨hbase, hdist⟩⟩)
    | step _ hn hbase hdist ih => exact .step ih hn ((near_iff hsorted _).mpr ⟨hbase, hdist⟩)

/-! ## Dilation -/

theorem dilateCell_spec (htg : tg.Lawful) (hsorted : base.Pairwise (· < ·))
    (hcell : cellId < tg.size) (dilated : List Nat) :
    ∃ r, dilateCell tg distance base diameter dilated cellId = some r ∧
      ∀ c, c ∈ r ↔ c ∈ dilated ∨ Reachable tg distance base diameter cellId c := by
  obtain ⟨s, hs, hdone⟩ := search_done htg hcell (near distance base diameter cellId)
  refine ⟨s.relaxed.foldl mark dilated, ?_, fun c => ?_⟩
  · rw [dilateCell]
    change (search tg (near distance base diameter cellId) cellId >>= _) = _
    rw [hs]
    rfl
  · rw [mem_foldl_mark, hdone.mem_relaxed, reach_iff hsorted]

variable {dilator : List Nat → Nat → Option (List Nat)}

theorem foldlM_spec {P : Nat → Nat → Prop} {cells : List Nat}
    (h : ∀ b ∈ cells, ∀ dilated, ∃ r, dilator dilated b = some r ∧
      ∀ c, c ∈ r ↔ c ∈ dilated ∨ P b c)
    (dilated : List Nat) :
    ∃ r, cells.foldlM dilator dilated = some r ∧
      ∀ c, c ∈ r ↔ c ∈ dilated ∨ ∃ b ∈ cells, P b c := by
  induction cells generalizing dilated with
  | nil => exact ⟨dilated, rfl, fun c => by simp⟩
  | cons b cells ih =>
    obtain ⟨r, hr, hmem⟩ := h b List.mem_cons_self dilated
    obtain ⟨r', hr', hmem'⟩ := ih (fun b' hb' => h b' (List.mem_cons_of_mem b hb')) r
    refine ⟨r', ?_, fun c => ?_⟩
    · rw [List.foldlM_cons, hr]
      exact hr'
    · rw [hmem', hmem, or_assoc]
      simp only [List.mem_cons, exists_eq_or_imp]

theorem dilateWith_spec {P : Nat → Nat → Prop}
    (h : ∀ b ∈ base, ∀ dilated, ∃ r, dilator dilated b = some r ∧
      ∀ c, c ∈ r ↔ c ∈ dilated ∨ P b c) :
    ∃ r, dilateWith dilator base = some r ∧ ∀ c, c ∈ r ↔ ∃ b ∈ base, P b c := by
  obtain ⟨r, hr, hmem⟩ := foldlM_spec h []
  refine ⟨r.mergeSort (· ≤ ·), ?_, fun c => ?_⟩
  · rw [dilateWith, hr]
    rfl
  · rw [List.mem_mergeSort, hmem]
    simp

theorem dilate_spec (distance : Nat → Nat → ℚ) (diameter : ℚ) (htg : tg.Lawful)
    (hsorted : base.Pairwise (· < ·))
    (hbase : ∀ b ∈ base, b < tg.size) :
    ∃ r, dilate tg distance base diameter = some r ∧
      ∀ c, c ∈ r ↔ Dilation tg distance base diameter c :=
  dilateWith_spec fun b hb dilated => dilateCell_spec htg hsorted (hbase b hb) dilated

end CQRDilator

end Sserialize
