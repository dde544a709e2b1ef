import Sserialize.Spatial.CQRDilator

namespace Sserialize.CQRDilatorWithCache

open CQRDilator
open Function (update update_self update_of_ne update_eq_self update_idem)

variable {tg : TracGraph} {distance : Nat → Nat → ℚ} {threshold workers : Nat} {base : List Nat}
  {diameter : ℚ} {cellId : Nat}

def HasNear (tg : TracGraph) (distance : Nat → Nat → ℚ) (threshold c : Nat) : Prop :=
  ∃ n ∈ tg.neighbors c, distance c n < threshold

def below (distance : Nat → Nat → ℚ) (threshold cellId nId : Nat) : Bool :=
  decide (distance cellId nId < threshold)

theorem entryLt_trans (a b c : CacheEntry) (hab : (!entryLt b a) = true)
    (hbc : (!entryLt c b) = true) : (!entryLt c a) = true := by
  simp only [entryLt, Bool.not_eq_true'] at *
  grind

theorem entryLt_total (a b : CacheEntry) : ((!entryLt b a) || (!entryLt a b)) = true := by
  simp only [entryLt]
  grind

theorem le_of_not_entryLt {a b : CacheEntry} (h : (!entryLt b a) = true) :
    a.distance ≤ b.distance := by
  simp only [entryLt] at h
  grind

structure EntriesOf (tg : TracGraph) (distance : Nat → Nat → ℚ) (threshold cellId : Nat)
    (ce : List CacheEntry) : Prop where
  empty : ¬ HasNear tg distance threshold cellId → ce = []
  self : HasNear tg distance threshold cellId → ⟨cellId, 0⟩ ∈ ce
  sorted : ce.Pairwise fun a b => a.distance ≤ b.distance

theorem entries_spec (threshold : Nat) (htg : tg.Lawful) (hd : IsDistance distance)
    (hcell : cellId < tg.size) :
    ∃ ce, entries tg distance threshold cellId = some ce ∧
      EntriesOf tg distance threshold cellId ce := by
  obtain ⟨s, hs, hdone⟩ := search_done htg hcell (below distance threshold cellId)
  refine ⟨(s.found.map fun nId => ⟨nId, toUint32 (distance cellId nId)⟩).mergeSort
    fun a b => !entryLt b a, ?_, ?_, ?_, ?_⟩
  · rw [entries]
    change (search tg (below distance threshold cellId) cellId >>= _) = _
    rw [hs]
    rfl
  · intro hnear
    have hring : (tg.neighbors cellId).filter (below distance threshold cellId) = [] := by
      rw [List.filter_eq_nil_iff]
      exact fun n hn hbelow => hnear ⟨n, hn, of_decide_eq_true hbelow⟩
    have hfound : s.found = [] := by
      rw [List.eq_nil_iff_forall_not_mem]
      intro c hc
      exact not_reach_of_not_accept hring c ((hdone.mem_found c).mp hc).1
    rw [hfound, List.map_nil, List.mergeSort_nil]
  · rintro ⟨n, hn, hdist⟩
    have hsymm := htg.symm cellId hcell n hn
    have hpos : distance cellId cellId < threshold := by
      rw [hd.self]
      exact lt_of_le_of_lt (hd.nonneg cellId n) hdist
    have hfound : cellId ∈ s.found := by
      refine (hdone.mem_found cellId).mpr ⟨?_, ?_⟩
      · exact .step (.start (List.mem_filter.mpr ⟨hn, decide_eq_true hdist⟩)) hsymm
          (decide_eq_true hpos)
      · exact fun hmem => htg.irrefl cellId hcell (List.mem_of_mem_filter hmem)
    rw [List.mem_mergeSort, List.mem_map]
    refine ⟨cellId, hfound, ?_⟩
    rw [hd.self]
    rfl
  · refine (List.pairwise_mergeSort entryLt_trans entryLt_total _).imp ?_
    exact fun h => le_of_not_entryLt h

def entriesOf (tg : TracGraph) (distance : Nat → Nat → ℚ) (threshold cellId : Nat) :
    List CacheEntry :=
  (entries tg distance threshold cellId).getD []

theorem entriesOf_spec (threshold : Nat) (htg : tg.Lawful) (hd : IsDistance distance) (hcell : cellId < tg.size) :
    EntriesOf tg distance threshold cellId (entriesOf tg distance threshold cellId) := by
  obtain ⟨ce, hce, hspec⟩ := entries_spec threshold htg hd hcell
  rwa [entriesOf, hce]

theorem handle_eq (htg : tg.Lawful) (hd : IsDistance distance) (hcell : cellId < tg.size)
    (c : Cache) : handle tg distance threshold c cellId =
      some (c.insert cellId (entriesOf tg distance threshold cellId)) := by
  obtain ⟨ce, hce, -⟩ := entries_spec threshold htg hd hcell
  rw [handle, entriesOf, hce]
  rfl

def cacheOf (tg : TracGraph) (L : Nat → List CacheEntry) (order : List Nat) : Cache :=
  order.foldl (fun c cellId => c.insert cellId (L cellId)) (Cache.start tg)

variable {L : Nat → List CacheEntry}

variable (order : List Nat)

theorem cacheOf_concat (b : Nat) :
    cacheOf tg L (order ++ [b]) = (cacheOf tg L order).insert b (L b) := by
  rw [cacheOf, List.foldl_append]
  rfl

theorem cache_cacheOf : (cacheOf tg L order).cache = order.flatMap L := by
  induction order using List.reverseRecOn with
  | nil => rfl
  | append_singleton order b ih =>
    rw [cacheOf_concat, Cache.insert, List.flatMap_append, List.flatMap_singleton, ih]

theorem length_id2d : (cacheOf tg L order).id2d.length = tg.size := by
  induction order using List.reverseRecOn with
  | nil => exact List.length_replicate
  | append_singleton order b ih => rw [cacheOf_concat, Cache.insert, List.length_set, ih]

theorem id2d_of_mem {b : Nat} (hb : b < tg.size) (pre : List Nat) {post : List Nat}
    (hpost : b ∉ post) :
    (cacheOf tg L (pre ++ b :: post)).id2d.getD b 0 = (pre.flatMap L).length := by
  induction post using List.reverseRecOn with
  | nil =>
    have hlt : b < (cacheOf tg L pre).id2d.length := by rwa [length_id2d]
    rw [cacheOf_concat, Cache.insert, cache_cacheOf]
    dsimp only
    rw [List.getD_eq_getElem?_getD, List.getElem?_set_self hlt, Option.getD_some]
  | append_singleton post x ih =>
    have hx : x ≠ b := by
      rintro rfl
      exact hpost (List.mem_append_right _ (List.mem_singleton_self x))
    have happend : pre ++ b :: (post ++ [x]) = (pre ++ b :: post) ++ [x] := by simp
    rw [happend, cacheOf_concat, Cache.insert]
    dsimp only
    rw [← ih fun hmem => hpost (List.mem_append_left _ hmem)]
    simp only [List.getD_eq_getElem?_getD, List.getElem?_set_ne hx]

theorem take_drop_middle {α : Type} (pre mid post : List α) :
    ((pre ++ (mid ++ post)).drop pre.length).take ((pre ++ mid).length - pre.length) = mid := by
  rw [List.drop_left, List.length_append, Nat.add_sub_cancel_left, List.take_left]

theorem range_of_next {b : Nat} (hb : b + 1 < tg.size) {pre mid post : List Nat}
    (hnodup : (pre ++ b :: (mid ++ (b + 1) :: post)).Nodup) :
    (cacheOf tg L (pre ++ b :: (mid ++ (b + 1) :: post))).range b = (b :: mid).flatMap L := by
  have hnodup' : ((pre ++ b :: mid) ++ (b + 1) :: post).Nodup := by
    simpa using hnodup
  have hb' : b ∉ mid ++ (b + 1) :: post :=
    (List.nodup_cons.mp (List.nodup_append.mp hnodup).2.1).1
  have hnext : b + 1 ∉ post := (List.nodup_cons.mp (List.nodup_append.mp hnodup').2.1).1
  have hi := id2d_of_mem (L := L) (by omega : b < tg.size) pre hb'
  have hs := id2d_of_mem (L := L) hb (pre ++ b :: mid) hnext
  have happend : (pre ++ b :: mid) ++ (b + 1) :: post = pre ++ b :: (mid ++ (b + 1) :: post) := by
    simp
  rw [happend] at hs
  have hsplit : pre ++ b :: (mid ++ (b + 1) :: post) = pre ++ ((b :: mid) ++ (b + 1) :: post) := rfl
  rw [Cache.range, hi, hs, length_id2d, if_neg (by omega), cache_cacheOf, hsplit]
  simp only [List.flatMap_append]
  exact take_drop_middle _ _ _

theorem range_of_last {b : Nat} (hb : b + 1 = tg.size) {pre mid : List Nat}
    (hmid : b ∉ mid) : (cacheOf tg L (pre ++ b :: mid)).range b = (b :: mid).flatMap L := by
  have hi := id2d_of_mem (L := L) (by omega : b < tg.size) pre hmid
  rw [Cache.range, hi, length_id2d, if_pos (by omega), cache_cacheOf, List.flatMap_append,
    List.drop_left, List.length_append, Nat.add_sub_cancel_left, List.take_length]

theorem steps_range (threshold : Nat) (htg : tg.Lawful) (hd : IsDistance distance) {w : Nat}
    (hw : w < workers) (busy : Nat → Option Nat) (hfree : busy w = none) {i j : Nat}
    (hij : i + j ≤ tg.size) (order : List Nat) :
    Relation.ReflTransGen (Step tg distance threshold workers)
      ⟨i, busy, cacheOf tg (entriesOf tg distance threshold) order⟩
      ⟨i + j, busy, cacheOf tg (entriesOf tg distance threshold) (order ++ List.range' i j)⟩ := by
  induction j with
  | zero =>
    rw [List.range'_zero, List.append_nil]
    exact .refl
  | succ j ih =>
    have hcell : i + j < tg.size := by omega
    have htake : Step tg distance threshold workers
        ⟨i + j, busy, cacheOf tg (entriesOf tg distance threshold) (order ++ List.range' i j)⟩
        ⟨i + j + 1, update busy w (some (i + j)),
          cacheOf tg (entriesOf tg distance threshold) (order ++ List.range' i j)⟩ :=
      .take hw hfree hcell
    have hhandled : Step tg distance threshold workers
        ⟨i + j + 1, update busy w (some (i + j)),
          cacheOf tg (entriesOf tg distance threshold) (order ++ List.range' i j)⟩ _ :=
      .handled hw (update_self w _ busy) (handle_eq htg hd hcell _)
    dsimp only at hhandled
    rw [update_idem, ← hfree, update_eq_self, ← cacheOf_concat,
      List.append_assoc] at hhandled
    rw [List.range'_concat, Nat.one_mul]
    exact ((ih (by omega)).tail htake).tail hhandled

theorem populates_range (threshold : Nat) (htg : tg.Lawful) (hd : IsDistance distance) (hworkers : 0 < workers) :
    Populates tg distance threshold workers
      (cacheOf tg (entriesOf tg distance threshold) (List.range tg.size)) := by
  rw [Populates]
  split
  · have hfold : ∀ (cells : List Nat) (c : Cache), (∀ b ∈ cells, b < tg.size) →
        cells.foldlM (handle tg distance threshold) c =
          some (cells.foldl
            (fun c cellId => c.insert cellId (entriesOf tg distance threshold cellId)) c) := by
      intro cells
      induction cells with
      | nil => exact fun c _ => rfl
      | cons b cells ih =>
        intro c hcells
        rw [List.foldlM_cons, handle_eq htg hd (hcells b List.mem_cons_self)]
        exact ih _ fun b' hb' => hcells b' (List.mem_cons_of_mem b hb')
    exact hfold _ _ fun b hb => List.mem_range.mp hb
  · have hsteps := steps_range threshold htg hd hworkers (fun _ => none) rfl
      (by omega : 0 + tg.size ≤ tg.size) []
    rw [Nat.zero_add, List.nil_append, ← List.range_eq_range'] at hsteps
    exact ⟨fun _ => none, fun _ _ => rfl, hsteps⟩

/-- The order in which the cells are handled when the cell `h` is held back until all cells below
`m` are handled. -/
def heldOrder (size h m : Nat) : List Nat :=
  List.range' 0 h ++ List.range' (h + 1) (m - (h + 1)) ++ [h] ++ List.range' m (size - m)

theorem populates_held (threshold : Nat) (htg : tg.Lawful) (hd : IsDistance distance) (hworkers : 2 ≤ workers)
    {h m : Nat} (hhm : h < m) (hm : m ≤ tg.size) :
    Populates tg distance threshold workers
      (cacheOf tg (entriesOf tg distance threshold) (heldOrder tg.size h m)) := by
  rw [Populates, if_neg (by omega)]
  refine ⟨fun _ => none, fun _ _ => rfl, ?_⟩
  have hfirst : 0 < workers := by omega
  have hsecond : 1 < workers := by omega
  have hcell : h < tg.size := by omega
  have hbusy : update (fun _ => none) 0 (some h) 1 = (none : Option Nat) := rfl
  have h₁ := steps_range threshold htg hd hfirst (fun _ => none) rfl
    (by omega : 0 + h ≤ tg.size) []
  rw [Nat.zero_add, List.nil_append] at h₁
  have h₂ : Step tg distance threshold workers
      ⟨h, fun _ => none, cacheOf tg (entriesOf tg distance threshold) (List.range' 0 h)⟩
      ⟨h + 1, update (fun _ => none) 0 (some h),
        cacheOf tg (entriesOf tg distance threshold) (List.range' 0 h)⟩ :=
    .take hfirst rfl hcell
  have h₃ := steps_range threshold htg hd hsecond _ hbusy
    (by omega : h + 1 + (m - (h + 1)) ≤ tg.size) (List.range' 0 h)
  rw [(by omega : h + 1 + (m - (h + 1)) = m)] at h₃
  have h₄ : Step tg distance threshold workers
      ⟨m, update (fun _ => none) 0 (some h),
        cacheOf tg (entriesOf tg distance threshold)
          (List.range' 0 h ++ List.range' (h + 1) (m - (h + 1)))⟩ _ :=
    .handled hfirst rfl (handle_eq htg hd hcell _)
  have hnone : update (fun _ => none) 0 none = (fun _ => none : Nat → Option Nat) :=
    update_eq_self 0 fun _ => none
  dsimp only at h₄
  rw [update_idem, hnone, ← cacheOf_concat] at h₄
  have h₅ := steps_range threshold htg hd hfirst (fun _ => none) rfl
    (by omega : m + (tg.size - m) ≤ tg.size)
    (List.range' 0 h ++ List.range' (h + 1) (m - (h + 1)) ++ [h])
  rw [(by omega : m + (tg.size - m) = tg.size)] at h₅
  exact (((h₁.tail h₂).trans h₃).tail h₄).trans h₅

theorem cache_nil (htg : tg.Lawful) (hd : IsDistance distance)
    (hnear : ∀ c < tg.size, ¬ HasNear tg distance threshold c) {cache : Cache}
    (hcache : Populates tg distance threshold workers cache) : cache.cache = [] := by
  have hhandle : ∀ {c c' : Cache} {b : Nat}, b < tg.size → c.cache = [] →
      handle tg distance threshold c b = some c' → c'.cache = [] := by
    intro c c' b hb hc hh
    rw [handle_eq htg hd hb] at hh
    obtain rfl := Option.some.inj hh
    rw [Cache.insert, (entriesOf_spec threshold htg hd hb).empty (hnear b hb), hc, List.append_nil]
  rw [Populates] at hcache
  split at hcache
  · have hfold : ∀ (cells : List Nat) (c : Cache), (∀ b ∈ cells, b < tg.size) → c.cache = [] →
        cells.foldlM (handle tg distance threshold) c = some cache → cache.cache = [] := by
      intro cells
      induction cells with
      | nil =>
        intro c _ hc hfold
        obtain rfl := Option.some.inj hfold
        exact hc
      | cons b cells ih =>
        intro c hcells hc hfold
        have hb := hcells b List.mem_cons_self
        have heq : handle tg distance threshold c b = _ := handle_eq htg hd hb c
        rw [List.foldlM_cons, heq] at hfold
        exact ih _ (fun b' hb' => hcells b' (List.mem_cons_of_mem b hb')) (hhandle hb hc heq) hfold
    exact hfold _ _ (fun b hb => List.mem_range.mp hb) rfl hcache
  · obtain ⟨busy, -, hrun⟩ := hcache
    have hinv : ∀ p, Relation.ReflTransGen (Step tg distance threshold workers)
        ⟨0, fun _ => none, Cache.start tg⟩ p →
        p.cache.cache = [] ∧ ∀ w b, p.busy w = some b → b < tg.size := by
      intro p hp
      induction hp with
      | refl => exact ⟨rfl, nofun⟩
      | tail _ hstep ih =>
        obtain ⟨hempty, hlt⟩ := ih
        cases hstep with
        | @take w hw hfree hi =>
          refine ⟨hempty, fun w' b hb => ?_⟩
          dsimp only at hb
          by_cases hw' : w' = w
          · rw [hw', update_self] at hb
            obtain rfl := Option.some.inj hb
            exact hi
          · rw [update_of_ne hw'] at hb
            exact hlt w' b hb
        | @handled w cellId cache' hw hbusy hc =>
          refine ⟨hhandle (hlt w cellId hbusy) hempty hc, fun w' b hb => ?_⟩
          dsimp only at hb
          by_cases hw' : w' = w
          · rw [hw', update_self] at hb
            cases hb
          · rw [update_of_ne hw'] at hb
            exact hlt w' b hb
    exact (hinv _ hrun).1

end Sserialize.CQRDilatorWithCache
