import Sserialize.Spatial.CQRDilatorCache

namespace Sserialize.CQRDilatorWithCache

open CQRDilator

variable {tg : TracGraph} {distance : Nat → Nat → ℚ} {threshold workers m_threshold : Nat}
  {base : List Nat} {diameter : ℚ} {cellId b : Nat} {cache : Cache}

/-- However the cache was populated, and whatever value `m_threshold` has, both dilators dilate to
the cells that are reachable from a base cell. -/
def Agrees (tg : TracGraph) (distance : Nat → Nat → ℚ) (threshold workers : Nat)
    (base : List Nat) (diameter : ℚ) : Prop :=
  ∀ cache, Populates tg distance threshold workers cache → ∀ m_threshold < 2 ^ 32,
    ∃ r r', CQRDilator.dilate tg distance base diameter = some r ∧
      dilate tg distance m_threshold cache base diameter = some r' ∧
      ∀ c, (c ∈ r' ↔ c ∈ r) ∧ (c ∈ r ↔ Dilation tg distance base diameter c)

theorem not_reachable (hnear : ∀ n ∈ tg.neighbors b, ¬ distance b n < diameter) (c : Nat) :
    ¬ Reachable tg distance base diameter b c := by
  intro h
  induction h with
  | neighbor hn _ hdist => exact hnear _ hn hdist
  | step _ _ _ _ ih => exact ih

def readEntries (c : Cache) (diameter : ℚ) (cellId : Nat) : List CacheEntry :=
  (c.range cellId).takeWhile fun ce => decide ((ce.distance : ℚ) ≤ diameter)

theorem agrees_of_quiet (htg : tg.Lawful) (hsorted : base.Pairwise (· < ·))
    (hbase : ∀ b ∈ base, b < tg.size)
    (hquiet : ∀ b ∈ base, ∀ n ∈ tg.neighbors b, ¬ distance b n < diameter)
    (hread : ∀ cache, Populates tg distance threshold workers cache → ∀ b ∈ base,
      readEntries cache diameter b = []) : Agrees tg distance threshold workers base diameter := by
  intro cache hcache m_threshold _
  obtain ⟨r, hr, hmem⟩ := dilate_spec distance diameter htg hsorted hbase
  have hcell : ∀ b ∈ base, ∀ dilated,
      ∃ r, dilateCell tg distance m_threshold cache base diameter dilated b = some r ∧
        ∀ c, c ∈ r ↔ c ∈ dilated ∨ Reachable tg distance base diameter b c := by
    intro b hb dilated
    rw [dilateCell]
    split
    · exact dilateCell_spec htg hsorted (hbase b hb) dilated
    · refine ⟨dilated, ?_, fun c => ?_⟩
      · change some (((readEntries cache diameter b).map CacheEntry.cellId).foldl mark dilated) = _
        rw [hread cache hcache b hb]
        rfl
      · exact ⟨.inl, fun h => h.resolve_right (not_reachable (hquiet b hb) c)⟩
  obtain ⟨r', hr', hmem'⟩ := dilateWith_spec hcell
  exact ⟨r, r', hr, hr', fun c => ⟨(hmem' c).trans (hmem c).symm, hmem c⟩⟩

theorem readEntries_of_neg (hdiameter : diameter < 0) (c : Cache) (b : Nat) :
    readEntries c diameter b = [] := by
  rw [readEntries]
  cases hrange : c.range b with
  | nil => rfl
  | cons e rest =>
    have hnonneg : (0 : ℚ) ≤ (e.distance : ℚ) := Nat.cast_nonneg _
    have hnot : ¬ ((e.distance : ℚ) ≤ diameter) := not_le.mpr (lt_of_lt_of_le hdiameter hnonneg)
    exact List.takeWhile_cons_of_neg (by rwa [decide_eq_true_eq])

theorem readEntries_of_nil {c : Cache} (hrange : c.range b = []) :
    readEntries c diameter b = [] := by
  rw [readEntries, hrange]
  rfl

theorem range_of_cache_nil (hcache : cache.cache = []) (b : Nat) : cache.range b = [] := by
  rw [Cache.range, hcache, List.drop_nil, List.take_nil]

theorem range_split {size b : Nat} (hb : b < size) : List.range size =
    List.range b ++ b :: List.range' (b + 1) (size - (b + 1)) := by
  have hsize : size = b + (1 + (size - (b + 1))) := by omega
  rw [List.range_eq_range', List.range_eq_range']
  conv_lhs => rw [hsize]
  rw [← List.range'_append_1, ← List.range'_append_1, Nat.zero_add]
  rfl

theorem range_inOrder {L : Nat → List CacheEntry} (hb : b < tg.size) :
    (cacheOf tg L (List.range tg.size)).range b = L b := by
  have hnodup := List.nodup_range (n := tg.size)
  rw [range_split hb] at hnodup ⊢
  by_cases hlast : b + 1 = tg.size
  · have hnil : tg.size - (b + 1) = 0 := by omega
    rw [hnil, List.range'_zero, range_of_last hlast List.not_mem_nil, List.flatMap_singleton]
  · obtain ⟨k, hk⟩ : ∃ k, tg.size - (b + 1) = k + 1 := ⟨tg.size - (b + 1) - 1, by omega⟩
    rw [hk, List.range'_succ] at hnodup ⊢
    have hnext : (cacheOf tg L (List.range b ++ b :: ([] ++ (b + 1) ::
        List.range' (b + 1 + 1) k))).range b = [b].flatMap L :=
      range_of_next (by omega) hnodup
    exact hnext.trans (List.flatMap_singleton L b)

theorem mem_takeWhile {ces : List CacheEntry} {e : CacheEntry}
    (hsorted : ces.Pairwise fun a b => a.distance ≤ b.distance) (he : e ∈ ces)
    (hle : (e.distance : ℚ) ≤ diameter) :
    e ∈ ces.takeWhile fun ce => decide ((ce.distance : ℚ) ≤ diameter) := by
  induction ces with
  | nil => exact absurd he List.not_mem_nil
  | cons x ces ih =>
    obtain ⟨hx, hsorted'⟩ := List.pairwise_cons.mp hsorted
    rcases List.mem_cons.mp he with rfl | he
    · rw [List.takeWhile_cons_of_pos (by rwa [decide_eq_true_eq])]
      exact List.mem_cons_self
    · have hxle : (x.distance : ℚ) ≤ diameter := le_trans (Nat.cast_le.mpr (hx e he)) hle
      rw [List.takeWhile_cons_of_pos (by rwa [decide_eq_true_eq])]
      exact List.mem_cons_of_mem x (ih hsorted' he)

theorem mem_dilate (hbase : ∀ b ∈ base, b < tg.size) (hlen : cache.id2d.length = tg.size)
    (hthreshold : diameter ≤ m_threshold) (hb : b ∈ base) {r : List Nat}
    (hr : dilate tg distance m_threshold cache base diameter = some r) {e : CacheEntry}
    (he : e ∈ readEntries cache diameter b) : e.cellId ∈ r := by
  have hcell : ∀ b ∈ base, ∀ dilated,
      ∃ r, dilateCell tg distance m_threshold cache base diameter dilated b = some r ∧
        ∀ c, c ∈ r ↔ c ∈ dilated ∨ c ∈ (readEntries cache diameter b).map CacheEntry.cellId := by
    intro b hb dilated
    have hnot : ¬ (b ≥ cache.id2d.length ∨ (m_threshold : ℚ) < diameter) := by
      rw [not_or]
      exact ⟨by have hlt := hbase b hb; omega, not_lt.mpr hthreshold⟩
    rw [dilateCell, if_neg hnot]
    exact ⟨_, rfl, fun c => mem_foldl_mark⟩
  obtain ⟨r', hr', hmem⟩ := dilateWith_spec hcell
  obtain rfl := Option.some.inj (hr'.symm.trans hr)
  exact (hmem _).mpr ⟨b, hb, List.mem_map.mpr ⟨e, he, rfl⟩⟩

theorem exists_head (htg : tg.Lawful) (hd : IsDistance distance) {cells : List Nat}
    (hcells : ∀ c ∈ cells, c < tg.size) {y : Nat} (hy : y ∈ cells)
    (hnear : HasNear tg distance threshold y) :
    ∃ e rest, cells.flatMap (entriesOf tg distance threshold) = e :: rest ∧ e.distance = 0 := by
  induction cells with
  | nil => exact absurd hy List.not_mem_nil
  | cons x cells ih =>
    have hspec := entriesOf_spec threshold htg hd (hcells x List.mem_cons_self)
    rw [List.flatMap_cons]
    by_cases hx : HasNear tg distance threshold x
    · have hself := hspec.self hx
      have hsorted := hspec.sorted
      cases hL : entriesOf tg distance threshold x with
      | nil =>
        rw [hL] at hself
        exact absurd hself List.not_mem_nil
      | cons e rest =>
        rw [hL] at hself hsorted
        refine ⟨e, _, rfl, ?_⟩
        rcases List.mem_cons.mp hself with heq | hmem
        · rw [← heq]
        · exact Nat.le_zero.mp ((List.pairwise_cons.mp hsorted).1 _ hmem)
    · rw [hspec.empty hx, List.nil_append]
      rcases List.mem_cons.mp hy with rfl | hy
      · exact absurd hnear hx
      · exact ih (fun c hc => hcells c (List.mem_cons_of_mem x hc)) hy

theorem nodup_heldOrder {size h m : Nat} (hhm : h < m) (hm : m ≤ size) :
    (heldOrder size h m).Nodup := by
  have hrange : ∀ i n, (List.range' i n).Nodup := fun i n => List.nodup_range'
  rw [heldOrder, List.nodup_append, List.nodup_append, List.nodup_append]
  refine ⟨⟨⟨hrange _ _, hrange _ _, ?_⟩, List.nodup_singleton h, ?_⟩, hrange _ _, ?_⟩
  · intro x hx y hy
    rw [List.mem_range'_1] at hx hy
    omega
  · intro x hx y hy
    rw [List.mem_append, List.mem_range'_1, List.mem_range'_1] at hx
    rw [List.mem_singleton] at hy
    omega
  · intro x hx y hy
    rw [List.mem_append, List.mem_append, List.mem_range'_1, List.mem_range'_1,
      List.mem_singleton] at hx
    rw [List.mem_range'_1] at hy
    omega

theorem exists_range (threshold : Nat) (htg : tg.Lawful) (hd : IsDistance distance) (hworkers : 2 ≤ workers)
    (hb : b < tg.size) {y : Nat} (hy : y < tg.size) (hyb : y ≠ b) (hyb' : y ≠ b + 1) :
    ∃ (cells : List Nat) (cache : Cache), (∀ c ∈ cells, c < tg.size) ∧ y ∈ cells ∧
      cache.id2d.length = tg.size ∧ Populates tg distance threshold workers cache ∧
      cache.range b = cells.flatMap (entriesOf tg distance threshold) := by
  by_cases hlt : y < b
  · have hpop := populates_held threshold htg hd hworkers
      (by omega : y < b + 1) (by omega : b + 1 ≤ tg.size)
    have hnodup := nodup_heldOrder (by omega : y < b + 1) (by omega : b + 1 ≤ tg.size)
    have horder : heldOrder tg.size y (b + 1) =
        (List.range' 0 y ++ List.range' (y + 1) (b - (y + 1))) ++
          b :: ([y] ++ List.range' (b + 1) (tg.size - (b + 1))) := by
      have hlen : b + 1 - (y + 1) = b - (y + 1) + 1 := by omega
      have hlast : y + 1 + 1 * (b - (y + 1)) = b := by omega
      rw [heldOrder, hlen, List.range'_concat, hlast]
      simp
    refine ⟨[b, y], _, ?_, by simp, length_id2d _, hpop, ?_⟩
    · simp only [List.mem_cons, List.not_mem_nil, or_false, forall_eq_or_imp, forall_eq]
      exact ⟨hb, hy⟩
    · rw [horder] at hnodup ⊢
      by_cases hend : b + 1 = tg.size
      · have hnil : tg.size - (b + 1) = 0 := by omega
        rw [hnil, List.range'_zero, List.append_nil]
        exact range_of_last hend (by simpa using hyb.symm)
      · obtain ⟨k, hk⟩ : ∃ k, tg.size - (b + 1) = k + 1 := ⟨tg.size - (b + 1) - 1, by omega⟩
        rw [hk, List.range'_succ] at hnodup ⊢
        exact range_of_next (by omega) hnodup
  · have hpop := populates_held threshold htg hd hworkers
      (by omega : b + 1 < tg.size) (Nat.le_refl tg.size)
    have hnodup := nodup_heldOrder (by omega : b + 1 < tg.size) (Nat.le_refl tg.size)
    have horder : heldOrder tg.size (b + 1) tg.size =
        List.range' 0 b ++ b ::
          (List.range' (b + 1 + 1) (tg.size - (b + 1 + 1)) ++ (b + 1) :: []) := by
      rw [heldOrder, List.range'_concat, Nat.sub_self, List.range'_zero]
      simp
    refine ⟨b :: List.range' (b + 1 + 1) (tg.size - (b + 1 + 1)), _, ?_, ?_, length_id2d _, hpop,
      ?_⟩
    · intro c hc
      rcases List.mem_cons.mp hc with rfl | hc
      · exact hb
      · rw [List.mem_range'_1] at hc
        omega
    · refine List.mem_cons_of_mem b ?_
      rw [List.mem_range'_1]
      omega
    · rw [horder] at hnodup ⊢
      exact range_of_next (by omega) hnodup

theorem not_lt_of_not_hasNear (hdiameter : diameter ≤ threshold)
    (hnear : ¬ HasNear tg distance threshold b) :
    ∀ n ∈ tg.neighbors b, ¬ distance b n < diameter :=
  fun n hn hlt => hnear ⟨n, hn, lt_of_lt_of_le hlt hdiameter⟩

theorem le_max (hthreshold : threshold < 2 ^ 32) (hdiameter : diameter ≤ threshold) :
    diameter ≤ ((2 ^ 32 - 1 : Nat) : ℚ) :=
  le_trans hdiameter (Nat.cast_le.mpr (Nat.le_sub_one_of_lt hthreshold))

theorem not_agrees_of_near (htg : tg.Lawful) (hd : IsDistance distance) (hworkers : 0 < workers)
    (hthreshold : threshold < 2 ^ 32) (hbase : ∀ b ∈ base, b < tg.size)
    (hdiameter : diameter ≤ threshold) (hnonneg : 0 ≤ diameter) (hb : b ∈ base)
    (hnear : HasNear tg distance threshold b) :
    ¬ Agrees tg distance threshold workers base diameter := by
  intro hagrees
  have hlt := hbase b hb
  obtain ⟨r, r', -, hr', hmem⟩ := hagrees _ (populates_range threshold htg hd hworkers) (2 ^ 32 - 1)
    (by decide)
  have hspec := entriesOf_spec threshold htg hd hlt
  have hzero : (((⟨b, 0⟩ : CacheEntry).distance : Nat) : ℚ) ≤ diameter := by
    rwa [Nat.cast_zero]
  have hread := mem_takeWhile hspec.sorted (hspec.self hnear) hzero
  rw [← range_inOrder (L := entriesOf tg distance threshold) hlt] at hread
  have hself := mem_dilate hbase (length_id2d _) (le_max hthreshold hdiameter) hb hr' hread
  obtain ⟨b', -, hreach⟩ := (hmem b).2.mp ((hmem b).1.mp hself)
  exact hreach.not_mem hb

theorem not_agrees_of_workers (htg : tg.Lawful) (hd : IsDistance distance)
    (hworkers : 2 ≤ workers) (hthreshold : threshold < 2 ^ 32) (hbase : ∀ b ∈ base, b < tg.size)
    (hdiameter : diameter ≤ threshold) (hnonneg : 0 ≤ diameter) (hb : b ∈ base)
    (hquiet : ∀ b ∈ base, ¬ HasNear tg distance threshold b) {y : Nat} (hy : y < tg.size)
    (hnear : HasNear tg distance threshold y) :
    ¬ Agrees tg distance threshold workers base diameter := by
  -- the cell next to `b` cannot be read for it, but then its near neighbour can
  obtain ⟨z, hz, hzb, hzb', hznear⟩ : ∃ z < tg.size, z ≠ b ∧ z ≠ b + 1 ∧
      HasNear tg distance threshold z := by
    have hne : ∀ z, HasNear tg distance threshold z → z ≠ b := by
      rintro z hz rfl
      exact hquiet z hb hz
    by_cases hyb : y = b + 1
    · obtain ⟨n, hn, hdist⟩ := hnear
      have hnnear : HasNear tg distance threshold n :=
        ⟨y, htg.symm y hy n hn, by rwa [hd.symm]⟩
      refine ⟨n, htg.lt_size y hy n hn, hne n hnnear, ?_, hnnear⟩
      rintro rfl
      rw [hyb] at hn
      exact htg.irrefl (b + 1) (hyb ▸ hy) hn
    · exact ⟨y, hy, hne y hnear, hyb, hnear⟩
  intro hagrees
  obtain ⟨cells, cache, hcells, hmemz, hlen, hpop, hrange⟩ :=
    exists_range threshold htg hd hworkers (hbase b hb) hz hzb hzb'
  obtain ⟨e, rest, heq, hzero⟩ := exists_head htg hd hcells hmemz hznear
  obtain ⟨r, r', -, hr', hmem⟩ := hagrees cache hpop (2 ^ 32 - 1) (by decide)
  have hread : e ∈ readEntries cache diameter b := by
    have hle : (e.distance : ℚ) ≤ diameter := by
      rw [hzero]
      rwa [Nat.cast_zero]
    rw [readEntries, hrange, heq, List.takeWhile_cons_of_pos (by rwa [decide_eq_true_eq])]
    exact List.mem_cons_self
  have hself := mem_dilate hbase hlen (le_max hthreshold hdiameter) hb hr' hread
  obtain ⟨b', hb', hreach⟩ := (hmem e.cellId).2.mp ((hmem e.cellId).1.mp hself)
  exact not_reachable (not_lt_of_not_hasNear hdiameter (hquiet b' hb')) _ hreach

/-- The dilators agree just for negative diameters and where no near neighbours are: neither of base
cells nor, with several workers and some base cell, of any cell. -/
theorem agrees_iff (htg : tg.Lawful) (hd : IsDistance distance) {threadCount cores : Nat}
    (hcores : 0 < cores) (hthreshold : threshold < 2 ^ 32) (hsorted : base.Pairwise (· < ·))
    (hbase : ∀ b ∈ base, b < tg.size) (hdiameter : diameter ≤ threshold) :
    Agrees tg distance threshold (workerCount threadCount cores) base diameter ↔
      diameter < 0 ∨ (∀ b ∈ base, ¬ HasNear tg distance threshold b) ∧
        (workerCount threadCount cores = 1 ∨ base = [] ∨
          ∀ c < tg.size, ¬ HasNear tg distance threshold c) := by
  have hworkers : 0 < workerCount threadCount cores := by
    rw [workerCount]
    split
    · exact hcores
    · omega
  generalize workerCount threadCount cores = workers at hworkers ⊢
  constructor
  · intro hagrees
    by_cases hneg : diameter < 0
    · exact .inl hneg
    · have hnonneg := not_lt.mp hneg
      have hquiet : ∀ b ∈ base, ¬ HasNear tg distance threshold b := fun b hb hnear =>
        not_agrees_of_near htg hd hworkers hthreshold hbase hdiameter hnonneg hb hnear hagrees
      refine .inr ⟨hquiet, ?_⟩
      by_cases hone : workers = 1
      · exact .inl hone
      · cases base with
        | nil => exact .inr (.inl rfl)
        | cons b base =>
          refine .inr (.inr fun c hc hnear => ?_)
          exact not_agrees_of_workers htg hd (by omega) hthreshold hbase hdiameter hnonneg
            List.mem_cons_self hquiet hc hnear hagrees
  · rintro (hneg | ⟨hquiet, hcase⟩)
    · refine agrees_of_quiet htg hsorted hbase (fun b _ n _ hlt => ?_)
        fun cache _ b _ => readEntries_of_neg hneg cache b
      exact absurd (lt_trans hlt hneg) (not_lt.mpr (hd.nonneg b n))
    · refine agrees_of_quiet htg hsorted hbase
        (fun b hb => not_lt_of_not_hasNear hdiameter (hquiet b hb)) ?_
      intro cache hpop b hb
      refine readEntries_of_nil ?_
      rcases hcase with rfl | rfl | hnone
      · have hlt := hbase b hb
        have hfold := populates_range threshold htg hd Nat.one_pos
        rw [Populates, if_pos rfl] at hpop hfold
        obtain rfl := Option.some.inj (hfold.symm.trans hpop)
        rw [range_inOrder hlt, (entriesOf_spec threshold htg hd hlt).empty (hquiet b hb)]
      · exact absurd hb List.not_mem_nil
      · exact range_of_cache_nil (cache_nil htg hd hnone hpop) b

def twoCells : TracGraph := ⟨2, fun c => [1 - c]⟩

def unitDistance (a b : Nat) : ℚ := if a = b then 0 else 1

theorem lawful_twoCells : twoCells.Lawful where
  lt_size c _ n hn := by
    obtain rfl := List.mem_singleton.mp hn
    exact Nat.lt_succ_of_le (Nat.sub_le 1 c)
  irrefl c hc hn := by
    have hlt : c < 2 := hc
    have heq := List.mem_singleton.mp hn
    omega
  symm c hc n hn := by
    have hlt : c < 2 := hc
    obtain rfl := List.mem_singleton.mp hn
    have heq : c = 1 - (1 - c) := by omega
    exact List.mem_singleton.mpr heq

theorem isDistance_unitDistance : IsDistance unitDistance where
  nonneg a b := by
    rw [unitDistance]
    split
    · exact le_refl 0
    · exact zero_le_one
  self a := if_pos rfl
  symm a b := by simp only [unitDistance, eq_comm]

theorem agrees_iff_twoCells :
    Agrees twoCells unitDistance 10 (workerCount 1 4) [0] 5 ↔
      (5 : ℚ) < 0 ∨ (∀ b ∈ [0], ¬ HasNear twoCells unitDistance 10 b) ∧
        (workerCount 1 4 = 1 ∨ [0] = ([] : List Nat) ∨
          ∀ c < twoCells.size, ¬ HasNear twoCells unitDistance 10 c) :=
  agrees_iff lawful_twoCells isDistance_unitDistance (by decide) (by decide)
    (List.pairwise_singleton _ 0) (by decide) (by norm_num)

/-- The dilation of a cell with the cache contains this cell itself. -/
theorem not_agrees_twoCells :
    twoCells.Lawful ∧ IsDistance unitDistance ∧
      ¬ Agrees twoCells unitDistance 10 (workerCount 1 4) [0] 5 := by
  refine ⟨lawful_twoCells, isDistance_unitDistance, ?_⟩
  have hnear : HasNear twoCells unitDistance 10 0 := by
    refine ⟨1, List.mem_singleton_self 1, ?_⟩
    have hdist : unitDistance 0 1 = 1 := if_neg Nat.zero_ne_one
    rw [hdist]
    norm_num
  exact not_agrees_of_near lawful_twoCells isDistance_unitDistance (by decide) (by decide)
    (by decide) (by norm_num) (by norm_num) List.mem_cons_self hnear

end Sserialize.CQRDilatorWithCache
