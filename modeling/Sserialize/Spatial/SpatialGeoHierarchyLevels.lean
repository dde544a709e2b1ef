import Sserialize.Spatial.SpatialGeoHierarchyCompactify

namespace Sserialize

theorem slice_append {data : List Nat} (rest : List Nat) {b e : Nat} (h : e ≤ data.length) :
    slice (data ++ rest) b e = slice data b e := by
  rcases Nat.le_total e b with heb | hbe
  · rw [slice, slice, Nat.sub_eq_zero_of_le heb, List.take_zero, List.take_zero]
  · rw [slice, slice, List.drop_append_of_le_length (hbe.trans h), List.take_append_of_le_length]
    rw [List.length_drop]
    omega

theorem length_slice {data : List Nat} {b e : Nat} (h : e ≤ data.length) :
    (slice data b e).length = e - b := by
  rw [slice, List.length_take, List.length_drop]
  omega

theorem getD_set {α : Type} {v : List α} {pos : Nat} (h : pos < v.length) (x z : α) :
    (fun i => (v.set pos x).getD i z) = Function.update (fun i => v.getD i z) pos x := by
  funext i
  by_cases hi : i = pos
  · rw [hi, Function.update_self, List.getD_eq_getElem _ _ (by rwa [List.length_set]),
      List.getElem_set_self]
  · rw [Function.update_of_ne hi, List.getD_eq_getElem?_getD, List.getD_eq_getElem?_getD,
      List.getElem?_set_ne (Ne.symm hi)]

theorem getD_replicate {α : Type} (n i : Nat) (z : α) : (List.replicate n z).getD i z = z := by
  rw [List.getD_eq_getElem?_getD, List.getElem?_replicate]
  split <;> rfl

namespace SpatialGeoHierarchy

open LongestWalk

variable {Rect : Type} {gh : SpatialGeoHierarchy Rect}

/-- The children of the root region are the regions without a parent. -/
structure HasRoot (gh : SpatialGeoHierarchy Rect) : Prop where
  inside : gh.rootRegion.cellsEnd ≤ gh.regionData.length
  mem_children : ∀ id, id ∈ gh.rootRegion.children gh.regionData ↔
    id < gh.regions.length ∧ gh.parentsOf id = []

theorem Region.parents_eq_nil_iff {r : Region Rect} {data : List Nat}
    (h : r.cellsEnd ≤ data.length) : r.parents data = [] ↔ r.parentsSize = 0 := by
  have hend : r.parentsEnd ≤ data.length := by
    rw [Region.cellsEnd, Region.neighborsEnd] at h
    omega
  rw [← List.length_eq_zero_iff, Region.parents, length_slice hend, Region.parentsEnd]
  omega

theorem Region.lists_append {r : Region Rect} {data : List Nat} (rest : List Nat)
    (h : r.cellsEnd ≤ data.length) :
    r.children (data ++ rest) = r.children data ∧ r.parents (data ++ rest) = r.parents data ∧
      r.neighbors (data ++ rest) = r.neighbors data ∧ r.cells (data ++ rest) = r.cells data := by
  have hneighbors : r.neighborsEnd ≤ data.length := (Nat.le_add_right _ r.cellsSize).trans h
  have hparents : r.parentsEnd ≤ data.length :=
    (Nat.le_add_right _ r.neighborsSize).trans hneighbors
  have hchildren : r.childrenEnd ≤ data.length :=
    (Nat.le_add_right _ r.parentsSize).trans hparents
  exact ⟨slice_append rest hchildren, slice_append rest hparents, slice_append rest hneighbors,
    slice_append rest h⟩

theorem createRootRegion_spec (ops : GeoRectOps Rect) (h : gh.IsDag)
    (hnew : gh.rootRegion.cellsSize = 0) :
    ∃ gh', gh.createRootRegion ops = .ok gh' ∧ gh'.IsDag ∧ gh'.HasRoot ∧
      gh'.regions = gh.regions ∧ gh'.cells = gh.cells ∧ gh'.childrenOf = gh.childrenOf ∧
      gh'.parentsOf = gh.parentsOf ∧ gh'.cellsOf = gh.cellsOf := by
  generalize hchildren : (gh.regions.filter fun r => r.parentsSize = 0).map Region.ghId = children
  obtain ⟨gh', hcreate, hregions, hcells, hdata, hoff, hsizes⟩ : ∃ gh' : SpatialGeoHierarchy Rect,
      gh.createRootRegion ops = .ok gh' ∧ gh'.regions = gh.regions ∧ gh'.cells = gh.cells ∧
        gh'.regionData = gh.regionData ++ (children ++ List.range gh.cells.length) ∧
        gh'.rootRegion.off = gh.regionData.length ∧
        gh'.rootRegion.childrenSize = children.length ∧ gh'.rootRegion.parentsSize = 0 ∧
        gh'.rootRegion.neighborsSize = 0 ∧ gh'.rootRegion.cellsSize = gh.cells.length := by
    rw [createRootRegion, if_neg (not_not.mpr hnew), hchildren]
    exact ⟨_, rfl, rfl, rfl, List.append_assoc _ _ _, rfl, rfl, rfl, rfl, rfl⟩
  have hlists : ∀ r ∈ gh.regions, r.children gh'.regionData = r.children gh.regionData ∧
      r.parents gh'.regionData = r.parents gh.regionData ∧
      r.neighbors gh'.regionData = r.neighbors gh.regionData ∧
      r.cells gh'.regionData = r.cells gh.regionData := by
    intro r hr
    rw [hdata]
    exact Region.lists_append _ (h.inside r hr)
  have hsame : gh'.childrenOf = gh.childrenOf ∧ gh'.parentsOf = gh.parentsOf ∧
      gh'.cellsOf = gh.cellsOf := by
    refine ⟨?_, ?_, ?_⟩ <;> funext id
    · rw [childrenOf, childrenOf, hregions]
      cases hr : gh.regions[id]? with
      | none => rfl
      | some r => exact (hlists r (List.mem_of_getElem? hr)).1
    · rw [parentsOf, parentsOf, hregions]
      cases hr : gh.regions[id]? with
      | none => rfl
      | some r => exact (hlists r (List.mem_of_getElem? hr)).2.1
    · rw [cellsOf, cellsOf, hregions]
      cases hr : gh.regions[id]? with
      | none => rfl
      | some r => exact (hlists r (List.mem_of_getElem? hr)).2.2.2
  refine ⟨gh', hcreate, ?_, ?_, hregions, hcells, hsame⟩
  · refine ⟨?_, ?_, ?_, ?_, ?_⟩
    · intro r hr
      rw [hregions] at hr
      rw [hdata, List.length_append]
      exact (h.inside r hr).trans (Nat.le_add_right _ _)
    · rw [hregions]
      exact h.ghId
    · rw [hregions, hsame.1, hsame.2.1]
      exact h.mem_children
    · rw [hregions, hsame.2.1]
      exact h.parents_lt
    · unfold Ancestor
      rw [hsame.2.1]
      exact h.irrefl
  · refine ⟨?_, ?_⟩
    · rw [Region.cellsEnd, Region.neighborsEnd, Region.parentsEnd, Region.childrenEnd, hoff,
        hsizes.1, hsizes.2.1, hsizes.2.2.1, hsizes.2.2.2, hdata, List.length_append,
        List.length_append, List.length_range]
      omega
    · intro id
      have hroot : gh'.rootRegion.children gh'.regionData = children := by
        rw [Region.children, slice, Region.childrenEnd, hoff, hsizes.1, hdata, List.drop_left,
          Nat.add_sub_cancel_left, List.take_left]
      rw [hroot, ← hchildren, hsame.2.1, hregions, List.mem_map]
      constructor
      · rintro ⟨r, hr, rfl⟩
        obtain ⟨hr, hnone⟩ := List.mem_filter.mp hr
        obtain ⟨i, hi⟩ := List.mem_iff_getElem?.mp hr
        rw [h.ghId i r hi, parentsOf_of_getElem hi,
          Region.parents_eq_nil_iff (h.inside r hr)]
        exact ⟨(List.getElem?_eq_some_iff.mp hi).1, of_decide_eq_true hnone⟩
      · rintro ⟨hid, hnone⟩
        have hr := List.getElem?_eq_getElem hid
        rw [parentsOf_of_getElem hr,
          Region.parents_eq_nil_iff (h.inside _ (List.getElem_mem hid))] at hnone
        refine ⟨gh.regions[id], ?_, h.ghId id _ hr⟩
        exact List.mem_filter.mpr ⟨List.getElem_mem hid, decide_eq_true hnone⟩

theorem depths_succ (depth : Nat) (d : List Nat) (me : Nat) : gh.depths (depth + 1) d me = (do
    let r ← MMVector.at gh.regions me
    (r.children gh.regionData).foldlM (fun d child => do
      let childDepth ← subscript d child
      let myDepth ← subscript d me
      if childDepth ≤ myDepth then
        let d ← subscriptSet d child (myDepth + 1)
        gh.depths depth d child
      else return d) d) := rfl

theorem subscript_getD {v : List Nat} {pos : Nat} (h : pos < v.length) :
    subscript v pos = .ok (v.getD pos 0) := by
  rw [subscript_of_lt h, List.getD_eq_getElem _ _ h]

variable {f : Nat → Nat} {d : List Nat}

theorem IsDag.depths_of_relax (h : gh.IsDag) {depth : Nat} {me : Nat}
    (hlength : d.length = gh.regions.length) (hme : me < gh.regions.length)
    (hrelax : relax gh.childrenOf depth (fun i => d.getD i 0) me = some f) :
    ∃ d', gh.depths depth d me = .ok d' ∧ d'.length = gh.regions.length ∧
      (fun i => d'.getD i 0) = f := by
  induction depth generalizing d me f with
  | zero => cases hrelax
  | succ depth ih =>
    have hloop : ∀ (cs : List Nat) (d : List Nat), (∀ c ∈ cs, c < gh.regions.length) →
        d.length = gh.regions.length →
        cs.foldlM (fun g c =>
          if g c ≤ g me then relax gh.childrenOf depth (Function.update g c (g me + 1)) c
          else some g) (fun i => d.getD i 0) = some f →
        ∃ d', cs.foldlM (fun d child => do
            let childDepth ← subscript d child
            let myDepth ← subscript d me
            if childDepth ≤ myDepth then
              let d ← subscriptSet d child (myDepth + 1)
              gh.depths depth d child
            else return d) d = .ok d' ∧ d'.length = gh.regions.length ∧
          (fun i => d'.getD i 0) = f := by
      intro cs
      induction cs with
      | nil => exact fun d _ hlength hf => ⟨d, rfl, hlength, Option.some.inj hf⟩
      | cons c cs ihLoop =>
        intro d hcs hlength hf
        have hc := hcs c List.mem_cons_self
        have hrest := fun i hi => hcs i (List.mem_cons_of_mem _ hi)
        rw [List.foldlM_cons] at hf ⊢
        obtain ⟨g, hg, hf⟩ := Option.bind_eq_some_iff.mp hf
        rw [subscript_getD (hlength ▸ hc), ok_bind, subscript_getD (hlength ▸ hme), ok_bind]
        by_cases hle : d.getD c 0 ≤ d.getD me 0
        · rw [if_pos hle] at hg
          have hset := hlength ▸ hc
          rw [← getD_set hset] at hg
          obtain ⟨d₁, hd₁, hlength₁, rfl⟩ := ih (by rw [List.length_set, hlength]) hc hg
          rw [if_pos hle, subscriptSet_of_lt hset, ok_bind, hd₁, ok_bind]
          exact ihLoop d₁ hrest hlength₁ hf
        · rw [if_neg hle] at hg
          obtain rfl := Option.some.inj hg
          rw [if_neg hle]
          exact ihLoop d hrest hlength hf
    have hread : MMVector.at gh.regions me = .ok gh.regions[me] := MMVector.at_of_lt hme
    have hchildren : gh.childrenOf me = gh.regions[me].children gh.regionData :=
      childrenOf_of_getElem (List.getElem?_eq_getElem hme)
    rw [depths_succ, hread, ok_bind, ← hchildren]
    exact hloop _ d (fun c hc => h.children_lt hme hc) hlength hrelax

theorem setOnes_spec (roots : List Nat) (h : ∀ r ∈ roots, r < d.length) :
    ∃ d', roots.foldlM (fun d child => subscriptSet d child 1) d = .ok d' ∧
      d'.length = d.length ∧
      (fun i => d'.getD i 0) = fun i => if i ∈ roots then 1 else d.getD i 0 := by
  induction roots generalizing d with
  | nil => exact ⟨d, rfl, rfl, by simp⟩
  | cons r roots ih =>
    have hr := h r List.mem_cons_self
    obtain ⟨d', hd', hlength, hvalues⟩ := ih (d := d.set r 1) fun s hs => by
      rw [List.length_set]
      exact h s (List.mem_cons_of_mem _ hs)
    refine ⟨d', ?_, by rw [hlength, List.length_set], ?_⟩
    · rw [List.foldlM_cons, subscriptSet_of_lt hr, ok_bind, hd']
    · rw [hvalues]
      funext i
      have hset := congrFun (getD_set hr 1 0) i
      rw [hset]
      by_cases hi : i = r
      · simp [hi]
      · rw [Function.update_of_ne hi]
        simp [hi]

theorem IsDag.depthsAll_of_relax (h : gh.IsDag) {depth : Nat} (roots : List Nat)
    (hroots : ∀ r ∈ roots, r < gh.regions.length) (hlength : d.length = gh.regions.length)
    (hrelax : roots.foldlM (relax gh.childrenOf depth) (fun i => d.getD i 0) = some f) :
    ∃ d', roots.foldlM (gh.depths depth) d = .ok d' ∧ d'.length = gh.regions.length ∧
      (fun i => d'.getD i 0) = f := by
  induction roots generalizing d with
  | nil => exact ⟨d, rfl, hlength, Option.some.inj hrelax⟩
  | cons r roots ih =>
    rw [List.foldlM_cons] at hrelax ⊢
    obtain ⟨g, hg, hrelax⟩ := Option.bind_eq_some_iff.mp hrelax
    obtain ⟨d₁, hd₁, hlength₁, rfl⟩ :=
      h.depths_of_relax hlength (hroots r List.mem_cons_self) hg
    rw [hd₁, ok_bind]
    exact ih (fun s hs => hroots s (List.mem_cons_of_mem _ hs)) hlength₁ hrelax

variable {levels : List (List Nat)}

theorem pushLevel_of_lt {level : Nat} (h : level < levels.length) (i : Nat) :
    pushLevel levels level i = .ok (levels.set level (levels.getD level [] ++ [i])) := by
  rw [pushLevel, MMVector.at_of_lt h, ok_bind,
    List.getD_eq_getElem _ _ h]
  rfl

theorem pushLevels_spec (ids : List Nat) (levels : List (List Nat))
    (hids : ∀ i ∈ ids, i < d.length) (hlevels : ∀ i ∈ ids, d.getD i 0 < levels.length) :
    ∃ levels', ids.foldlM (fun levels i => do
        let level ← subscript d i
        pushLevel levels level i) levels = .ok levels' ∧ levels'.length = levels.length ∧
      ∀ l, levels'.getD l [] =
        levels.getD l [] ++ ids.filter fun i => d.getD i 0 = l ∧ l < levels.length := by
  induction ids generalizing levels with
  | nil => exact ⟨levels, rfl, rfl, fun l => (List.append_nil _).symm⟩
  | cons i ids ih =>
    have hi := hlevels i List.mem_cons_self
    obtain ⟨levels', hrun, hlength, hvalues⟩ :=
      ih (levels.set (d.getD i 0) (levels.getD (d.getD i 0) [] ++ [i]))
        (fun j hj => hids j (List.mem_cons_of_mem _ hj)) fun j hj => by
          rw [List.length_set]
          exact hlevels j (List.mem_cons_of_mem _ hj)
    refine ⟨levels', ?_, by rw [hlength, List.length_set], fun l => ?_⟩
    · rw [List.foldlM_cons, subscript_getD (hids i List.mem_cons_self), ok_bind,
        pushLevel_of_lt hi, ok_bind, hrun]
    · have hset := congrFun (getD_set hi (levels.getD (d.getD i 0) [] ++ [i]) []) l
      rw [hvalues, hset, List.length_set, List.filter_cons]
      by_cases hl : d.getD i 0 = l
      · rw [← hl, Function.update_self, if_pos (decide_eq_true ⟨rfl, hi⟩), List.append_assoc]
        rfl
      · have hnot : ¬ (decide (d.getD i 0 = l ∧ l < levels.length)) = true := by
          rw [decide_eq_true_iff]
          exact fun h => hl h.1
        rw [Function.update_of_ne (Ne.symm hl), if_neg hnot]

theorem pairwise_flatten_le (h : ∀ l, ∀ i ∈ levels.getD l [], f i = l) :
    levels.flatten.Pairwise fun x y => f x ≤ f y := by
  rw [List.pairwise_flatten]
  constructor
  · intro level hlevel
    obtain ⟨l, hl, rfl⟩ := List.mem_iff_getElem.mp hlevel
    rw [List.pairwise_iff_getElem]
    intro i j hi hj _
    have hmem : ∀ x ∈ levels[l], f x = l := by
      intro x hx
      apply h l x
      rwa [List.getD_eq_getElem levels [] hl]
    rw [hmem _ (List.getElem_mem hi), hmem _ (List.getElem_mem hj)]
  · rw [List.pairwise_iff_getElem]
    intro l m hl hm hlm x hx y hy
    rw [← List.getD_eq_getElem levels [] hl] at hx
    rw [← List.getD_eq_getElem levels [] hm] at hy
    rw [h l x hx, h m y hy]
    exact Nat.le_of_lt hlm

theorem le_foldl_max (xs : List Nat) (b : Nat) :
    b ≤ xs.foldl max b ∧ ∀ x ∈ xs, x ≤ xs.foldl max b := by
  induction xs generalizing b with
  | nil => exact ⟨Nat.le_refl b, fun x hx => absurd hx List.not_mem_nil⟩
  | cons y xs ih =>
    obtain ⟨hb, hxs⟩ := ih (max b y)
    refine ⟨(Nat.le_max_left b y).trans hb, ?_⟩
    intro x hx
    obtain rfl | hx := List.mem_cons.mp hx
    · exact (Nat.le_max_right b x).trans hb
    · exact hxs x hx

theorem perm_flatten_levels {n : Nat} (hf : ∀ i < n, f i < levels.length)
    (h : ∀ l, levels.getD l [] = (List.range n).filter fun i => f i = l ∧ l < levels.length) :
    levels.flatten.Perm (List.range n) := by
  have hlevel : ∀ l, ∀ hl : l < levels.length,
      levels[l] = (List.range n).filter fun i => f i = l ∧ l < levels.length := fun l hl => by
    rw [← List.getD_eq_getElem levels [] hl, h]
  have hnodup : levels.flatten.Nodup := by
    rw [List.nodup_flatten]
    constructor
    · intro level hlevel'
      obtain ⟨l, hl, rfl⟩ := List.mem_iff_getElem.mp hlevel'
      rw [hlevel l hl]
      exact List.nodup_range.filter _
    · rw [List.pairwise_iff_getElem]
      intro l m hl hm hlm x hx hy
      rw [hlevel l hl, List.mem_filter, decide_eq_true_iff] at hx
      rw [hlevel m hm, List.mem_filter, decide_eq_true_iff] at hy
      omega
  rw [List.perm_ext_iff_of_nodup hnodup List.nodup_range]
  intro i
  rw [List.mem_flatten, List.mem_range]
  constructor
  · rintro ⟨level, hmem, hi⟩
    obtain ⟨l, hl, rfl⟩ := List.mem_iff_getElem.mp hmem
    rw [hlevel l hl] at hi
    exact List.mem_range.mp (List.mem_filter.mp hi).1
  · intro hi
    have hl := hf i hi
    refine ⟨levels[f i], List.getElem_mem hl, ?_⟩
    rw [hlevel _ hl]
    exact List.mem_filter.mpr ⟨List.mem_range.mpr hi, decide_eq_true ⟨rfl, hl⟩⟩

def pathLengths (gh : SpatialGeoHierarchy Rect) (id : Nat) : Set Nat :=
  { k | ∃ r ∈ gh.rootRegion.children gh.regionData, ∃ n, Walk gh.childrenOf n r id ∧ k = n + 1 }

theorem HasRoot.exists_path (hroot : gh.HasRoot) (h : gh.IsDag) {id : Nat}
    (hid : id < gh.regions.length) : ∃ k, k ∈ gh.pathLengths id := by
  induction hrank : rank gh.parentsOf (Finset.range gh.regions.length) id
      using Nat.strong_induction_on generalizing id with
  | _ k ih =>
    cases hparents : gh.parentsOf id with
    | nil => exact ⟨1, id, (hroot.mem_children id).mpr ⟨hid, hparents⟩, 0, .nil id, rfl⟩
    | cons p ps =>
      have hp : p ∈ gh.parentsOf id := by
        rw [hparents]
        exact List.mem_cons_self
      have hlt := h.parents_lt id p hp
      obtain ⟨m, r, hr, n, hwalk, -⟩ := ih _
        (hrank ▸ h.parents_acyclic.rank_lt (Finset.mem_range.mpr hid) hp) hlt rfl
      exact ⟨n + 2, r, hr, n + 1, hwalk.snoc ((h.mem_children p hlt id).mpr ⟨hid, hp⟩), rfl⟩

/-- The recursion ends, the depths are the lengths of the longest paths, every region is listed
once, and none in front of an ancestor of it. -/
def LevelOrderRight (gh : SpatialGeoHierarchy Rect) (depth : Nat) : Prop :=
  ∃ d order, gh.levelOrder depth = .ok (d, order) ∧
    gh.getRegionsInLevelOrder depth = .ok order ∧ d.length = gh.regions.length ∧
    (∀ id, ∀ hid : id < d.length, IsGreatest (gh.pathLengths id) d[id]) ∧
    order.Perm (List.range gh.regions.length) ∧
    order.Pairwise fun region other => ¬ gh.Ancestor region other

theorem getRegionsInLevelOrder_right (h : gh.IsDag) (hroot : gh.HasRoot) {depth : Nat}
    (hdepth : gh.regions.length ≤ depth) : gh.LevelOrderRight depth := by
  by_cases hempty : gh.regions = []
  · have hlevel : gh.levelOrder depth = .ok ([], []) := if_pos hempty
    refine ⟨[], [], hlevel, ?_, by simp [hempty], fun id hid => absurd hid (Nat.not_lt_zero _), ?_,
      .nil⟩
    · rw [getRegionsInLevelOrder, hlevel]
      rfl
    · rw [hempty]
      exact .refl _
  · generalize hroots : gh.rootRegion.children gh.regionData = roots
    have hin : ∀ r ∈ roots, r < gh.regions.length := by
      intro r hr
      rw [← hroots] at hr
      exact ((hroot.mem_children r).mp hr).1
    have hcard : (Finset.range gh.regions.length).card ≤ depth := by rwa [Finset.card_range]
    obtain ⟨f, hrelax, hwalk, hlongest⟩ := relaxAll_spec h.children_acyclic
      (fun r hr => Finset.mem_range.mpr (hin r hr)) hcard
    obtain ⟨d₁, hones, hlength₁, hvalues₁⟩ := setOnes_spec roots
      (d := List.replicate gh.regions.length 0) (by rwa [List.length_replicate])
    rw [List.length_replicate] at hlength₁
    have hstart : (fun i => d₁.getD i 0) = fun i => if i ∈ roots then 1 else 0 := by
      rw [hvalues₁]
      funext i
      rw [getD_replicate]
    rw [relaxAll, ← hstart] at hrelax
    obtain ⟨d, hd, hlength, rfl⟩ := h.depthsAll_of_relax roots hin hlength₁ hrelax
    have hmax : ∀ i < gh.regions.length, d.getD i 0 < d.foldl max 0 + 1 := by
      intro i hi
      have hi' : i < d.length := by rwa [hlength]
      rw [List.getD_eq_getElem _ _ hi']
      exact Nat.lt_succ_of_le ((le_foldl_max d 0).2 _ (List.getElem_mem hi'))
    obtain ⟨levels, hlevels, hlevelsLength, hlevelsValues⟩ := pushLevels_spec
      (d := d) (List.range gh.regions.length) (List.replicate (d.foldl max 0 + 1) [])
      (fun i hi => by rw [hlength]; exact List.mem_range.mp hi)
      (fun i hi => by rw [List.length_replicate]; exact hmax i (List.mem_range.mp hi))
    rw [List.length_replicate] at hlevelsLength
    have hfilter : ∀ l, levels.getD l [] = (List.range gh.regions.length).filter
        fun i => d.getD i 0 = l ∧ l < levels.length := by
      intro l
      rw [hlevelsValues, getD_replicate, List.nil_append, List.length_replicate,
        hlevelsLength]
    have horder : gh.levelOrder depth = .ok (d, levels.flatten) := by
      rw [levelOrder, if_neg hempty, hroots]
      dsimp only
      rw [hones, ok_bind, hd, ok_bind, hlevels, ok_bind]
      rfl
    have hgreatest : ∀ id < gh.regions.length, IsGreatest (gh.pathLengths id) (d.getD id 0) := by
      intro id hid
      have hupper : ∀ k ∈ gh.pathLengths id, k ≤ d.getD id 0 := by
        rintro k ⟨r, hr, n, hn, rfl⟩
        rw [hroots] at hr
        exact hlongest r hr n id hn
      obtain ⟨k, hk⟩ := hroot.exists_path h hid
      have hpos : 1 ≤ k := by
        obtain ⟨r, -, n, -, rfl⟩ := hk
        exact Nat.succ_le_succ (Nat.zero_le n)
      have hle := hupper k hk
      obtain ⟨r, hr, n, hn, hvalue⟩ := hwalk id (Nat.one_le_iff_ne_zero.mp (hpos.trans hle))
      exact ⟨⟨r, hroots ▸ hr, n, hn, hvalue⟩, hupper⟩
    refine ⟨d, levels.flatten, horder, ?_, hlength, ?_, ?_, ?_⟩
    · rw [getRegionsInLevelOrder, horder]
      rfl
    · intro id hid
      rw [← List.getD_eq_getElem d 0 hid]
      exact hgreatest id (by rwa [← hlength])
    · exact perm_flatten_levels (fun i hi => by rw [hlevelsLength]; exact hmax i hi) hfilter
    · have hperm := perm_flatten_levels (fun i hi => by rw [hlevelsLength]; exact hmax i hi) hfilter
      have hascending : levels.flatten.Pairwise fun x y => d.getD x 0 ≤ d.getD y 0 := by
        apply pairwise_flatten_le
        intro l i hi
        rw [hfilter, List.mem_filter, decide_eq_true_iff] at hi
        exact hi.2.1
      refine hascending.imp_of_mem ?_
      intro x y _ hy hle hancestor
      -- the path to the ancestor is shorter
      have hylt := List.mem_range.mp (hperm.mem_iff.mp hy)
      have hchain := (h.transGen_children_iff hylt).mpr ⟨?_, hancestor⟩
      · obtain ⟨m, hm⟩ := exists_walk_of_transGen hchain
        obtain ⟨r, hr, n, hn, hvalue⟩ := (hgreatest y hylt).1
        rw [hroots] at hr
        have hlonger : n + (m + 1) + 1 ≤ d.getD x 0 := hlongest r hr _ x (hn.append hm)
        omega
      · by_contra hx
        have hnone : gh.parentsOf x = [] := by
          rw [parentsOf, List.getElem?_eq_none (Nat.le_of_not_lt hx)]
        obtain ⟨p, hp, -⟩ := Relation.TransGen.head'_iff.mp hancestor
        rw [hnone] at hp
        exact absurd hp List.not_mem_nil

theorem getRegionsInLevelOrder_nested :
    ∃ gh', nested.createRootRegion ⟨(), fun _ _ => (), fun _ _ => true⟩ = .ok gh' ∧
      gh'.LevelOrderRight 2 := by
  obtain ⟨gh', hcreate, hdag, hroot, hregions, -⟩ :=
    createRootRegion_spec ⟨(), fun _ _ => (), fun _ _ => true⟩ isDag_nested rfl
  exact ⟨gh', hcreate, getRegionsInLevelOrder_right hdag hroot (hregions ▸ Nat.le_refl 2)⟩

end SpatialGeoHierarchy

end Sserialize
