import Sserialize.Spatial.HCQRSpatialGridLoops

namespace Sserialize.HCQRSpatialGrid

variable {sp : Space} {Pixel must : Nat → Prop} {P : Nat → Nat → Prop} {S : Nat → Prop}
  {F : List ItemIndex}

theorem mapM_eq_ok {α β : Type} {f : α → Except Fault β} {g : α → β} {xs : List α}
    (h : ∀ x ∈ xs, f x = .ok (g x)) : xs.mapM f = .ok (xs.map g) := by
  induction xs with
  | nil => rfl
  | cons x xs ih =>
    have hrest := ih fun z hz => h z (List.mem_cons_of_mem _ hz)
    rw [List.mapM_cons, h x List.mem_cons_self, ok_bind, hrest, ok_bind]
    rfl

variable {p : Nat}

theorem index_children (h : sp.Lawful Pixel) (hp : Pixel p) :
    ∃ pids, (List.range (sp.sg.childrenCount p)).mapM (sp.sg.index p) = .ok pids ∧
      pids.length = sp.sg.childrenCount p ∧ pids.Nodup ∧
      ∀ c, c ∈ pids ↔ Pixel c ∧ 0 < sp.sg.level c ∧ sp.sg.parent c = .ok p := by
  have hindex : ∀ i ∈ List.range (sp.sg.childrenCount p), ∃ c, sp.sg.index p i = .ok c ∧
      Pixel c ∧ sp.sg.parent c = .ok p ∧ sp.sg.level c = sp.sg.level p + 1 := fun i hi =>
    h.grid.index_ok p hp i (List.mem_range.mp hi)
  choose! g hg hpixel hparent hlevel using hindex
  refine ⟨_, mapM_eq_ok hg, ?_, ?_, fun c => ?_⟩
  · rw [List.length_map, List.length_range]
  · refine List.Nodup.map_on (fun i hi j hj heq => ?_) List.nodup_range
    refine h.grid.index_inj p hp i (List.mem_range.mp hi) j (List.mem_range.mp hj) ?_
    rw [hg i hi, hg j hj, heq]
  · rw [List.mem_map]
    constructor
    · rintro ⟨i, hi, rfl⟩
      exact ⟨hpixel i hi, by rw [hlevel i hi]; exact Nat.succ_pos _, hparent i hi⟩
    · rintro ⟨hc, hpos, hcp⟩
      obtain ⟨i, hi, hic⟩ := h.grid.child_index p c hc hpos hcp
      have hrange := List.mem_range.mpr hi
      exact ⟨i, hrange, Except.ok.inj ((hg i hrange).symm.trans hic)⟩

theorem pixelChildren_spec (h : sp.Lawful Pixel) (hp : Pixel p) :
    ∃ pids, pixelChildren sp p = .ok pids ∧ pids.length = sp.sg.childrenCount p ∧
      pids.Pairwise (· < ·) ∧
      ∀ c, c ∈ pids ↔ Pixel c ∧ 0 < sp.sg.level c ∧ sp.sg.parent c = .ok p := by
  obtain ⟨pids, hpids, hlength, hnodup, hmem⟩ := index_children h hp
  have hperm := List.perm_insertionSort (· ≤ ·) pids
  refine ⟨pids.insertionSort (· ≤ ·), ?_, hperm.length_eq.trans hlength, ?_, fun c => ?_⟩
  · rw [pixelChildren, hpids]
    rfl
  · have hle := List.pairwise_insertionSort (· ≤ ·) pids
    exact hle.imp₂ (fun a b hab hne => Nat.lt_of_le_of_ne hab hne) (hperm.nodup_iff.mpr hnodup)
  · rw [hperm.mem_iff, hmem]

theorem fullLeaf_yields {c : Nat} (hc : Pixel c)
    (hP : ∀ q, Finest sp Pixel q → sp.sg.Covers c q → ∀ id, P q id ↔ id ∈ (sp.sgi.items q).ids)
    (h : sp.Lawful Pixel) :
    YieldsNode sp Pixel must P c (someNode fun dest => .ok (fullLeaf c, dest)) := by
  intro dest
  refine ⟨some (fullLeaf c), dest, rfl, List.prefix_refl dest, ?_, fun _ => ⟨_, rfl⟩, ?_⟩
  · intro t ht
    obtain rfl := Option.mem_some_iff.mp ht
    refine ⟨rfl, .leaf hc, fun l hl => ?_⟩
    obtain rfl := List.mem_singleton.mp (by rwa [fullLeaf, leaves] at hl)
    exact .full
  · intro q hq hcov id
    rw [hP q hq hcov]
    have hitem : ItemAt sp dest (fullLeaf c) q id ↔ sp.sg.Covers c q ∧
        id ∈ (sp.sgi.items c).ids ∧ id ∈ (sp.sgi.items q).ids :=
      itemAt_leaf rfl (leafItems_full sp dest c npos [])
    constructor
    · rintro ⟨t, ht, hid⟩
      obtain rfl := Option.mem_some_iff.mp ht
      exact (hitem.mp hid).2.2
    · intro hid
      exact ⟨_, rfl, hitem.mpr ⟨hcov, h.items_subset hcov hq.1 hid, hid⟩⟩

theorem fetchedLeaf_yields {c : Nat} (hc : Pixel c) {result : ItemIndex}
    (hsub : ∀ id ∈ result.ids, id ∈ (sp.sgi.items c).ids)
    (hP : ∀ q, Finest sp Pixel q → sp.sg.Covers c q → ∀ id,
      P q id ↔ id ∈ result.ids ∧ id ∈ (sp.sgi.items q).ids) :
    YieldsNode sp Pixel must P c (someNode (fetchedLeaf c result)) := by
  intro dest
  have hread : (dest ++ [result])[dest.length]? = some result := List.getElem?_concat_length
  refine ⟨some (.node c IS_FETCHED dest.length []), dest ++ [result], rfl,
    List.prefix_append dest _, ?_, fun _ => ⟨_, rfl⟩, ?_⟩
  · intro t ht
    obtain rfl := Option.mem_some_iff.mp ht
    refine ⟨rfl, .leaf hc, fun l hl => ?_⟩
    obtain rfl := List.mem_singleton.mp (by rwa [leaves] at hl)
    exact .fetched hread hsub
  · intro q hq hcov id
    rw [hP q hq hcov]
    have hitem : ItemAt sp (dest ++ [result]) (.node c IS_FETCHED dest.length []) q id ↔
        sp.sg.Covers c q ∧ id ∈ result.ids ∧ id ∈ (sp.sgi.items q).ids :=
      itemAt_leaf rfl (leafItems_fetched sp c hread [])
    constructor
    · rintro ⟨t, ht, hid⟩
      obtain rfl := Option.mem_some_iff.mp ht
      exact (hitem.mp hid).2
    · exact fun hid => ⟨_, rfl, hitem.mpr ⟨hcov, hid⟩⟩

theorem fetchedLeaf?_yields {c : Nat} (hc : Pixel c) (hmust : ¬ must c) {result : ItemIndex}
    (hsub : ∀ id ∈ result.ids, id ∈ (sp.sgi.items c).ids)
    (hP : ∀ q, Finest sp Pixel q → sp.sg.Covers c q → ∀ id,
      P q id ↔ id ∈ result.ids ∧ id ∈ (sp.sgi.items q).ids) :
    YieldsNode sp Pixel must P c (fetchedLeaf? c result) := by
  rw [fetchedLeaf?]
  split
  · exact fetchedLeaf_yields hc hsub hP
  · rename_i hsize
    have hnil : result.ids = [] := ItemIndex.size_eq_zero.mp (not_not.mp hsize)
    refine yieldsNode_noNode hmust fun q hq hcov id hid => ?_
    have hmem := ((hP q hq hcov id).mp hid).1
    rw [hnil] at hmem
    cases hmem

theorem virtLeaf_yields (h : sp.Lawful Pixel) {c : Nat} (hc : Pixel c) (hmust : ¬ must c)
    {nodeItems : ItemIndex}
    (hP : ∀ q, Finest sp Pixel q → sp.sg.Covers c q → ∀ id,
      P q id ↔ id ∈ nodeItems.ids ∧ id ∈ (sp.sgi.items q).ids) :
    YieldsNode sp Pixel must P c (virtLeaf sp nodeItems c) := by
  refine fetchedLeaf?_yields hc hmust (fun id hid => ?_) fun q hq hcov id => ?_
  · exact ((ItemIndex.mem_apply .intersect _ _ id).mp hid).2
  · rw [hP q hq hcov, ItemIndex.mem_apply]
    constructor
    · rintro ⟨hid, hidq⟩
      exact ⟨⟨hid, h.items_subset hcov hq.1 hidq⟩, hidq⟩
    · rintro ⟨⟨hid, -⟩, hidq⟩
      exact ⟨hid, hidq⟩

structure Splits (sp : Space) (Pixel : Nat → Prop) (P : Nat → Nat → Prop) (S : Nat → Prop)
    (p : Nat) : Prop where
  pixel : Pixel p
  children : 0 < sp.sg.childrenCount p
  child : ∀ c, S c → 0 < sp.sg.level c ∧ sp.sg.parent c = .ok p
  enough : ∀ c q, Pixel c → 0 < sp.sg.level c ∧ sp.sg.parent c = .ok p → Finest sp Pixel q →
    sp.sg.Covers c q → ∀ id, P q id → S c

variable {dest : List ItemIndex} {ts : List TreeNode}

theorem NodesOk.items_iff (h : sp.Lawful Pixel) (hp : Splits sp Pixel P S p)
    (hts : NodesOk sp Pixel must P S dest ts) {q : Nat} (hq : Finest sp Pixel q)
    (hcov : sp.sg.Covers p q) (id : Nat) : (∃ t ∈ ts, ItemAt sp dest t q id) ↔ P q id := by
  obtain ⟨c, hc, hlevel, hparent, hcq⟩ := h.exists_child hq hcov hp.children
  constructor
  · rintro ⟨t, ht, hitem⟩
    have htq := hitem.covers (hts.valid t ht).shaped
    exact ((hts.items t.pixelId q hq htq id).mp ⟨t, ht, rfl, hitem⟩).2
  · intro hid
    have hSc := hp.enough c q hc ⟨hlevel, hparent⟩ hq hcq id hid
    obtain ⟨t, ht, -, hitem⟩ := (hts.items c q hq hcq id).mpr ⟨hSc, hid⟩
    exact ⟨t, ht, hitem⟩

theorem NodesOk.nodeOk (h : sp.Lawful Pixel) (hp : Splits sp Pixel P S p)
    (hts : NodesOk sp Pixel must P S dest ts) (hne : ts ≠ []) (must' : Nat → Prop) (i : Nat) :
    NodeOk sp Pixel must' P p dest (some (.node p IS_INTERNAL i ts)) where
  valid t ht := by
    obtain rfl := Option.mem_some_iff.mp ht
    refine ⟨rfl, ?_, fun l hl => ?_⟩
    · exact .internal hp.pixel hne (fun c hc => hp.child _ (hts.pixel c hc)) hts.sorted
        fun c hc => (hts.valid c hc).shaped
    · rw [leaves_internal hne] at hl
      obtain ⟨c, hc, hl⟩ := List.mem_flatMap.mp hl
      exact (hts.valid c hc).leafOk l hl
  present _ := ⟨_, rfl⟩
  items q hq hcov id := by
    rw [← hts.items_iff h hp hq hcov id]
    simp only [Option.mem_some_iff, exists_eq_left', itemAt_node hne]

theorem NodesOk.internalNode? (h : sp.Lawful Pixel) (hp : Splits sp Pixel P S p)
    (hts : NodesOk sp Pixel must P S dest ts) {must' : Nat → Prop} (hmust : ¬ must' p) :
    NodeOk sp Pixel must' P p dest (internalNode? p ts) := by
  by_cases hnil : ts = []
  · obtain rfl := hnil
    refine ⟨fun t ht => absurd ht (Option.not_mem_none t), fun hp => absurd hp hmust, ?_⟩
    intro q hq hcov id
    rw [← hts.items_iff h hp hq hcov id]
    refine iff_of_false ?_ ?_
    · rintro ⟨t, ht, -⟩
      exact Option.not_mem_none t ht
    · rintro ⟨t, ht, -⟩
      exact List.not_mem_nil ht
  · have hnode : HCQRSpatialGrid.internalNode? p ts = some (.node p IS_INTERNAL npos ts) := by
      simp [HCQRSpatialGrid.internalNode?, hnil]
    rw [hnode]
    exact hts.nodeOk h hp hnil must' npos

variable {t : TreeNode}

theorem Valid.splits (h : sp.Lawful Pixel) (ht : Valid sp Pixel F t) (hne : t.children ≠ []) :
    Splits sp Pixel (fun q id => ItemAt sp F t q id) (· ∈ t.children.map TreeNode.pixelId)
      t.pixelId where
  pixel := ht.shaped.pixel
  children := by
    obtain ⟨c, hc⟩ := List.exists_mem_of_ne_nil t.children hne
    obtain ⟨hparent, hvalid⟩ := ht.children.1 c hc
    exact h.childrenCount_pos hvalid.shaped.pixel hparent.1 hparent.2
  child c hc := by
    obtain ⟨d, hd, rfl⟩ := List.mem_map.mp hc
    exact (ht.children.1 d hd).1
  enough c q _ hparent hq hcov id hid := hid.exists_child h ht hne hq.1 hparent hcov

variable {src : List ItemIndex}

theorem deepCopy_internal (hne : t.children ≠ []) {dest dest' : List ItemIndex}
    {cs : List TreeNode}
    (hcs : eachNode t.children (fun c _ => someNode (deepCopy sp src c)) dest = .ok (cs, dest')) :
    deepCopy sp src t dest = .ok (.node t.pixelId t.flags t.itemIndexId cs, dest') := by
  rw [deepCopy, if_pos (isInternal_of_ne_nil hne), hcs, ok_bind]
  rfl

theorem deepCopy_leaf (hnil : t.children = []) (dest : List ItemIndex) :
    deepCopy sp src t dest =
      if t.isFetched then do
        let idx ← items sp src t
        return (.node t.pixelId t.flags dest.length [], dest ++ [idx])
      else .ok (t, dest) := by
  rw [deepCopy, isInternal_of_nil hnil]
  rfl

theorem deepCopy_yields (h : sp.Lawful Pixel) (ht : Valid sp Pixel src t) :
    YieldsNode sp Pixel must (fun q id => ItemAt sp src t q id) t.pixelId
      (someNode (deepCopy sp src t)) := by
  induction t using TreeNode.induct generalizing must with
  | h p f i cs ih =>
    rcases ht.cases with ⟨hne, hflags, -⟩ | ⟨hnil, hleaf⟩
    · obtain rfl : f = IS_INTERNAL := hflags
      obtain ⟨hcs, hsorted⟩ := ht.children
      have hsplits := ht.splits h hne
      have hkids : YieldsNodes sp Pixel (fun _ => True)
          (fun q id => ItemAt sp src (.node p IS_INTERNAL i cs) q id)
          (· ∈ cs.map TreeNode.pixelId)
          (eachNode cs fun c _ => someNode (deepCopy sp src c)) :=
        eachNode_yields hsorted fun c hc => by
          have hcopy : YieldsNode sp Pixel (fun _ => True) (fun q id => ItemAt sp src c q id)
              c.pixelId (someNode (deepCopy sp src c)) := ih c hc (hcs c hc).2
          exact hcopy.congr (fun _ => trivial) fun q hq hcov id =>
            (itemAt_child h ht hc hq.1 hcov).symm
      intro dest
      obtain ⟨ts, dest', hrun, hprefix, hts⟩ := hkids dest
      have hts_ne : ts ≠ [] := by
        obtain ⟨c, hc⟩ := List.exists_mem_of_ne_nil cs hne
        obtain ⟨t, ht, -⟩ := hts.present c.pixelId (List.mem_map_of_mem hc) trivial
        exact List.ne_nil_of_mem ht
      refine ⟨_, dest', ?_, hprefix, hts.nodeOk h hsplits hts_ne must i⟩
      rw [someNode, deepCopy_internal hne hrun, ok_bind]
      rfl
    · obtain rfl : cs = [] := hnil
      have hp : Pixel p := ht.shaped.pixel
      intro dest
      rw [someNode, deepCopy_leaf rfl]
      have hkeep : ∀ dest, Valid sp Pixel dest (.node p f i []) →
          leafItems sp dest (.node p f i []) = leafItems sp src (.node p f i []) →
          NodeOk sp Pixel must (fun q id => ItemAt sp src (.node p f i []) q id) p dest
            (some (.node p f i [])) := by
        intro dest hvalid hitems
        refine ⟨fun t ht => ?_, fun _ => ⟨_, rfl⟩, fun q _ _ id => ?_⟩
        · obtain rfl := Option.mem_some_iff.mp ht
          exact ⟨rfl, hvalid⟩
        · simp only [Option.mem_some_iff, exists_eq_left', ItemAt, leaves, List.mem_singleton,
            exists_eq_left, hitems]
      cases hleaf with
      | full =>
        rw [isFetched_eq_false rfl]
        refine ⟨_, dest, rfl, List.prefix_refl dest, hkeep dest ⟨.leaf hp, fun l hl => ?_⟩ ?_⟩
        · obtain rfl := List.mem_singleton.mp (by rwa [leaves] at hl)
          exact .full
        · rw [leafItems_full, leafItems_full]
      | partialMatch hi hpos hsub =>
        rw [isFetched_eq_false rfl]
        refine ⟨_, dest, rfl, List.prefix_refl dest, hkeep dest ⟨.leaf hp, fun l hl => ?_⟩ ?_⟩
        · obtain rfl := List.mem_singleton.mp (by rwa [leaves] at hl)
          exact .partialMatch hi hpos hsub
        · rw [leafItems_partialMatch, leafItems_partialMatch]
      | @fetched _ _ idx hi hsub =>
        have hread := leafItems_fetched sp p hi []
        rw [isFetched_fetched, if_pos rfl, items_of_leaf, hread, ok_bind]
        have hfresh : YieldsNode sp Pixel must
            (fun q id => ItemAt sp src (.node p IS_FETCHED i []) q id) p
            (someNode (fetchedLeaf p idx)) :=
          fetchedLeaf_yields hp hsub fun q _ hcov id => by
            rw [itemAt_leaf rfl hread]
            exact and_iff_right hcov
        exact hfresh dest

theorem deepCopy_child_yields (h : sp.Lawful Pixel) {t c : TreeNode} (ht : Valid sp Pixel F t)
    (hc : c ∈ t.children) :
    YieldsNode sp Pixel must (fun q id => ItemAt sp F t q id) c.pixelId
      (someNode (deepCopy sp F c)) := by
  have hcopy : YieldsNode sp Pixel must (fun q id => ItemAt sp F c q id) c.pixelId
      (someNode (deepCopy sp F c)) := deepCopy_yields h (ht.children.1 c hc).2
  exact hcopy.congr (fun hmust => hmust) fun q hq hcov id => (itemAt_child h ht hc hq.1 hcov).symm

end Sserialize.HCQRSpatialGrid
