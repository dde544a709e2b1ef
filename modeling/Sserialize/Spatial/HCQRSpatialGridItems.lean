import Sserialize.Spatial.HCQRFromCellsCorrect
import Sserialize.Spatial.HCQRSpatialGridOps

namespace Sserialize.HCQRSpatialGrid

structure Space.Lawful (sp : Space) (Pixel : Nat → Prop) : Prop where
  grid : sp.sg.Lawful Pixel
  items : ∀ p, Pixel p → 0 < sp.sg.childrenCount p → ∀ id, id ∈ (sp.sgi.items p).ids ↔
    ∃ c, Pixel c ∧ 0 < sp.sg.level c ∧ sp.sg.parent c = .ok p ∧ id ∈ (sp.sgi.items c).ids

def Finest (sp : Space) (Pixel : Nat → Prop) (q : Nat) : Prop :=
  Pixel q ∧ sp.sg.childrenCount q = 0

def ItemAt (sp : Space) (fetchedItems : List ItemIndex) (t : TreeNode) (q id : Nat) : Prop :=
  ∃ l ∈ leaves t, sp.sg.Covers l.pixelId q ∧
    (∃ i, leafItems sp fetchedItems l = .ok i ∧ id ∈ i.ids) ∧ id ∈ (sp.sgi.items q).ids

variable {sp : Space} {Pixel : Nat → Prop} {F F' : List ItemIndex}

theorem Space.Lawful.childrenCount_pos (h : sp.Lawful Pixel) {p c : Nat} (hc : Pixel c)
    (hlevel : 0 < sp.sg.level c) (hparent : sp.sg.parent c = .ok p) :
    0 < sp.sg.childrenCount p := by
  obtain ⟨i, hi, -⟩ := h.grid.child_index p c hc hlevel hparent
  exact Nat.zero_lt_of_lt hi

theorem Space.Lawful.items_subset (h : sp.Lawful Pixel) {p q id : Nat} (hpq : sp.sg.Covers p q)
    (hq : Pixel q) (hid : id ∈ (sp.sgi.items q).ids) : id ∈ (sp.sgi.items p).ids := by
  induction hpq with
  | refl => exact hid
  | @child q c _ hlevel hparent ih =>
    have hpixel := (h.grid.level_parent hq hlevel hparent).1
    have hcount := h.childrenCount_pos hq hlevel hparent
    exact ih hpixel ((h.items q hpixel hcount id).mpr ⟨c, hq, hlevel, hparent, hid⟩)

theorem Space.Lawful.exists_child (h : sp.Lawful Pixel) {p q : Nat} (hq : Finest sp Pixel q)
    (hcov : sp.sg.Covers p q) (hcount : 0 < sp.sg.childrenCount p) :
    ∃ c, Pixel c ∧ 0 < sp.sg.level c ∧ sp.sg.parent c = .ok p ∧ sp.sg.Covers c q := by
  have hne : p ≠ q := by
    rintro rfl
    exact Nat.ne_of_gt hcount hq.2
  obtain ⟨c, hlevel, hparent, hcq⟩ := hcov.exists_child hne
  exact ⟨c, hcq.pixel h.grid hq.1, hlevel, hparent, hcq⟩

theorem Space.Lawful.child_eq (h : sp.Lawful Pixel) {p c d q : Nat} (hq : Pixel q)
    (hc : 0 < sp.sg.level c ∧ sp.sg.parent c = .ok p) (hcq : sp.sg.Covers c q)
    (hd : 0 < sp.sg.level d ∧ sp.sg.parent d = .ok p) (hdq : sp.sg.Covers d q) : c = d := by
  have hlevelc := (h.grid.level_parent (hcq.pixel h.grid hq) hc.1 hc.2).2
  have hleveld := (h.grid.level_parent (hdq.pixel h.grid hq) hd.1 hd.2).2
  exact hcq.eq_of_level h.grid hdq hq (hlevelc.trans hleveld.symm)

variable {t : TreeNode}

theorem isInternal_of_ne_nil (h : t.children ≠ []) : t.isInternal = true := by
  simpa [TreeNode.isInternal] using h

theorem isLeaf_of_ne_nil (h : t.children ≠ []) : t.isLeaf = false := by
  simpa [TreeNode.isLeaf] using h

theorem isInternal_of_nil (h : t.children = []) : t.isInternal = false := by
  simp [TreeNode.isInternal, h]

theorem isLeaf_of_nil (h : t.children = []) : t.isLeaf = true := by
  simp [TreeNode.isLeaf, h]

variable (p i : Nat)

theorem isFullMatch_internal (cs : List TreeNode) :
    (TreeNode.node p IS_INTERNAL i cs).isFullMatch = false := by
  simp [TreeNode.isFullMatch, TreeNode.flags, IS_INTERNAL, IS_FULL_MATCH]

theorem isFullMatch_fetched (cs : List TreeNode) :
    (TreeNode.node p IS_FETCHED i cs).isFullMatch = false := by
  simp [TreeNode.isFullMatch, TreeNode.flags, IS_FETCHED, IS_FULL_MATCH]

theorem isFullMatch_partialMatch (cs : List TreeNode) :
    (TreeNode.node p IS_PARTIAL_MATCH i cs).isFullMatch = false := by
  simp [TreeNode.isFullMatch, TreeNode.flags, IS_PARTIAL_MATCH, IS_FULL_MATCH]

theorem isFetched_eq_false {p fl i : Nat} {cs : List TreeNode} (h : fl &&& IS_FETCHED = 0) :
    (TreeNode.node p fl i cs).isFetched = false := by
  rw [TreeNode.isFetched]
  exact decide_eq_false (not_not.mpr h)

theorem isFetched_fetched (cs : List TreeNode) :
    (TreeNode.node p IS_FETCHED i cs).isFetched = true := by
  simp [TreeNode.isFetched, TreeNode.flags, IS_FETCHED]

theorem Shaped.pixel (h : Shaped sp.sg Pixel t) : Pixel t.pixelId := by
  cases h with
  | leaf hp => exact hp
  | internal hp => exact hp

theorem Shaped.covers {t l : TreeNode} (h : Shaped sp.sg Pixel t) (hl : l ∈ leaves t) :
    sp.sg.Covers t.pixelId l.pixelId := by
  induction t using TreeNode.induct with
  | h p f i cs ih =>
    cases h with
    | leaf =>
      obtain rfl := List.mem_singleton.mp (by rwa [leaves] at hl)
      exact .refl
    | internal _ hne hparent _ hcs =>
      rw [leaves_internal hne] at hl
      obtain ⟨c, hc, hl⟩ := List.mem_flatMap.mp hl
      obtain ⟨hlevel, hp⟩ := hparent c hc
      exact (SpatialGrid.Covers.child .refl hlevel hp).trans (ih c hc (hcs c hc) hl)

theorem LeafOk.mono {l : TreeNode} (h : LeafOk sp F l) (hF : F <+: F') :
    LeafOk sp F' l ∧ leafItems sp F' l = leafItems sp F l := by
  cases h with
  | full => exact ⟨.full, by rw [leafItems_full, leafItems_full]⟩
  | @fetched p i idx hi hitems =>
    obtain ⟨more, rfl⟩ := hF
    have hlt := (List.getElem?_eq_some_iff.mp hi).1
    have hi' : (F ++ more)[i]? = some idx := by rw [List.getElem?_append_left hlt, hi]
    exact ⟨.fetched hi' hitems, by rw [leafItems_fetched sp _ hi, leafItems_fetched sp _ hi']⟩
  | partialMatch hi hpos hitems =>
    exact ⟨.partialMatch hi hpos hitems, by rw [leafItems_partialMatch, leafItems_partialMatch]⟩

theorem Valid.mono (h : Valid sp Pixel F t) (hF : F <+: F') :
    Valid sp Pixel F' t where
  shaped := h.shaped
  leafOk l hl := ((h.leafOk l hl).mono hF).1

variable {q id : Nat}

theorem itemAt_mono (h : Valid sp Pixel F t) (hF : F <+: F') :
    ItemAt sp F' t q id ↔ ItemAt sp F t q id := by
  refine exists_congr fun l => and_congr_right fun hl => ?_
  rw [((h.leafOk l hl).mono hF).2]

theorem LeafOk.items_eq {l : TreeNode} (h : LeafOk sp F l) :
    ∃ x, items sp F l = .ok x ∧ leafItems sp F l = .ok x ∧
      (∀ id ∈ x.ids, id ∈ (sp.sgi.items l.pixelId).ids) ∧
      (l.isFullMatch = true → x = sp.sgi.items l.pixelId) := by
  cases h with
  | @full p =>
    have hx := leafItems_full sp F p npos []
    exact ⟨_, by rw [items_of_leaf, hx], hx, fun id hid => hid, fun _ => rfl⟩
  | @fetched p i idx hi hitems =>
    have hx := leafItems_fetched sp p hi []
    exact ⟨_, by rw [items_of_leaf, hx], hx, hitems, fun hfull => by
      rw [isFullMatch_fetched] at hfull
      cases hfull⟩
  | @partialMatch p i hi hpos hitems =>
    have hx := leafItems_partialMatch sp F p i []
    exact ⟨_, by rw [items_of_leaf, hx], hx, hitems, fun hfull => by
      rw [isFullMatch_partialMatch] at hfull
      cases hfull⟩

theorem Valid.cases (h : Valid sp Pixel F t) :
    (t.children ≠ [] ∧ t.flags = IS_INTERNAL ∧ t.isFullMatch = false) ∨
      (t.children = [] ∧ LeafOk sp F t) := by
  have hshaped := h.shaped
  cases hshaped with
  | leaf hp => exact .inr ⟨rfl, h.leafOk _ (by rw [leaves]; exact List.mem_singleton_self _)⟩
  | internal hp hne => exact .inl ⟨hne, rfl, isFullMatch_internal _ _ _⟩

theorem Valid.children (h : Valid sp Pixel F t) :
    (∀ c ∈ t.children, (0 < sp.sg.level c.pixelId ∧ sp.sg.parent c.pixelId = .ok t.pixelId) ∧
      Valid sp Pixel F c) ∧ t.children.Pairwise fun a b => a.pixelId < b.pixelId := by
  obtain ⟨hshaped, hleaf⟩ := h
  cases hshaped with
  | leaf hp => exact ⟨fun c hc => absurd hc List.not_mem_nil, List.Pairwise.nil⟩
  | internal hp hne hparent hsorted hcs =>
    refine ⟨fun c hc => ⟨hparent c hc, hcs c hc, fun l hl => hleaf l ?_⟩, hsorted⟩
    rw [leaves_internal hne]
    exact List.mem_flatMap.mpr ⟨c, hc, hl⟩

theorem ItemAt.covers (h : Shaped sp.sg Pixel t) (hitem : ItemAt sp F t q id) :
    sp.sg.Covers t.pixelId q := by
  obtain ⟨l, hl, hcov, -⟩ := hitem
  exact (h.covers hl).trans hcov

theorem ItemAt.mem_items (hitem : ItemAt sp F t q id) : id ∈ (sp.sgi.items q).ids := by
  obtain ⟨l, -, -, -, hid⟩ := hitem
  exact hid

theorem itemAt_node {p f i : Nat} {cs : List TreeNode} (hne : cs ≠ []) :
    ItemAt sp F (.node p f i cs) q id ↔ ∃ c ∈ cs, ItemAt sp F c q id := by
  rw [ItemAt, leaves_internal hne]
  constructor
  · rintro ⟨l, hl, h⟩
    obtain ⟨c, hc, hl⟩ := List.mem_flatMap.mp hl
    exact ⟨c, hc, l, hl, h⟩
  · rintro ⟨c, hc, l, hl, h⟩
    exact ⟨l, List.mem_flatMap.mpr ⟨c, hc, hl⟩, h⟩

theorem itemAt_internal (hne : t.children ≠ []) :
    ItemAt sp F t q id ↔ ∃ c ∈ t.children, ItemAt sp F c q id := by
  cases t with
  | node p f i cs => exact itemAt_node hne

theorem itemAt_leaf (hleaf : t.children = []) {x : ItemIndex} (hx : leafItems sp F t = .ok x) :
    ItemAt sp F t q id ↔ sp.sg.Covers t.pixelId q ∧ id ∈ x.ids ∧ id ∈ (sp.sgi.items q).ids := by
  simp [ItemAt, leaves_of_leaf hleaf, hx]

theorem itemAt_child (h : sp.Lawful Pixel) {t c : TreeNode} (ht : Valid sp Pixel F t)
    (hc : c ∈ t.children) (hq : Pixel q) (hcov : sp.sg.Covers c.pixelId q) :
    ItemAt sp F t q id ↔ ItemAt sp F c q id := by
  obtain ⟨hcs, hsorted⟩ := ht.children
  rw [itemAt_internal (List.ne_nil_of_mem hc)]
  constructor
  · rintro ⟨d, hd, hitem⟩
    have hdq := hitem.covers (hcs d hd).2.shaped
    have heq := h.child_eq hq (hcs c hc).1 hcov (hcs d hd).1 hdq
    have hnodup : (t.children.map TreeNode.pixelId).Nodup :=
      List.pairwise_map.mpr (hsorted.imp fun hlt => Nat.ne_of_lt hlt)
    obtain rfl := List.inj_on_of_nodup_map hnodup hc hd heq
    exact hitem
  · exact fun hitem => ⟨c, hc, hitem⟩

theorem ItemAt.exists_child (h : sp.Lawful Pixel) (ht : Valid sp Pixel F t)
    (hne : t.children ≠ []) {c q id : Nat} (hq : Pixel q)
    (hc : 0 < sp.sg.level c ∧ sp.sg.parent c = .ok t.pixelId) (hcov : sp.sg.Covers c q)
    (hitem : ItemAt sp F t q id) : c ∈ t.children.map TreeNode.pixelId := by
  obtain ⟨d, hd, hitem⟩ := (itemAt_internal hne).mp hitem
  have hdv := ht.children.1 d hd
  have heq := h.child_eq hq hc hcov hdv.1 (hitem.covers hdv.2.shaped)
  exact List.mem_map.mpr ⟨d, hd, heq.symm⟩

end Sserialize.HCQRSpatialGrid
