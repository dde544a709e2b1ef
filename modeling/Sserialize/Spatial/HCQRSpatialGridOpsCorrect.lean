import Sserialize.Spatial.HCQRSpatialGridNodes

namespace Sserialize.HCQRSpatialGrid

structure Meet (sp : Space) (a b : TreeNode) (m : Nat) : Prop where
  first : sp.sg.Covers a.pixelId m
  second : sp.sg.Covers b.pixelId m
  finer : m = a.pixelId ∨ m = b.pixelId
  firstLeaf : a.pixelId ≠ m → a.children = []
  secondLeaf : b.pixelId ≠ m → b.children = []

def Wanted (sp : Space) (F₁ F₂ : List ItemIndex) (op : SetOp) (a b : TreeNode) (q id : Nat) :
    Prop :=
  op.Holds (ItemAt sp F₁ a q id) (ItemAt sp F₂ b q id)

variable {sp : Space} {Pixel must : Nat → Prop} {F₁ F₂ : List ItemIndex} {a b : TreeNode} {m : Nat}

namespace Meet

theorem swap (h : Meet sp a b m) : Meet sp b a m where
  first := h.second
  second := h.first
  finer := h.finer.symm
  firstLeaf := h.secondLeaf
  secondLeaf := h.firstLeaf

theorem pixel_first (h : Meet sp a b m) (hne : a.children ≠ []) : a.pixelId = m := by
  by_contra hm
  exact hne (h.firstLeaf hm)

theorem pixel_second (h : Meet sp a b m) (hne : b.children ≠ []) : b.pixelId = m :=
  h.swap.pixel_first hne

theorem pixel (h : Meet sp a b m) (ha : Pixel a.pixelId) (hb : Pixel b.pixelId) : Pixel m := by
  rcases h.finer with rfl | rfl
  · exact ha
  · exact hb

theorem children {f s : TreeNode} (heq : f.pixelId = s.pixelId) : Meet sp f s f.pixelId where
  first := .refl
  second := by rw [heq]; exact .refl
  finer := Or.inl rfl
  firstLeaf hne := absurd rfl hne
  secondLeaf hne := absurd heq.symm hne

theorem child_leaf (h : Meet sp a b m) (ha : Valid sp Pixel F₁ a) (hb : b.children = [])
    {f : TreeNode} (hf : f ∈ a.children) : Meet sp f b f.pixelId where
  first := .refl
  second := by
    obtain ⟨hlevel, hparent⟩ := (ha.children.1 f hf).1
    rw [h.pixel_first (List.ne_nil_of_mem hf)] at hparent
    exact .child h.second hlevel hparent
  finer := Or.inl rfl
  firstLeaf hne := absurd rfl hne
  secondLeaf _ := hb

theorem resultPixelId (hsp : sp.Lawful Pixel) (h : Meet sp a b m) (ha : Pixel a.pixelId)
    (hb : Pixel b.pixelId) : resultPixelId sp a b = .ok m := by
  rw [HCQRSpatialGrid.resultPixelId]
  split
  · rename_i heq
    rcases h.finer with rfl | rfl
    · rfl
    · rw [heq]
  · rename_i hne
    have hancestor := fun p q hp hq => hsp.grid.isAncestor_iff p q hp hq
    rcases h.finer with rfl | rfl
    · have hlt := h.second.level_lt hsp.grid ha (Ne.symm hne)
      have hnot : sp.sg.isAncestor a.pixelId b.pixelId = false := by
        refine Bool.eq_false_iff.mpr fun htrue => ?_
        have hle := ((hancestor _ _ ha hb).mp htrue).1.level_le hsp.grid hb
        omega
      have hyes := (hancestor _ _ hb ha).mpr ⟨h.second, Ne.symm hne⟩
      rw [hnot, if_neg Bool.false_ne_true, if_pos hyes]
    · rw [if_pos ((hancestor _ _ ha hb).mpr ⟨h.first, hne⟩)]

end Meet

section

variable (hsp : sp.Lawful Pixel) (h : Meet sp a b m) (ha : Valid sp Pixel F₁ a)
  (hb : Valid sp Pixel F₂ b) (op : SetOp)

include hsp h ha

theorem splits_first (hane : a.children ≠ [])
    (hop : ∀ q id, Wanted sp F₁ F₂ op a b q id → ItemAt sp F₁ a q id) :
    Splits sp Pixel (Wanted sp F₁ F₂ op a b) (· ∈ a.children.map TreeNode.pixelId) m := by
  have hfirst := ha.splits hsp hane
  rw [h.pixel_first hane] at hfirst
  exact ⟨hfirst.pixel, hfirst.children, hfirst.child, fun c q hc hparent hq hcov id hid =>
    hfirst.enough c q hc hparent hq hcov id (hop q id hid)⟩

include hb

theorem splits_both (hane : a.children ≠ []) (hbne : b.children ≠ []) :
    Splits sp Pixel (Wanted sp F₁ F₂ op a b)
      (fun c => c ∈ a.children.map TreeNode.pixelId ∨ c ∈ b.children.map TreeNode.pixelId) m := by
  have hfirst := ha.splits hsp hane
  have hsecond := hb.splits hsp hbne
  rw [h.pixel_first hane] at hfirst
  rw [h.pixel_second hbne] at hsecond
  refine ⟨hfirst.pixel, hfirst.children, ?_, ?_⟩
  · rintro c (hc | hc)
    · exact hfirst.child c hc
    · exact hsecond.child c hc
  · intro c q hc hparent hq hcov id hid
    rcases op.or_of_holds hid with hid | hid
    · exact .inl (hfirst.enough c q hc hparent hq hcov id hid)
    · exact .inr (hsecond.enough c q hc hparent hq hcov id hid)

omit ha in
theorem splits_second (hbne : b.children ≠ [])
    (hop : ∀ q id, Wanted sp F₁ F₂ op a b q id → ItemAt sp F₂ b q id) :
    Splits sp Pixel (Wanted sp F₁ F₂ op a b) (· ∈ b.children.map TreeNode.pixelId) m := by
  have hsecond := hb.splits hsp hbne
  rw [h.pixel_second hbne] at hsecond
  exact ⟨hsecond.pixel, hsecond.children, hsecond.child, fun c q hc hparent hq hcov id hid =>
    hsecond.enough c q hc hparent hq hcov id (hop q id hid)⟩

end

theorem splits_pids {P : Nat → Nat → Prop} (hsp : sp.Lawful Pixel) (hb : Valid sp Pixel F₂ b)
    (hbne : b.children ≠ []) {pids : List Nat}
    (hmem : ∀ c, c ∈ pids ↔ Pixel c ∧ 0 < sp.sg.level c ∧ sp.sg.parent c = .ok b.pixelId) :
    Splits sp Pixel P (· ∈ pids) b.pixelId where
  pixel := hb.shaped.pixel
  children := (hb.splits hsp hbne).children
  child c hc := ((hmem c).mp hc).2
  enough c _ hc hparent _ _ _ _ := (hmem c).mpr ⟨hc, hparent⟩

section

variable (hsp : sp.Lawful Pixel) {op : SetOp} {q id : Nat} (hq : Finest sp Pixel q)

include hsp hq

theorem wanted_first (ha : Valid sp Pixel F₁ a) {f : TreeNode} (hf : f ∈ a.children)
    (hcov : sp.sg.Covers f.pixelId q) :
    Wanted sp F₁ F₂ op f b q id ↔ Wanted sp F₁ F₂ op a b q id :=
  op.holds_congr (itemAt_child hsp ha hf hq.1 hcov).symm Iff.rfl

theorem wanted_second (hb : Valid sp Pixel F₂ b) {s : TreeNode} (hs : s ∈ b.children)
    (hcov : sp.sg.Covers s.pixelId q) :
    Wanted sp F₁ F₂ op a s q id ↔ Wanted sp F₁ F₂ op a b q id :=
  op.holds_congr Iff.rfl (itemAt_child hsp hb hs hq.1 hcov).symm

theorem wanted_children (ha : Valid sp Pixel F₁ a) (hb : Valid sp Pixel F₂ b) {f s : TreeNode}
    (hf : f ∈ a.children) (hs : s ∈ b.children) (heq : f.pixelId = s.pixelId)
    (hcov : sp.sg.Covers f.pixelId q) :
    Wanted sp F₁ F₂ op f s q id ↔ Wanted sp F₁ F₂ op a b q id :=
  (wanted_first hsp hq ha hf hcov).trans (wanted_second hsp hq hb hs (heq ▸ hcov))

theorem not_itemAt_second (h : Meet sp a b m) (ha : Valid sp Pixel F₁ a) (hb : Valid sp Pixel F₂ b)
    (hbne : b.children ≠ []) {f : TreeNode} (hf : f ∈ a.children)
    (hnot : f.pixelId ∉ b.children.map TreeNode.pixelId) (hcov : sp.sg.Covers f.pixelId q) :
    ¬ ItemAt sp F₂ b q id := by
  intro hitem
  obtain ⟨hlevel, hparent⟩ := (ha.children.1 f hf).1
  rw [h.pixel_first (List.ne_nil_of_mem hf), ← h.pixel_second hbne] at hparent
  exact hnot (hitem.exists_child hsp hb hbne hq.1 ⟨hlevel, hparent⟩ hcov)

end

theorem Valid.leafItems (ha : Valid sp Pixel F₁ a) (hleaf : a.children = []) :
    ∃ x, items sp F₁ a = .ok x ∧ (∀ id ∈ x.ids, id ∈ (sp.sgi.items a.pixelId).ids) ∧
      (a.isFullMatch = true → x = sp.sgi.items a.pixelId) ∧
      ∀ q, sp.sg.Covers a.pixelId q → ∀ id,
        ItemAt sp F₁ a q id ↔ id ∈ x.ids ∧ id ∈ (sp.sgi.items q).ids := by
  rcases ha.cases with ⟨hne, -⟩ | ⟨-, hok⟩
  · exact absurd hleaf hne
  · obtain ⟨x, hx, hread, hsub, hfull⟩ := hok.items_eq
    refine ⟨x, hx, hsub, hfull, fun q hcov id => ?_⟩
    rw [itemAt_leaf hleaf hread]
    exact and_iff_right hcov

theorem isFullMatch_of_ne_nil (ha : Valid sp Pixel F₁ a) (hne : a.children ≠ []) :
    a.isFullMatch = false := by
  rcases ha.cases with ⟨-, -, hfull⟩ | ⟨hnil, -⟩
  · exact hfull
  · exact absurd hnil hne

theorem itemAt_of_full (hsp : sp.Lawful Pixel) {x : ItemIndex}
    (hfull : x = sp.sgi.items a.pixelId) (hcov : sp.sg.Covers a.pixelId m) {q : Nat}
    (hq : Finest sp Pixel q) (hmq : sp.sg.Covers m q) {id : Nat}
    (hid : id ∈ (sp.sgi.items q).ids) : id ∈ x.ids := by
  rw [hfull]
  exact hsp.items_subset (hcov.trans hmq) hq.1 hid

section

variable {dest dest' : List ItemIndex} {ts : List TreeNode}

theorem intersectNodes_internal (hp : resultPixelId sp a b = .ok m)
    (hfull : a.isFullMatch = false ∧ b.isFullMatch = false)
    (hne : a.children ≠ [] ∨ b.children ≠ [])
    (hrun : (if a.isInternal && b.isInternal then
        mergeNodes (fun _ => noNode) (fun _ => noNode) a.children b.children
          (fun f _ s _ => intersectNodes sp F₁ F₂ f s) dest
      else if a.isInternal then
        eachNode a.children (fun f _ => intersectNodes sp F₁ F₂ f b) dest
      else eachNode b.children (fun s _ => intersectNodes sp F₁ F₂ a s) dest) = .ok (ts, dest')) :
    intersectNodes sp F₁ F₂ a b dest = .ok (internalNode? m ts, dest') := by
  have hleaf : (a.isLeaf && b.isLeaf) = false := by
    rcases hne with hne | hne
    · rw [isLeaf_of_ne_nil hne, Bool.false_and]
    · rw [isLeaf_of_ne_nil hne, Bool.and_false]
  rw [intersectNodes]
  simp only [hfull.1, hfull.2, hleaf, Bool.false_and, Bool.false_eq_true, if_false, hp, ok_bind]
  split_ifs at hrun ⊢
  · rw [hrun, ok_bind]
    rfl
  · rw [hrun, ok_bind]
    rfl
  · rw [hrun, ok_bind]
    rfl

end

theorem intersectNodes_yields (hsp : sp.Lawful Pixel) (hmust : ∀ c, ¬ must c)
    (ha : Valid sp Pixel F₁ a) (hb : Valid sp Pixel F₂ b) (h : Meet sp a b m) :
    YieldsNode sp Pixel must (Wanted sp F₁ F₂ .intersect a b) m (intersectNodes sp F₁ F₂ a b) := by
  induction hn : sizeOf a + sizeOf b using Nat.strong_induction_on generalizing a b m with
  | _ n ih =>
  subst hn
  have hm := h.pixel ha.shaped.pixel hb.shaped.pixel
  have hp := h.resultPixelId hsp ha.shaped.pixel hb.shaped.pixel
  by_cases hane : a.children = [] <;> by_cases hbne : b.children = []
  · -- two leaves
    obtain ⟨x, hx, hxsub, hxfull, hxitems⟩ := ha.leafItems hane
    obtain ⟨y, hy, hysub, hyfull, hyitems⟩ := hb.leafItems hbne
    have hwanted : ∀ q, Finest sp Pixel q → sp.sg.Covers m q → ∀ id,
        Wanted sp F₁ F₂ .intersect a b q id ↔
          id ∈ (ItemIndex.apply .intersect x y).ids ∧ id ∈ (sp.sgi.items q).ids := by
      intro q _ hcov id
      rw [ItemIndex.mem_apply, ← SetOp.holds_and]
      exact SetOp.holds_congr _ (hxitems q (h.first.trans hcov) id)
        (hyitems q (h.second.trans hcov) id)
    by_cases hfull : a.isFullMatch = true ∧ b.isFullMatch = true
    · have hrun : intersectNodes sp F₁ F₂ a b =
          someNode fun dest => .ok (fullLeaf m, dest) := by
        funext dest
        rw [intersectNodes]
        simp only [hfull.1, hfull.2, Bool.and_self, if_true, hp, ok_bind]
        rfl
      rw [hrun]
      refine fullLeaf_yields hm (fun q hq hcov id => ?_) hsp
      rw [hwanted q hq hcov, ItemIndex.mem_apply]
      refine ⟨fun hid => hid.2, fun hid => ⟨⟨?_, ?_⟩, hid⟩⟩
      · exact itemAt_of_full hsp (hxfull hfull.1) h.first hq hcov hid
      · exact itemAt_of_full hsp (hyfull hfull.2) h.second hq hcov hid
    · have hfulls : (a.isFullMatch && b.isFullMatch) = false := by
        rw [Bool.and_eq_false_iff]
        by_cases hafull : a.isFullMatch = true
        · exact .inr (Bool.eq_false_iff.mpr fun hbfull => hfull ⟨hafull, hbfull⟩)
        · exact .inl (Bool.eq_false_iff.mpr hafull)
      have hrun : intersectNodes sp F₁ F₂ a b =
          fetchedLeaf? m (ItemIndex.apply .intersect x y) := by
        funext dest
        rw [intersectNodes]
        simp only [hfulls, isInternal_of_nil hane, isInternal_of_nil hbne, isLeaf_of_nil hane,
          isLeaf_of_nil hbne, Bool.and_false, Bool.false_eq_true, if_false, Bool.and_self, if_true,
          hx, hy, hp, ok_bind]
      rw [hrun]
      refine fetchedLeaf?_yields hm (hmust m) (fun id hid => ?_) hwanted
      have hid' := (ItemIndex.mem_apply .intersect x y id).mp hid
      rcases h.finer with rfl | rfl
      · exact hxsub id hid'.1
      · exact hysub id hid'.2
  · -- a leaf and an internal node
    obtain ⟨x, -, -, hxfull, hxitems⟩ := ha.leafItems hane
    have hbm := h.pixel_second hbne
    have hbfull := isFullMatch_of_ne_nil hb hbne
    by_cases hafull : a.isFullMatch = true
    · have hrun : intersectNodes sp F₁ F₂ a b = someNode (deepCopy sp F₂ b) := by
        funext dest
        rw [intersectNodes]
        simp only [hafull, hbfull, isInternal_of_ne_nil hbne, Bool.and_false, Bool.false_eq_true,
          if_false, Bool.and_self, if_true]
      rw [hrun, ← hbm]
      refine (deepCopy_yields hsp hb).congr (fun hc => hc) fun q hq hcov id => ?_
      rw [hbm] at hcov
      refine ⟨fun hid => ⟨?_, hid⟩, fun hid => hid.2⟩
      rw [hxitems q (h.first.trans hcov)]
      exact ⟨itemAt_of_full hsp (hxfull hafull) h.first hq hcov hid.mem_items, hid.mem_items⟩
    · have hkids : YieldsNodes sp Pixel must (Wanted sp F₁ F₂ .intersect a b)
          (· ∈ b.children.map TreeNode.pixelId)
          (eachNode b.children fun s _ => intersectNodes sp F₁ F₂ a s) := by
        refine eachNode_yields hb.children.2 fun s hs => ?_
        have hlt := sizeOf_lt_of_mem_children hs
        have hstep := ih (sizeOf a + sizeOf s) (by omega) ha (hb.children.1 s hs).2
          (h.swap.child_leaf hb hane hs).swap rfl
        exact hstep.congr (fun hc => hc) fun q hq hcov id => wanted_second hsp hq hb hs hcov
      intro dest
      obtain ⟨ts, dest', hrun, hprefix, hts⟩ := hkids dest
      refine ⟨_, dest', ?_, hprefix, hts.internalNode? hsp
        (splits_second hsp h hb .intersect hbne fun q id hid => hid.2) (hmust m)⟩
      refine intersectNodes_internal hp ⟨Bool.eq_false_iff.mpr hafull, hbfull⟩ (.inr hbne) ?_
      rw [isInternal_of_nil hane, Bool.false_and, if_neg Bool.false_ne_true,
        if_neg Bool.false_ne_true, hrun]
  · -- an internal node and a leaf
    obtain ⟨y, -, -, hyfull, hyitems⟩ := hb.leafItems hbne
    have ham := h.pixel_first hane
    have hafull := isFullMatch_of_ne_nil ha hane
    by_cases hbfull : b.isFullMatch = true
    · have hrun : intersectNodes sp F₁ F₂ a b = someNode (deepCopy sp F₁ a) := by
        funext dest
        rw [intersectNodes]
        simp only [hafull, hbfull, isInternal_of_ne_nil hane, Bool.false_and, Bool.false_eq_true,
          if_false, Bool.and_self, if_true]
      rw [hrun, ← ham]
      refine (deepCopy_yields hsp ha).congr (fun hc => hc) fun q hq hcov id => ?_
      rw [ham] at hcov
      refine ⟨fun hid => ⟨hid, ?_⟩, fun hid => hid.1⟩
      rw [hyitems q (h.second.trans hcov)]
      exact ⟨itemAt_of_full hsp (hyfull hbfull) h.second hq hcov hid.mem_items, hid.mem_items⟩
    · have hkids : YieldsNodes sp Pixel must (Wanted sp F₁ F₂ .intersect a b)
          (· ∈ a.children.map TreeNode.pixelId)
          (eachNode a.children fun f _ => intersectNodes sp F₁ F₂ f b) := by
        refine eachNode_yields ha.children.2 fun f hf => ?_
        have hlt := sizeOf_lt_of_mem_children hf
        have hstep := ih (sizeOf f + sizeOf b) (by omega) (ha.children.1 f hf).2 hb
          (h.child_leaf ha hbne hf) rfl
        exact hstep.congr (fun hc => hc) fun q hq hcov id => wanted_first hsp hq ha hf hcov
      intro dest
      obtain ⟨ts, dest', hrun, hprefix, hts⟩ := hkids dest
      refine ⟨_, dest', ?_, hprefix, hts.internalNode? hsp
        (splits_first hsp h ha .intersect hane fun q id hid => hid.1) (hmust m)⟩
      refine intersectNodes_internal hp ⟨hafull, Bool.eq_false_iff.mpr hbfull⟩ (.inl hane) ?_
      rw [isInternal_of_nil hbne, Bool.and_false, if_neg Bool.false_ne_true,
        if_pos (isInternal_of_ne_nil hane), hrun]
  · -- two internal nodes
    have hkids : YieldsNodes sp Pixel must (Wanted sp F₁ F₂ .intersect a b)
        (fun c => c ∈ a.children.map TreeNode.pixelId ∨ c ∈ b.children.map TreeNode.pixelId)
        (mergeNodes (fun _ => noNode) (fun _ => noNode) a.children b.children
          fun f _ s _ => intersectNodes sp F₁ F₂ f s) :=
      mergeNodes_yields _ _ _ ha.children.2 hb.children.2
      (fun f hf hnot => yieldsNode_noNode (hmust _) fun q hq hcov id hid =>
        not_itemAt_second hsp hq h ha hb hbne hf hnot hcov hid.2)
      (fun s hs hnot => yieldsNode_noNode (hmust _) fun q hq hcov id hid =>
        not_itemAt_second hsp hq h.swap hb ha hane hs hnot hcov hid.1)
      (fun f hf s hs heq => by
        have hltf := sizeOf_lt_of_mem_children hf
        have hlts := sizeOf_lt_of_mem_children hs
        have hstep := ih (sizeOf f + sizeOf s) (by omega) (ha.children.1 f hf).2
          (hb.children.1 s hs).2 (Meet.children heq) rfl
        exact hstep.congr (fun hc => hc) fun q hq hcov id =>
          wanted_children hsp hq ha hb hf hs heq hcov)
    intro dest
    obtain ⟨ts, dest', hrun, hprefix, hts⟩ := hkids dest
    refine ⟨_, dest', ?_, hprefix, hts.internalNode? hsp
      (splits_both hsp h ha hb .intersect hane hbne) (hmust m)⟩
    refine intersectNodes_internal hp
      ⟨isFullMatch_of_ne_nil ha hane, isFullMatch_of_ne_nil hb hbne⟩ (.inl hane) ?_
    rw [isInternal_of_ne_nil hane, isInternal_of_ne_nil hbne, Bool.and_self, if_pos rfl, hrun]

theorem Meet.of_level (hsp : sp.Lawful Pixel) (h : Meet sp a b m) (ha : Pixel a.pixelId)
    (hle : sp.sg.level a.pixelId ≤ sp.sg.level b.pixelId) :
    b.pixelId = m := by
  rcases h.finer with rfl | rfl
  · have hge := h.second.level_le hsp.grid ha
    exact h.second.eq_of_level hsp.grid .refl ha (Nat.le_antisymm hge hle)
  · rfl

section

variable (hsp : sp.Lawful Pixel) (h : Meet sp a b m) (hb : Valid sp Pixel F₂ b)

include hsp h hb

theorem mergePids_second (op : SetOp) (hop : ∀ p : Prop, op.Holds p False ↔ p)
    (hane : a.children = []) (hbne : b.children ≠ []) {virt : Nat → Op (Option TreeNode)}
    {pids : List Nat} (hpids : pids.Pairwise (· < ·))
    (hmem : ∀ c, c ∈ pids ↔ Pixel c ∧ 0 < sp.sg.level c ∧ sp.sg.parent c = .ok m)
    (hvirt : ∀ c, Pixel c → sp.sg.Covers m c → c ∉ b.children.map TreeNode.pixelId →
      YieldsNode sp Pixel must (fun q id => ItemAt sp F₁ a q id) c (virt c))
    {each : ∀ s ∈ b.children, Op (Option TreeNode)}
    (heach : ∀ s hs, Meet sp a s s.pixelId →
      YieldsNode sp Pixel must (Wanted sp F₁ F₂ op a s) s.pixelId (each s hs)) :
    YieldsNodes sp Pixel must (Wanted sp F₁ F₂ op a b) (· ∈ pids)
      (mergePids virt b.children pids each) := by
  have hbm := h.pixel_second hbne
  refine mergePids_yields hpids hb.children.2 ?_ ?_ ?_
  · intro s hs
    obtain ⟨⟨hlevel, hparent⟩, hvalid⟩ := hb.children.1 s hs
    exact (hmem _).mpr ⟨hvalid.shaped.pixel, hlevel, hbm ▸ hparent⟩
  · intro c hc hnot
    obtain ⟨hpixel, hlevel, hparent⟩ := (hmem c).mp hc
    refine (hvirt c hpixel (.child .refl hlevel hparent) hnot).congr (fun hc => hc) ?_
    intro q hq hcov id
    have hno : ¬ ItemAt sp F₂ b q id := fun hitem =>
      hnot (hitem.exists_child hsp hb hbne hq.1 ⟨hlevel, hbm.symm ▸ hparent⟩ hcov)
    rw [Wanted, propext (iff_false_intro hno)]
    exact (hop _).symm
  · intro s hs
    have hmeet := (h.swap.child_leaf hb hane hs).swap
    exact (heach s hs hmeet).congr (fun hc => hc) fun q hq hcov id =>
      wanted_second hsp hq hb hs hcov

end

theorem wanted_leaves (hsp : sp.Lawful Pixel) (h : Meet sp a b m) (op : SetOp) {x y r : ItemIndex}
    (hxitems : ∀ q, sp.sg.Covers a.pixelId q → ∀ id,
      ItemAt sp F₁ a q id ↔ id ∈ x.ids ∧ id ∈ (sp.sgi.items q).ids)
    (hyitems : ∀ q, sp.sg.Covers b.pixelId q → ∀ id,
      ItemAt sp F₂ b q id ↔ id ∈ y.ids ∧ id ∈ (sp.sgi.items q).ids)
    (hr : ∀ id ∈ (sp.sgi.items m).ids, id ∈ r.ids ↔ op.Holds (id ∈ x.ids) (id ∈ y.ids)) :
    ∀ q, Finest sp Pixel q → sp.sg.Covers m q → ∀ id,
      Wanted sp F₁ F₂ op a b q id ↔ id ∈ r.ids ∧ id ∈ (sp.sgi.items q).ids := by
  intro q hq hcov id
  calc Wanted sp F₁ F₂ op a b q id
    _ ↔ op.Holds (id ∈ x.ids ∧ id ∈ (sp.sgi.items q).ids)
          (id ∈ y.ids ∧ id ∈ (sp.sgi.items q).ids) :=
      op.holds_congr (hxitems q (h.first.trans hcov) id) (hyitems q (h.second.trans hcov) id)
    _ ↔ op.Holds (id ∈ x.ids) (id ∈ y.ids) ∧ id ∈ (sp.sgi.items q).ids := op.holds_and
    _ ↔ id ∈ r.ids ∧ id ∈ (sp.sgi.items q).ids :=
      and_congr_left fun hid => (hr id (hsp.items_subset hcov hq.1 hid)).symm

theorem uniteLeaves_spec (hsp : sp.Lawful Pixel) (h : Meet sp a b m) (ha : Valid sp Pixel F₁ a)
    (hb : Valid sp Pixel F₂ b) (haleaf : a.children = []) (hbleaf : b.children = []) :
    ∃ r, uniteLeaves sp F₁ F₂ a b = .ok r ∧ (∀ id ∈ r.ids, id ∈ (sp.sgi.items m).ids) ∧
      ∀ q, Finest sp Pixel q → sp.sg.Covers m q → ∀ id,
        Wanted sp F₁ F₂ .unite a b q id ↔ id ∈ r.ids ∧ id ∈ (sp.sgi.items q).ids := by
  obtain ⟨x, hx, hxsub, -, hxitems⟩ := ha.leafItems haleaf
  obtain ⟨y, hy, hysub, -, hyitems⟩ := hb.leafItems hbleaf
  have hwanted := fun r => wanted_leaves (r := r) hsp h .unite hxitems hyitems
  have hapixel := ha.shaped.pixel
  have hbpixel := hb.shaped.pixel
  rw [uniteLeaves, hx, ok_bind, hy, ok_bind]
  by_cases heq : sp.sg.level a.pixelId = sp.sg.level b.pixelId
  · rw [if_pos heq]
    have hbm := h.of_level hsp hapixel (Nat.le_of_eq heq)
    have ham := h.swap.of_level hsp hbpixel (Nat.le_of_eq heq.symm)
    refine ⟨_, rfl, fun id hid => ?_, hwanted _ fun id _ => ItemIndex.mem_apply _ _ _ _⟩
    rcases (ItemIndex.mem_apply .unite _ _ _).mp hid with hid | hid
    · exact ham ▸ hxsub id hid
    · exact hbm ▸ hysub id hid
  rw [if_neg heq]
  by_cases hlt : sp.sg.level a.pixelId < sp.sg.level b.pixelId
  · rw [if_pos hlt]
    have hbm := h.of_level hsp hapixel (Nat.le_of_lt hlt)
    refine ⟨_, rfl, fun id hid => ?_, hwanted _ fun id hid => ?_⟩
    · rcases (ItemIndex.mem_apply .unite _ _ _).mp hid with hid | hid
      · exact hbm ▸ ((ItemIndex.mem_apply .intersect _ _ _).mp hid).2
      · exact hbm ▸ hysub id hid
    · rw [ItemIndex.mem_apply]
      refine SetOp.holds_congr _ ?_ Iff.rfl
      rw [ItemIndex.mem_apply, hbm]
      exact and_iff_left hid
  · rw [if_neg hlt]
    have ham := h.swap.of_level hsp hbpixel (by omega)
    refine ⟨_, rfl, fun id hid => ?_, hwanted _ fun id hid => ?_⟩
    · rcases (ItemIndex.mem_apply .unite _ _ _).mp hid with hid | hid
      · exact ham ▸ hxsub id hid
      · exact ham ▸ ((ItemIndex.mem_apply .intersect _ _ _).mp hid).2
    · rw [ItemIndex.mem_apply]
      refine SetOp.holds_congr _ Iff.rfl ?_
      rw [ItemIndex.mem_apply, ham]
      exact and_iff_left hid

section

variable {dest dest' : List ItemIndex} {ts : List TreeNode}

theorem uniteNodes_internal (hp : resultPixelId sp a b = .ok m)
    (hfull : a.isFullMatch = false ∧ b.isFullMatch = false)
    (hne : a.children ≠ [] ∨ b.children ≠ [])
    (hrun : (if a.isInternal && b.isInternal then
        mergeNodes (fun f => someNode (deepCopy sp F₁ f)) (fun s => someNode (deepCopy sp F₂ s))
          a.children b.children (fun f _ s _ => someNode (uniteNodes sp F₁ F₂ f s)) dest
      else if a.isInternal then do
        let pids ← pixelChildren sp a.pixelId
        let y ← items sp F₂ b
        mergePids (virtLeaf sp y) a.children pids
          (fun f _ => someNode (uniteNodes sp F₁ F₂ f b)) dest
      else do
        let pids ← pixelChildren sp b.pixelId
        let x ← items sp F₁ a
        mergePids (virtLeaf sp x) b.children pids
          (fun s _ => someNode (uniteNodes sp F₁ F₂ a s)) dest) = .ok (ts, dest')) :
    someNode (uniteNodes sp F₁ F₂ a b) dest =
      .ok (some (.node m IS_INTERNAL npos ts), dest') := by
  have hleaf : (a.isLeaf && b.isLeaf) = false := by
    rcases hne with hne | hne
    · rw [isLeaf_of_ne_nil hne, Bool.false_and]
    · rw [isLeaf_of_ne_nil hne, Bool.and_false]
  rw [someNode, uniteNodes]
  simp only [hfull.1, hfull.2, hleaf, Bool.false_eq_true, if_false, hp, ok_bind]
  split_ifs at hrun ⊢
  · rw [hrun, ok_bind]
    rfl
  · obtain ⟨pids, hpids, hrun⟩ := bind_eq_ok hrun
    obtain ⟨y, hy, hrun⟩ := bind_eq_ok hrun
    rw [hpids, ok_bind, hy, ok_bind, hrun, ok_bind]
    rfl
  · obtain ⟨pids, hpids, hrun⟩ := bind_eq_ok hrun
    obtain ⟨x, hx, hrun⟩ := bind_eq_ok hrun
    rw [hpids, ok_bind, hx, ok_bind, hrun, ok_bind]
    rfl

end

theorem wanted_unite_swap (q id : Nat) :
    Wanted sp F₁ F₂ .unite a b q id ↔ Wanted sp F₂ F₁ .unite b a q id := or_comm

theorem NodesOk.ne_nil {P : Nat → Nat → Prop} {S : Nat → Prop} {dest : List ItemIndex}
    {ts : List TreeNode} (hts : NodesOk sp Pixel must P S dest ts) {c : Nat} (hS : S c)
    (hmust : must c) : ts ≠ [] := by
  obtain ⟨t, ht, -⟩ := hts.present c hS hmust
  exact List.ne_nil_of_mem ht

theorem unite_full_yields (hsp : sp.Lawful Pixel) (ha : Valid sp Pixel F₁ a)
    (hm : Pixel a.pixelId) (hfull : a.isFullMatch = true) :
    YieldsNode sp Pixel must (Wanted sp F₁ F₂ .unite a b) a.pixelId
      (someNode fun dest => .ok (fullLeaf a.pixelId, dest)) := by
  have hane : a.children = [] := by
    by_contra hne
    rw [isFullMatch_of_ne_nil ha hne] at hfull
    cases hfull
  obtain ⟨x, -, -, hxfull, hxitems⟩ := ha.leafItems hane
  refine fullLeaf_yields hm (fun q hq hcov id => ⟨?_, fun hid => .inl ?_⟩) hsp
  · rintro (hid | hid)
    · exact hid.mem_items
    · exact hid.mem_items
  · rw [hxitems q hcov]
    exact ⟨itemAt_of_full hsp (hxfull hfull) .refl hq hcov hid, hid⟩

theorem uniteNodes_yields (hsp : sp.Lawful Pixel) (ha : Valid sp Pixel F₁ a)
    (hb : Valid sp Pixel F₂ b) (h : Meet sp a b m)
    (hafull : a.isFullMatch = true → a.pixelId = m)
    (hbfull : b.isFullMatch = true → b.pixelId = m) :
    YieldsNode sp Pixel must (Wanted sp F₁ F₂ .unite a b) m
      (someNode (uniteNodes sp F₁ F₂ a b)) := by
  induction hn : sizeOf a + sizeOf b using Nat.strong_induction_on generalizing a b m must with
  | _ n ih =>
  subst hn
  have hm := h.pixel ha.shaped.pixel hb.shaped.pixel
  have hp := h.resultPixelId hsp ha.shaped.pixel hb.shaped.pixel
  by_cases hfa : a.isFullMatch = true
  · have hrun : uniteNodes sp F₁ F₂ a b = fun dest => .ok (fullLeaf a.pixelId, dest) := by
      funext dest
      rw [uniteNodes, if_pos hfa]
    rw [hrun, ← hafull hfa]
    exact unite_full_yields hsp ha ha.shaped.pixel hfa
  have hfa' := Bool.eq_false_iff.mpr hfa
  by_cases hfb : b.isFullMatch = true
  · have hrun : uniteNodes sp F₁ F₂ a b = fun dest => .ok (fullLeaf b.pixelId, dest) := by
      funext dest
      rw [uniteNodes, if_neg hfa, if_pos hfb]
    rw [hrun, ← hbfull hfb]
    exact (unite_full_yields hsp hb hb.shaped.pixel hfb).congr (fun hc => hc)
      fun q _ _ id => wanted_unite_swap q id
  have hfb' := Bool.eq_false_iff.mpr hfb
  by_cases hane : a.children = [] <;> by_cases hbne : b.children = []
  · -- two leaves
    obtain ⟨r, hr, hsub, hwanted⟩ := uniteLeaves_spec hsp h ha hb hane hbne
    have hrun : uniteNodes sp F₁ F₂ a b = fetchedLeaf m r := by
      funext dest
      rw [uniteNodes]
      simp only [hfa', hfb', Bool.false_eq_true, if_false, isLeaf_of_nil hane, isLeaf_of_nil hbne,
        Bool.and_self, if_true, hr, hp, ok_bind]
    rw [hrun]
    exact fetchedLeaf_yields hm hsub hwanted
  · -- a leaf and an internal node
    obtain ⟨x, hx, -, -, hxitems⟩ := ha.leafItems hane
    obtain rfl := h.pixel_second hbne
    obtain ⟨pids, hpids, -, hsorted, hmem⟩ := pixelChildren_spec hsp hm
    have hkids : YieldsNodes sp Pixel (· ∈ b.children.map TreeNode.pixelId)
        (Wanted sp F₁ F₂ .unite a b) (· ∈ pids)
        (mergePids (virtLeaf sp x) b.children pids
          fun s _ => someNode (uniteNodes sp F₁ F₂ a s)) := by
      refine mergePids_second hsp h hb .unite (fun p => Iff.of_eq (or_false p)) hane hbne hsorted
        hmem ?_ ?_
      · intro c hc hcov hnot
        exact virtLeaf_yields hsp hc hnot fun q _ hcq id =>
          hxitems q ((h.first.trans hcov).trans hcq) id
      · intro s hs hmeet
        have hlt := sizeOf_lt_of_mem_children hs
        exact ih (sizeOf a + sizeOf s) (by omega) ha (hb.children.1 s hs).2 hmeet
          (fun hfull => absurd hfull hfa) (fun _ => rfl) rfl
    intro dest
    obtain ⟨ts, dest', hrun, hprefix, hts⟩ := hkids dest
    obtain ⟨s, hs⟩ := List.exists_mem_of_ne_nil b.children hbne
    have hspid := (hmem s.pixelId).mpr ⟨(hb.children.1 s hs).2.shaped.pixel, (hb.children.1 s hs).1⟩
    refine ⟨_, dest', ?_, hprefix, hts.nodeOk hsp (splits_pids hsp hb hbne hmem)
      (hts.ne_nil hspid (List.mem_map_of_mem hs)) must npos⟩
    refine uniteNodes_internal hp ⟨hfa', hfb'⟩ (.inr hbne) ?_
    rw [isInternal_of_nil hane, Bool.false_and, if_neg Bool.false_ne_true,
      if_neg Bool.false_ne_true, hpids, ok_bind, hx, ok_bind, hrun]
  · -- an internal node and a leaf
    obtain ⟨y, hy, -, -, hyitems⟩ := hb.leafItems hbne
    obtain rfl := h.pixel_first hane
    obtain ⟨pids, hpids, -, hsorted, hmem⟩ := pixelChildren_spec hsp hm
    have hkids : YieldsNodes sp Pixel (· ∈ a.children.map TreeNode.pixelId)
        (Wanted sp F₂ F₁ .unite b a) (· ∈ pids)
        (mergePids (virtLeaf sp y) a.children pids
          fun f _ => someNode (uniteNodes sp F₁ F₂ f b)) := by
      refine mergePids_second hsp h.swap ha .unite (fun p => Iff.of_eq (or_false p)) hbne hane
        hsorted hmem ?_ ?_
      · intro c hc hcov hnot
        exact virtLeaf_yields hsp hc hnot fun q _ hcq id =>
          hyitems q ((h.second.trans hcov).trans hcq) id
      · intro f hf hmeet
        have hlt := sizeOf_lt_of_mem_children hf
        exact (ih (sizeOf f + sizeOf b) (by omega) (ha.children.1 f hf).2 hb hmeet.swap
          (fun _ => rfl) (fun hfull => absurd hfull hfb) rfl).congr (fun hc => hc)
          fun q _ _ id => wanted_unite_swap q id
    intro dest
    obtain ⟨ts, dest', hrun, hprefix, hts⟩ := hkids dest
    obtain ⟨f, hf⟩ := List.exists_mem_of_ne_nil a.children hane
    have hfpid := (hmem f.pixelId).mpr ⟨(ha.children.1 f hf).2.shaped.pixel, (ha.children.1 f hf).1⟩
    have hnode := hts.nodeOk hsp (splits_pids hsp ha hane hmem)
      (hts.ne_nil hfpid (List.mem_map_of_mem hf)) must npos
    refine ⟨_, dest', ?_, hprefix, hnode.valid, hnode.present, fun q hq hcov id =>
      (hnode.items q hq hcov id).trans (wanted_unite_swap q id)⟩
    refine uniteNodes_internal hp ⟨hfa', hfb'⟩ (.inl hane) ?_
    rw [isInternal_of_nil hbne, Bool.and_false, if_neg Bool.false_ne_true,
      if_pos (isInternal_of_ne_nil hane), hpids, ok_bind, hy, ok_bind, hrun]
  · -- two internal nodes
    have hkids : YieldsNodes sp Pixel (fun _ => True) (Wanted sp F₁ F₂ .unite a b)
        (fun c => c ∈ a.children.map TreeNode.pixelId ∨ c ∈ b.children.map TreeNode.pixelId)
        (mergeNodes (fun f => someNode (deepCopy sp F₁ f)) (fun s => someNode (deepCopy sp F₂ s))
          a.children b.children fun f _ s _ => someNode (uniteNodes sp F₁ F₂ f s)) := by
      refine mergeNodes_yields _ _ _ ha.children.2 hb.children.2 ?_ ?_ ?_
      · intro f hf hnot
        have hcopy : YieldsNode sp Pixel (fun _ => True) (fun q id => ItemAt sp F₁ a q id)
            f.pixelId (someNode (deepCopy sp F₁ f)) := deepCopy_child_yields hsp ha hf
        exact hcopy.congr (fun hc => hc) fun q hq hcov id =>
          (or_iff_left (not_itemAt_second hsp hq h ha hb hbne hf hnot hcov)).symm
      · intro s hs hnot
        have hcopy : YieldsNode sp Pixel (fun _ => True) (fun q id => ItemAt sp F₂ b q id)
            s.pixelId (someNode (deepCopy sp F₂ s)) := deepCopy_child_yields hsp hb hs
        exact hcopy.congr (fun hc => hc) fun q hq hcov id =>
          (or_iff_right (not_itemAt_second hsp hq h.swap hb ha hane hs hnot hcov)).symm
      · intro f hf s hs heq
        have hltf := sizeOf_lt_of_mem_children hf
        have hlts := sizeOf_lt_of_mem_children hs
        have hstep : YieldsNode sp Pixel (fun _ => True) (Wanted sp F₁ F₂ .unite f s) f.pixelId
            (someNode (uniteNodes sp F₁ F₂ f s)) :=
          ih (sizeOf f + sizeOf s) (by omega) (ha.children.1 f hf).2 (hb.children.1 s hs).2
            (Meet.children heq) (fun _ => rfl) (fun _ => heq.symm) rfl
        exact hstep.congr (fun hc => hc) fun q hq hcov id =>
          wanted_children hsp hq ha hb hf hs heq hcov
    intro dest
    obtain ⟨ts, dest', hrun, hprefix, hts⟩ := hkids dest
    obtain ⟨f, hf⟩ := List.exists_mem_of_ne_nil a.children hane
    refine ⟨_, dest', ?_, hprefix, hts.nodeOk hsp (splits_both hsp h ha hb .unite hane hbne)
      (hts.ne_nil (.inl (List.mem_map_of_mem hf)) trivial) must npos⟩
    refine uniteNodes_internal hp ⟨hfa', hfb'⟩ (.inl hane) ?_
    rw [isInternal_of_ne_nil hane, isInternal_of_ne_nil hbne, Bool.and_self, if_pos rfl, hrun]

theorem subtractLeaves_spec (hsp : sp.Lawful Pixel) (h : Meet sp a b m) (ha : Valid sp Pixel F₁ a)
    (hb : Valid sp Pixel F₂ b) (haleaf : a.children = []) (hbleaf : b.children = []) :
    ∃ r, subtractLeaves sp F₁ F₂ a b = .ok r ∧ (∀ id ∈ r.ids, id ∈ (sp.sgi.items m).ids) ∧
      ∀ q, Finest sp Pixel q → sp.sg.Covers m q → ∀ id,
        Wanted sp F₁ F₂ .difference a b q id ↔ id ∈ r.ids ∧ id ∈ (sp.sgi.items q).ids := by
  obtain ⟨x, hx, hxsub, hxfull, hxitems⟩ := ha.leafItems haleaf
  obtain ⟨y, hy, -, -, hyitems⟩ := hb.leafItems hbleaf
  have hwanted := fun r => wanted_leaves (r := r) hsp h .difference hxitems hyitems
  have hapixel := ha.shaped.pixel
  have hbpixel := hb.shaped.pixel
  rw [subtractLeaves, hy, ok_bind, hx]
  by_cases heq : sp.sg.level a.pixelId = sp.sg.level b.pixelId
  · rw [if_pos heq, ok_bind]
    have ham := h.swap.of_level hsp hbpixel (Nat.le_of_eq heq.symm)
    refine ⟨_, rfl, fun id hid => ?_, hwanted _ fun id _ => ItemIndex.mem_apply _ _ _ _⟩
    exact ham ▸ hxsub id ((ItemIndex.mem_apply .difference _ _ _).mp hid).1
  rw [if_neg heq]
  by_cases hlt : sp.sg.level a.pixelId < sp.sg.level b.pixelId
  · rw [if_pos hlt]
    have hbm := h.of_level hsp hapixel (Nat.le_of_lt hlt)
    by_cases hfull : a.isFullMatch = true
    · rw [if_pos hfull]
      refine ⟨_, rfl, fun id hid => ?_, hwanted _ fun id hid => ?_⟩
      · exact hbm ▸ ((ItemIndex.mem_apply .difference _ _ _).mp hid).1
      · rw [ItemIndex.mem_apply]
        refine SetOp.holds_congr _ (iff_of_true (hbm.symm ▸ hid) ?_) Iff.rfl
        rw [hxfull hfull]
        exact hsp.items_subset h.first (hbm ▸ hbpixel) hid
    · rw [if_neg hfull, ok_bind]
      refine ⟨_, rfl, fun id hid => ?_, hwanted _ fun id hid => ?_⟩
      · have hid := ((ItemIndex.mem_apply .difference _ _ _).mp hid).1
        exact hbm ▸ ((ItemIndex.mem_apply .intersect _ _ _).mp hid).2
      · rw [ItemIndex.mem_apply]
        refine SetOp.holds_congr _ ?_ Iff.rfl
        rw [ItemIndex.mem_apply, hbm]
        exact and_iff_left hid
  · rw [if_neg hlt, ok_bind]
    have ham := h.swap.of_level hsp hbpixel (by omega)
    refine ⟨_, rfl, fun id hid => ?_, hwanted _ fun id hid => ?_⟩
    · exact ham ▸ hxsub id ((ItemIndex.mem_apply .difference _ _ _).mp hid).1
    · rw [ItemIndex.mem_apply]
      refine SetOp.holds_congr _ Iff.rfl ?_
      rw [ItemIndex.mem_apply, ham]
      exact and_iff_left hid

section

variable {dest dest' : List ItemIndex} {ts : List TreeNode}

theorem subtractNodes_internal (hp : resultPixelId sp a b = .ok m)
    (hfull : (b.isFullMatch && sp.sg.level a.pixelId ≥ sp.sg.level b.pixelId) = false)
    (hne : a.children ≠ [] ∨ b.children ≠ [])
    (hrun : (if a.isInternal && b.isInternal then
        mergeNodes (fun f => someNode (deepCopy sp F₁ f)) (fun _ => noNode)
          a.children b.children (fun f _ s _ => subtractNodes sp F₁ F₂ f s) dest
      else if a.isInternal then
        eachNode a.children (fun f _ => subtractNodes sp F₁ F₂ f b) dest
      else do
        let pids ← pixelChildren sp b.pixelId
        if a.isFullMatch then
          mergePids (fun pid => someNode fun dest => .ok (fullLeaf pid, dest)) b.children pids
            (fun s _ => subtractNodes sp F₁ F₂ a s) dest
        else do
          let x ← items sp F₁ a
          mergePids (virtLeaf sp x) b.children pids (fun s _ => subtractNodes sp F₁ F₂ a s) dest) =
      .ok (ts, dest')) :
    subtractNodes sp F₁ F₂ a b dest = .ok (internalNode? m ts, dest') := by
  have hleaf : (a.isLeaf && b.isLeaf) = false := by
    rcases hne with hne | hne
    · rw [isLeaf_of_ne_nil hne, Bool.false_and]
    · rw [isLeaf_of_ne_nil hne, Bool.and_false]
  rw [subtractNodes]
  simp only [hfull, hleaf, Bool.false_eq_true, if_false, hp, ok_bind]
  split_ifs at hrun ⊢
  · rw [hrun, ok_bind]
    rfl
  · rw [hrun, ok_bind]
    rfl
  · obtain ⟨pids, hpids, hrun⟩ := bind_eq_ok hrun
    rw [hpids, ok_bind, hrun, ok_bind]
    rfl
  · obtain ⟨pids, hpids, hrun⟩ := bind_eq_ok hrun
    obtain ⟨x, hx, hrun⟩ := bind_eq_ok hrun
    rw [hpids, ok_bind, hx, ok_bind, hrun, ok_bind]
    rfl

end

theorem subtractNodes_yields (hsp : sp.Lawful Pixel) (hmust : ∀ c, ¬ must c)
    (ha : Valid sp Pixel F₁ a) (hb : Valid sp Pixel F₂ b) (h : Meet sp a b m) :
    YieldsNode sp Pixel must (Wanted sp F₁ F₂ .difference a b) m
      (subtractNodes sp F₁ F₂ a b) := by
  induction hn : sizeOf a + sizeOf b using Nat.strong_induction_on generalizing a b m with
  | _ n ih =>
  subst hn
  have hm := h.pixel ha.shaped.pixel hb.shaped.pixel
  have hp := h.resultPixelId hsp ha.shaped.pixel hb.shaped.pixel
  by_cases hfull : (b.isFullMatch && sp.sg.level a.pixelId ≥ sp.sg.level b.pixelId) = true
  · -- all items are subtracted
    have hrun : subtractNodes sp F₁ F₂ a b = noNode := by
      funext dest
      rw [subtractNodes, if_pos hfull]
      rfl
    have hbfull : b.isFullMatch = true := (Bool.and_eq_true_iff.mp hfull).1
    have hbne : b.children = [] := by
      by_contra hne
      rw [isFullMatch_of_ne_nil hb hne] at hbfull
      cases hbfull
    obtain ⟨y, -, -, hyfull, hyitems⟩ := hb.leafItems hbne
    rw [hrun]
    refine yieldsNode_noNode (hmust m) fun q hq hcov id hid => hid.2 ?_
    rw [hyitems q (h.second.trans hcov)]
    have hidq : id ∈ (sp.sgi.items q).ids := hid.1.mem_items
    exact ⟨itemAt_of_full hsp (hyfull hbfull) h.second hq hcov hidq, hidq⟩
  have hfull' := Bool.eq_false_iff.mpr hfull
  by_cases hane : a.children = [] <;> by_cases hbne : b.children = []
  · -- two leaves
    obtain ⟨r, hr, hsub, hwanted⟩ := subtractLeaves_spec hsp h ha hb hane hbne
    have hrun : subtractNodes sp F₁ F₂ a b = someNode (fetchedLeaf m r) := by
      funext dest
      rw [subtractNodes]
      simp only [hfull', Bool.false_eq_true, if_false, isLeaf_of_nil hane, isLeaf_of_nil hbne,
        Bool.and_self, if_true, hr, hp, ok_bind]
    rw [hrun]
    exact fetchedLeaf_yields hm hsub hwanted
  · -- a leaf and an internal node
    obtain ⟨x, hx, -, hxfull, hxitems⟩ := ha.leafItems hane
    obtain rfl := h.pixel_second hbne
    obtain ⟨pids, hpids, -, hsorted, hmem⟩ := pixelChildren_spec hsp hm
    have hop : ∀ p : Prop, SetOp.difference.Holds p False ↔ p := fun p =>
      and_iff_left not_false
    have heach : ∀ s (_ : s ∈ b.children), Meet sp a s s.pixelId →
        YieldsNode sp Pixel must (Wanted sp F₁ F₂ .difference a s) s.pixelId
          (subtractNodes sp F₁ F₂ a s) := by
      intro s hs hmeet
      have hlt := sizeOf_lt_of_mem_children hs
      exact ih (sizeOf a + sizeOf s) (by omega) ha (hb.children.1 s hs).2 hmeet rfl
    have hsplits : Splits sp Pixel (Wanted sp F₁ F₂ .difference a b) (· ∈ pids) b.pixelId :=
      splits_pids hsp hb hbne hmem
    by_cases hafull : a.isFullMatch = true
    · have hkids : YieldsNodes sp Pixel must (Wanted sp F₁ F₂ .difference a b) (· ∈ pids)
          (mergePids (fun pid => someNode fun dest => .ok (fullLeaf pid, dest)) b.children pids
            fun s _ => subtractNodes sp F₁ F₂ a s) := by
        refine mergePids_second hsp h hb .difference hop hane hbne hsorted hmem ?_ heach
        intro c hc hcov _
        refine fullLeaf_yields hc (fun q hq hcq id => ?_) hsp
        rw [hxitems q ((h.first.trans hcov).trans hcq)]
        exact and_iff_right_of_imp
          (itemAt_of_full hsp (hxfull hafull) (h.first.trans hcov) hq hcq)
      intro dest
      obtain ⟨ts, dest', hrun, hprefix, hts⟩ := hkids dest
      refine ⟨_, dest', ?_, hprefix, hts.internalNode? hsp hsplits (hmust _)⟩
      refine subtractNodes_internal hp hfull' (.inr hbne) ?_
      rw [isInternal_of_nil hane, Bool.false_and, if_neg Bool.false_ne_true,
        if_neg Bool.false_ne_true, hpids, ok_bind, if_pos hafull, hrun]
    · have hkids : YieldsNodes sp Pixel must (Wanted sp F₁ F₂ .difference a b) (· ∈ pids)
          (mergePids (virtLeaf sp x) b.children pids fun s _ => subtractNodes sp F₁ F₂ a s) := by
        refine mergePids_second hsp h hb .difference hop hane hbne hsorted hmem ?_ heach
        intro c hc hcov _
        exact virtLeaf_yields hsp hc (hmust c) fun q _ hcq id =>
          hxitems q ((h.first.trans hcov).trans hcq) id
      intro dest
      obtain ⟨ts, dest', hrun, hprefix, hts⟩ := hkids dest
      refine ⟨_, dest', ?_, hprefix, hts.internalNode? hsp hsplits (hmust _)⟩
      refine subtractNodes_internal hp hfull' (.inr hbne) ?_
      rw [isInternal_of_nil hane, Bool.false_and, if_neg Bool.false_ne_true,
        if_neg Bool.false_ne_true, hpids, ok_bind, if_neg hafull, hx, ok_bind, hrun]
  · -- an internal node and a leaf
    have hkids : YieldsNodes sp Pixel must (Wanted sp F₁ F₂ .difference a b)
        (· ∈ a.children.map TreeNode.pixelId)
        (eachNode a.children fun f _ => subtractNodes sp F₁ F₂ f b) := by
      refine eachNode_yields ha.children.2 fun f hf => ?_
      have hlt := sizeOf_lt_of_mem_children hf
      have hstep := ih (sizeOf f + sizeOf b) (by omega) (ha.children.1 f hf).2 hb
        (h.child_leaf ha hbne hf) rfl
      exact hstep.congr (fun hc => hc) fun q hq hcov id => wanted_first hsp hq ha hf hcov
    intro dest
    obtain ⟨ts, dest', hrun, hprefix, hts⟩ := hkids dest
    refine ⟨_, dest', ?_, hprefix, hts.internalNode? hsp
      (splits_first hsp h ha .difference hane fun q id hid => hid.1) (hmust m)⟩
    refine subtractNodes_internal hp hfull' (.inl hane) ?_
    rw [isInternal_of_nil hbne, Bool.and_false, if_neg Bool.false_ne_true,
      if_pos (isInternal_of_ne_nil hane), hrun]
  · -- two internal nodes
    have hkids : YieldsNodes sp Pixel must (Wanted sp F₁ F₂ .difference a b)
        (fun c => c ∈ a.children.map TreeNode.pixelId ∨ c ∈ b.children.map TreeNode.pixelId)
        (mergeNodes (fun f => someNode (deepCopy sp F₁ f)) (fun _ => noNode)
          a.children b.children fun f _ s _ => subtractNodes sp F₁ F₂ f s) := by
      refine mergeNodes_yields _ _ _ ha.children.2 hb.children.2 ?_ ?_ ?_
      · intro f hf hnot
        have hcopy : YieldsNode sp Pixel must (fun q id => ItemAt sp F₁ a q id) f.pixelId
            (someNode (deepCopy sp F₁ f)) := deepCopy_child_yields hsp ha hf
        exact hcopy.congr (fun hc => hc) fun q hq hcov id =>
          (and_iff_left (not_itemAt_second hsp hq h ha hb hbne hf hnot hcov)).symm
      · intro s hs hnot
        exact yieldsNode_noNode (hmust _) fun q hq hcov id hid =>
          not_itemAt_second hsp hq h.swap hb ha hane hs hnot hcov hid.1
      · intro f hf s hs heq
        have hltf := sizeOf_lt_of_mem_children hf
        have hlts := sizeOf_lt_of_mem_children hs
        have hstep := ih (sizeOf f + sizeOf s) (by omega) (ha.children.1 f hf).2
          (hb.children.1 s hs).2 (Meet.children heq) rfl
        exact hstep.congr (fun hc => hc) fun q hq hcov id =>
          wanted_children hsp hq ha hb hf hs heq hcov
    intro dest
    obtain ⟨ts, dest', hrun, hprefix, hts⟩ := hkids dest
    refine ⟨_, dest', ?_, hprefix, hts.internalNode? hsp
      (splits_both hsp h ha hb .difference hane hbne) (hmust m)⟩
    refine subtractNodes_internal hp hfull' (.inl hane) ?_
    rw [isInternal_of_ne_nil hane, isInternal_of_ne_nil hbne, Bool.and_self, if_pos rfl, hrun]

def IsValid (sp : Space) (Pixel : Nat → Prop) (r : HCQRSpatialGrid) : Prop :=
  ∀ t ∈ r.root, t.pixelId = sp.sg.rootPixelId ∧ Valid sp Pixel r.fetchedItems t

def HasItem (sp : Space) (r : HCQRSpatialGrid) (q id : Nat) : Prop :=
  ∃ t ∈ r.root, ItemAt sp r.fetchedItems t q id

def Computes (sp : Space) (Pixel : Nat → Prop) (op : SetOp) (first second : HCQRSpatialGrid)
    (run : Except Fault HCQRSpatialGrid) : Prop :=
  ∃ r, run = .ok r ∧ IsValid sp Pixel r ∧ ∀ q, Finest sp Pixel q → ∀ id,
    HasItem sp r q id ↔ op.Holds (HasItem sp first q id) (HasItem sp second q id)

section

variable {first second : HCQRSpatialGrid} {op : SetOp}
  {nodes : TreeNode → TreeNode → Op (Option TreeNode)}

theorem not_hasItem_of_none {r : HCQRSpatialGrid} (hroot : r.root = none) (q id : Nat) :
    ¬ HasItem sp r q id := by
  rintro ⟨t, ht, -⟩
  rw [hroot] at ht
  cases ht

theorem hasItem_of_some {r : HCQRSpatialGrid} {t : TreeNode} (hroot : r.root = some t)
    (q id : Nat) :
    HasItem sp r q id ↔ ItemAt sp r.fetchedItems t q id := by
  simp [HasItem, hroot]

theorem combine_of_roots (hsp : sp.Lawful Pixel) {a b : TreeNode} (ha : first.root = some a)
    (hb : second.root = some b) (hapixel : a.pixelId = sp.sg.rootPixelId)
    (hyields : YieldsNode sp Pixel (fun _ => False)
      (Wanted sp first.fetchedItems second.fetchedItems op a b) a.pixelId (nodes a b)) :
    Computes sp Pixel op first second (combine nodes first second) := by
  obtain ⟨r, fetchedItems, hrun, -, hr⟩ := hyields []
  refine ⟨⟨r, fetchedItems⟩, ?_, ?_, ?_⟩
  · rw [combine, ha, hb]
    dsimp only
    rw [hrun, ok_bind]
    rfl
  · intro t ht
    obtain ⟨hpixel, hvalid⟩ := hr.valid t ht
    exact ⟨hpixel.trans hapixel, hvalid⟩
  · intro q hq id
    have hcov : sp.sg.Covers a.pixelId q := by
      rw [hapixel]
      exact hsp.grid.covers_root hq.1
    rw [HasItem, hr.items q hq hcov id, Wanted]
    exact op.holds_congr (hasItem_of_some ha q id).symm (hasItem_of_some hb q id).symm

theorem combine_of_none (hnone : first.root = none ∨ second.root = none) :
    Computes sp Pixel op first second (combine nodes first second) ↔
      ∀ q, Finest sp Pixel q → ∀ id,
        ¬ op.Holds (HasItem sp first q id) (HasItem sp second q id) := by
  have hrun : combine nodes first second = .ok ⟨none, []⟩ := by
    rw [combine]
    rcases hnone with hnone | hnone
    · rw [hnone]
    · rw [hnone]
      cases first.root <;> rfl
  constructor
  · rintro ⟨r, hr, -, hitems⟩ q hq id hid
    obtain rfl := Except.ok.inj (hrun.symm.trans hr)
    exact not_hasItem_of_none rfl q id ((hitems q hq id).mpr hid)
  · intro hempty
    refine ⟨_, hrun, fun t ht => absurd ht (Option.not_mem_none t), fun q hq id => ?_⟩
    exact iff_of_false (not_hasItem_of_none rfl q id) (hempty q hq id)

end

/-- The operators are right at every finest pixel unless only one of the operands has a root and
that one has items. -/
theorem set_operations_iff (hsp : sp.Lawful Pixel) {first second : HCQRSpatialGrid}
    (hfirst : IsValid sp Pixel first) (hsecond : IsValid sp Pixel second) :
    (Computes sp Pixel .intersect first second (intersect sp first second) ∧
      Computes sp Pixel .unite first second (unite sp first second) ∧
      Computes sp Pixel .difference first second (subtract sp first second)) ↔
      (first.root = none → ∀ q, Finest sp Pixel q → ∀ id, ¬ HasItem sp second q id) ∧
        (second.root = none → ∀ q, Finest sp Pixel q → ∀ id, ¬ HasItem sp first q id) := by
  by_cases hroots : first.root = none ∨ second.root = none
  · rw [intersect, unite, subtract, combine_of_none hroots, combine_of_none hroots,
      combine_of_none hroots]
    constructor
    · rintro ⟨-, hunite, -⟩
      exact ⟨fun _ q hq id hid => hunite q hq id (.inr hid),
        fun _ q hq id hid => hunite q hq id (.inl hid)⟩
    · rintro ⟨hone, htwo⟩
      have hempty : ∀ q, Finest sp Pixel q → ∀ id,
          ¬ HasItem sp first q id ∧ ¬ HasItem sp second q id := by
        intro q hq id
        rcases hroots with hnone | hnone
        · exact ⟨not_hasItem_of_none hnone q id, hone hnone q hq id⟩
        · exact ⟨htwo hnone q hq id, not_hasItem_of_none hnone q id⟩
      refine ⟨fun q hq id hid => ?_, fun q hq id hid => ?_, fun q hq id hid => ?_⟩
      · exact (hempty q hq id).1 hid.1
      · exact hid.elim (hempty q hq id).1 (hempty q hq id).2
      · exact (hempty q hq id).1 hid.1
  · rw [not_or] at hroots
    obtain ⟨a, ha⟩ := Option.ne_none_iff_exists'.mp hroots.1
    obtain ⟨b, hb⟩ := Option.ne_none_iff_exists'.mp hroots.2
    obtain ⟨hapixel, havalid⟩ := hfirst a ha
    obtain ⟨hbpixel, hbvalid⟩ := hsecond b hb
    have heq := hapixel.trans hbpixel.symm
    have hmeet : Meet sp a b a.pixelId := Meet.children heq
    refine iff_of_true ⟨?_, ?_, ?_⟩
      ⟨fun hnone => absurd hnone hroots.1, fun hnone => absurd hnone hroots.2⟩
    · exact combine_of_roots hsp ha hb hapixel
        (intersectNodes_yields hsp (fun _ => not_false) havalid hbvalid hmeet)
    · exact combine_of_roots hsp ha hb hapixel
        (uniteNodes_yields hsp havalid hbvalid hmeet (fun _ => rfl) fun _ => heq.symm)
    · exact combine_of_roots hsp ha hb hapixel
        (subtractNodes_yields hsp (fun _ => not_false) havalid hbvalid hmeet)

theorem lawful_twoPixels : twoPixels.Lawful (· ≤ 2) where
  grid := SpatialGrid.lawful_twoChildren
  items p hp hcount id := by
    have hp0 : p = 0 := by
      by_contra hne
      have hzero : twoPixels.sg.childrenCount p = 0 := if_neg hne
      omega
    obtain rfl := hp0
    constructor
    · exact fun hid => ⟨1, by decide, by decide, rfl, hid⟩
    · rintro ⟨c, -, -, -, hid⟩
      exact hid

def everything : HCQRSpatialGrid := ⟨some (fullLeaf 0), []⟩

def storedAtOne : HCQRSpatialGrid :=
  ⟨some (.node 0 IS_INTERNAL npos [.node 1 IS_PARTIAL_MATCH 1 []]), []⟩

theorem isValid_everything : IsValid twoPixels (· ≤ 2) everything := by
  intro t ht
  obtain rfl := Option.mem_some_iff.mp ht
  refine ⟨rfl, .leaf (by decide), fun l hl => ?_⟩
  obtain rfl := List.mem_singleton.mp (by rwa [fullLeaf, leaves] at hl)
  exact .full

theorem isValid_storedAtOne : IsValid twoPixels (· ≤ 2) storedAtOne := by
  intro t ht
  obtain rfl := Option.mem_some_iff.mp ht
  refine ⟨rfl, .internal (by decide) (List.cons_ne_nil _ _) ?_ (List.pairwise_singleton _ _) ?_, ?_⟩
  · intro c hc
    obtain rfl := List.mem_singleton.mp hc
    exact ⟨by decide, rfl⟩
  · intro c hc
    obtain rfl := List.mem_singleton.mp hc
    exact .leaf (by decide)
  · intro l hl
    obtain rfl := List.mem_singleton.mp (by simpa [leaves, leavesOfList] using hl)
    exact .partialMatch (by decide) (by decide) (by decide)

theorem set_operations_iff_storedAtOne :
    (Computes twoPixels (· ≤ 2) .intersect everything storedAtOne
        (intersect twoPixels everything storedAtOne) ∧
      Computes twoPixels (· ≤ 2) .unite everything storedAtOne
        (unite twoPixels everything storedAtOne) ∧
      Computes twoPixels (· ≤ 2) .difference everything storedAtOne
        (subtract twoPixels everything storedAtOne)) ↔
      (everything.root = none →
        ∀ q, Finest twoPixels (· ≤ 2) q → ∀ id, ¬ HasItem twoPixels storedAtOne q id) ∧
        (storedAtOne.root = none →
          ∀ q, Finest twoPixels (· ≤ 2) q → ∀ id, ¬ HasItem twoPixels everything q id) :=
  set_operations_iff lawful_twoPixels isValid_everything isValid_storedAtOne

/-- The union of nothing and everything is nothing. -/
theorem not_unite_nothing :
    IsValid twoPixels (· ≤ 2) ⟨none, []⟩ ∧ IsValid twoPixels (· ≤ 2) everything ∧
      ¬ Computes twoPixels (· ≤ 2) .unite ⟨none, []⟩ everything
        (unite twoPixels ⟨none, []⟩ everything) := by
  refine ⟨fun t ht => absurd ht (Option.not_mem_none t), isValid_everything, fun h => ?_⟩
  obtain ⟨r, hr, -, hitems⟩ := h
  obtain rfl : (⟨none, []⟩ : HCQRSpatialGrid) = r := Except.ok.inj hr
  have hitem : ItemAt twoPixels [] (fullLeaf 0) 1 10 := by
    refine ⟨fullLeaf 0, ?_, ?_, ?_, by decide⟩
    · rw [fullLeaf, leaves]
      exact List.mem_singleton_self _
    · exact .child .refl (by decide) rfl
    · exact ⟨_, leafItems_full _ _ _ _ _, by decide⟩
  refine not_hasItem_of_none rfl 1 10 ((hitems 1 ⟨by decide, rfl⟩ 10).mpr (.inr ?_))
  exact ⟨fullLeaf 0, rfl, hitem⟩

end Sserialize.HCQRSpatialGrid
