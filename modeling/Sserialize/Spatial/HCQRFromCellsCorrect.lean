import Sserialize.Spatial.CellQueryResultSlots
import Sserialize.Spatial.HCQRFromCells

namespace Sserialize

open scoped List

namespace HCQRSpatialGrid

variable {sg : SpatialGrid} {Pixel : Nat → Prop}

structure IsLevel (sg : SpatialGrid) (Pixel : Nat → Prop) (level : Nat) (ls : List TreeNode)
    (clevel : LevelMap) : Prop where
  nodup : (OrderedMap.keys clevel).Nodup
  keyed : ∀ x ∈ clevel, x.2.pixelId = x.1 ∧ sg.level x.1 = level ∧ Pixel x.1 ∧
    Shaped sg Pixel x.2
  leaves : (clevel.flatMap fun x => leaves x.2).Perm ls

/-- A level after some of its nodes were moved there, before the children are sorted. -/
structure IsPartialLevel (sg : SpatialGrid) (Pixel : Nat → Prop) (level : Nat)
    (moved : LevelMap) (plevel : LevelMap) : Prop where
  nodup : (OrderedMap.keys plevel).Nodup
  keyed : ∀ x ∈ plevel, sg.level x.1 = level ∧ Pixel x.1 ∧
    ∃ cs, x.2 = .node x.1 IS_INTERNAL npos cs ∧ cs ≠ [] ∧ ∀ c ∈ cs,
      0 < sg.level c.pixelId ∧ sg.parent c.pixelId = .ok x.1 ∧ Shaped sg Pixel c
  children : (plevel.flatMap fun x => x.2.children).Perm (moved.map Prod.snd)

variable {level : Nat}

theorem IsPartialLevel.nil : IsPartialLevel sg Pixel level [] [] where
  nodup := List.nodup_nil
  keyed x hx := by cases hx
  children := List.Perm.refl _

variable {sp : Space} {moved plevel : LevelMap}

theorem IsPartialLevel.move (hgrid : sp.sg.Lawful Pixel)
    (h : IsPartialLevel sp.sg Pixel level moved plevel) {x : Nat × TreeNode}
    (hkey : x.2.pixelId = x.1) (hlevel : sp.sg.level x.1 = level + 1) (hpixel : Pixel x.1)
    (hshaped : Shaped sp.sg Pixel x.2) :
    ∃ plevel', moveToParent sp plevel x = .ok plevel' ∧
      IsPartialLevel sp.sg Pixel level (moved ++ [x]) plevel' := by
  have hpos : 0 < sp.sg.level x.1 := by omega
  obtain ⟨p, hparent, hp, hpLevel⟩ := hgrid.parent_ok x.1 hpixel hpos
  have hchild : 0 < sp.sg.level x.2.pixelId ∧ sp.sg.parent x.2.pixelId = .ok p ∧
      Shaped sp.sg Pixel x.2 := by
    rw [hkey]
    exact ⟨hpos, hparent, hshaped⟩
  -- the children of the parent so far
  obtain ⟨cs, hnode, hcs⟩ : ∃ cs, (OrderedMap.lookup p plevel).getD (.node p IS_INTERNAL npos []) =
      .node p IS_INTERNAL npos cs ∧ ∀ c ∈ cs, 0 < sp.sg.level c.pixelId ∧
        sp.sg.parent c.pixelId = .ok p ∧ Shaped sp.sg Pixel c := by
    cases hlookup : OrderedMap.lookup p plevel with
    | none => exact ⟨[], rfl, fun c hc => by cases hc⟩
    | some n =>
      obtain ⟨-, -, cs, hn, -, hcs⟩ :=
        h.keyed (p, n) ((OrderedMap.lookup_eq_some h.nodup).mp hlookup)
      exact ⟨cs, hn, hcs⟩
  obtain ⟨rest, hassign, hold⟩ :=
    OrderedMap.exists_assign_perm p (.node p IS_INTERNAL npos (cs ++ [x.2])) h.nodup
  have hrest : ∀ y ∈ rest, y ∈ plevel := fun y hy =>
    hold.mem_iff.mpr (List.mem_append_right _ hy)
  refine ⟨_, ?_, OrderedMap.nodup_assign p (.node p IS_INTERNAL npos (cs ++ [x.2])) h.nodup, ?_, ?_⟩
  · rw [moveToParent, hkey, hparent, ok_bind]
    simp only [hnode, TreeNode.pushChild]
    rfl
  · intro y hy
    rcases List.mem_cons.mp (hassign.mem_iff.mp hy) with rfl | hy
    · refine ⟨Nat.succ.inj (hpLevel.symm.trans hlevel), hp, cs ++ [x.2], rfl, by simp, ?_⟩
      intro c hc
      rcases List.mem_append.mp hc with hc | hc
      · exact hcs c hc
      · exact List.mem_singleton.mp hc ▸ hchild
    · exact h.keyed y (hrest y hy)
  · have hcsOld : (((OrderedMap.lookup p plevel).map fun w => (p, w)).toList.flatMap
        fun x => x.2.children) = cs := by
      cases hlookup : OrderedMap.lookup p plevel with
      | none =>
        rw [hlookup] at hnode
        have hnil : [] = cs := congrArg TreeNode.children hnode
        rw [← hnil]
        rfl
      | some n =>
        rw [hlookup] at hnode
        have hn : n = .node p IS_INTERNAL npos cs := hnode
        rw [hn]
        exact List.append_nil cs
    have hflat := hold.flatMap_right fun x => x.2.children
    rw [List.flatMap_append, hcsOld] at hflat
    calc (OrderedMap.assign p (.node p IS_INTERNAL npos (cs ++ [x.2])) plevel).flatMap
          fun x => x.2.children
      _ ~ cs ++ [x.2] ++ rest.flatMap fun x => x.2.children := hassign.flatMap_right _
      _ ~ (cs ++ rest.flatMap fun x => x.2.children) ++ [x.2] := by
        rw [List.append_assoc, List.append_assoc]
        exact List.Perm.append_left cs List.perm_append_comm
      _ ~ moved.map Prod.snd ++ [x.2] :=
        List.Perm.append_right [x.2] (hflat.symm.trans h.children)
      _ ~ (moved ++ [x]).map Prod.snd := by rw [List.map_append]; rfl

theorem leaves_sortChildren (p f i : Nat) {cs : List TreeNode} (h : cs ≠ []) :
    leaves (TreeNode.node p f i cs).sortChildren ~ cs.flatMap leaves := by
  have hperm : cs.insertionSort (fun a b => a.pixelId ≤ b.pixelId) ~ cs :=
    List.perm_insertionSort _ cs
  have hne : cs.insertionSort (fun a b => a.pixelId ≤ b.pixelId) ≠ [] := fun hnil =>
    h (hnil ▸ hperm).symm.eq_nil
  rw [TreeNode.sortChildren, leaves_internal hne]
  exact hperm.flatMap_right leaves

theorem pairwise_sortChildren {cs : List TreeNode} (h : (cs.map TreeNode.pixelId).Nodup) :
    (cs.insertionSort fun a b => a.pixelId ≤ b.pixelId).Pairwise
      fun a b => a.pixelId < b.pixelId := by
  have hperm := List.perm_insertionSort (fun a b : TreeNode => a.pixelId ≤ b.pixelId) cs
  have hle : (cs.insertionSort fun a b => a.pixelId ≤ b.pixelId).Pairwise
      fun a b => a.pixelId ≤ b.pixelId := List.pairwise_insertionSort _ cs
  have hne : (cs.insertionSort fun a b => a.pixelId ≤ b.pixelId).Pairwise
      fun a b => a.pixelId ≠ b.pixelId :=
    List.pairwise_map.mp ((hperm.map TreeNode.pixelId).nodup_iff.mpr h)
  exact hle.imp₂ (fun a b hab hne => lt_of_le_of_ne hab hne) hne

variable {ls : List TreeNode}

theorem IsPartialLevel.sorted (h : IsPartialLevel sg Pixel level moved plevel)
    (hmoved : (moved.map fun x => x.2.pixelId).Nodup)
    (hls : (moved.flatMap fun x => leaves x.2) ~ ls) :
    IsLevel sg Pixel level ls (plevel.map fun x => (x.1, x.2.sortChildren)) where
  nodup := by
    have hkeys : OrderedMap.keys (plevel.map fun x => (x.1, x.2.sortChildren)) =
        OrderedMap.keys plevel := by rw [OrderedMap.keys, List.map_map]; rfl
    rw [hkeys]
    exact h.nodup
  keyed x hx := by
    obtain ⟨y, hy, rfl⟩ := List.mem_map.mp hx
    obtain ⟨hlevel, hpixel, cs, hnode, hne, hcs⟩ := h.keyed y hy
    have hnodup : (cs.map TreeNode.pixelId).Nodup := by
      have hsub : cs.Sublist (plevel.flatMap fun x => x.2.children) := by
        have hmem := List.sublist_flatten_of_mem
          (List.mem_map_of_mem (f := fun x : Nat × TreeNode => x.2.children) hy)
        rwa [hnode] at hmem
      have hall := (h.children.map TreeNode.pixelId).nodup_iff.mpr (by rwa [List.map_map])
      exact hall.sublist (hsub.map _)
    have hperm := List.perm_insertionSort (fun a b : TreeNode => a.pixelId ≤ b.pixelId) cs
    rw [hnode]
    refine ⟨rfl, hlevel, hpixel, .internal hpixel ?_ ?_ (pairwise_sortChildren hnodup) ?_⟩
    · exact fun hnil => hne (hnil ▸ hperm).symm.eq_nil
    · exact fun c hc => ⟨(hcs c (hperm.mem_iff.mp hc)).1, (hcs c (hperm.mem_iff.mp hc)).2.1⟩
    · exact fun c hc => (hcs c (hperm.mem_iff.mp hc)).2.2
  leaves := by
    have hsorted : ((plevel.map fun x => (x.1, x.2.sortChildren)).flatMap fun x => leaves x.2) ~
        plevel.flatMap fun x => x.2.children.flatMap leaves := by
      rw [List.flatMap_map]
      refine List.Perm.flatMap_left plevel fun y hy => ?_
      obtain ⟨-, -, cs, hnode, hne, -⟩ := h.keyed y hy
      rw [hnode]
      exact leaves_sortChildren _ _ _ hne
    have hflat : (plevel.flatMap fun x => x.2.children.flatMap leaves) =
        (plevel.flatMap fun x => x.2.children).flatMap leaves := by rw [List.flatMap_assoc]
    have hmap : (moved.map Prod.snd).flatMap leaves = moved.flatMap fun x => leaves x.2 :=
      List.flatMap_map _ _ _
    exact hsorted.trans (hflat ▸ (h.children.flatMap_right leaves).trans (hmap ▸ hls))

theorem moveAll_spec (hgrid : sp.sg.Lawful Pixel) {xs : LevelMap}
    (hxs : ∀ x ∈ xs, x.2.pixelId = x.1 ∧ sp.sg.level x.1 = level + 1 ∧ Pixel x.1 ∧
      Shaped sp.sg Pixel x.2)
    (h : IsPartialLevel sp.sg Pixel level moved plevel) :
    ∃ plevel', xs.foldlM (moveToParent sp) plevel = .ok plevel' ∧
      IsPartialLevel sp.sg Pixel level (moved ++ xs) plevel' := by
  induction xs generalizing moved plevel with
  | nil => exact ⟨plevel, rfl, by rwa [List.append_nil]⟩
  | cons x xs ih =>
    obtain ⟨hkey, hlevel, hpixel, hshaped⟩ := hxs x List.mem_cons_self
    obtain ⟨plevel₁, hmove, h₁⟩ := h.move hgrid hkey hlevel hpixel hshaped
    obtain ⟨plevel₂, hfold, h₂⟩ := ih (fun y hy => hxs y (List.mem_cons_of_mem _ hy)) h₁
    refine ⟨plevel₂, by rw [List.foldlM_cons, hmove]; exact hfold, ?_⟩
    rwa [List.append_assoc] at h₂

variable {clevel : LevelMap}

theorem parentLevel_spec (hgrid : sp.sg.Lawful Pixel) {order : LevelMap → LevelMap}
    (horder : ∀ m, order m ~ m) (h : IsLevel sp.sg Pixel (level + 1) ls clevel) :
    ∃ plevel, parentLevel sp order clevel = .ok plevel ∧ IsLevel sp.sg Pixel level ls plevel := by
  have hkeyed : ∀ x ∈ order clevel, x.2.pixelId = x.1 ∧ sp.sg.level x.1 = level + 1 ∧ Pixel x.1 ∧
      Shaped sp.sg Pixel x.2 := fun x hx => h.keyed x ((horder clevel).mem_iff.mp hx)
  obtain ⟨plevel, hfold, hpartial⟩ := moveAll_spec hgrid hkeyed IsPartialLevel.nil
  rw [List.nil_append] at hpartial
  refine ⟨_, by rw [parentLevel, hfold]; rfl, hpartial.sorted ?_ ?_⟩
  · have hids : (order clevel).map (fun x => x.2.pixelId) = OrderedMap.keys (order clevel) := by
      refine List.map_congr_left fun x hx => ?_
      exact (hkeyed x hx).1
    rw [hids]
    exact ((horder clevel).map Prod.fst).nodup_iff.mpr h.nodup
  · exact ((horder clevel).flatMap_right _).trans h.leaves

theorem IsLevel.length_le_one (hgrid : sg.Lawful Pixel) (h : IsLevel sg Pixel 0 ls clevel) :
    (OrderedMap.keys clevel).length ≤ 1 := by
  have hsub : OrderedMap.keys clevel ⊆ [sg.rootPixelId] := by
    intro key hkey
    obtain ⟨y, hy, rfl⟩ := List.mem_map.mp hkey
    exact List.mem_singleton.mpr (hgrid.eq_root _ (h.keyed y hy).2.2.1 (h.keyed y hy).2.1)
  exact h.nodup.length_le_of_subset hsub

theorem buildLevels_spec (hgrid : sp.sg.Lawful Pixel) {order : LevelMap → LevelMap}
    (horder : ∀ m, order m ~ m) (h : IsLevel sp.sg Pixel level ls clevel) {fuel : Nat}
    (hfuel : level < fuel) :
    ∃ top, buildLevels sp order fuel clevel = .ok (some top) ∧
      IsLevel sp.sg Pixel 0 ls top := by
  induction level generalizing clevel fuel with
  | zero =>
    obtain ⟨fuel, rfl⟩ := Nat.exists_eq_succ_of_ne_zero (Nat.ne_of_gt hfuel)
    rw [buildLevels]
    cases hcl : order clevel with
    | nil =>
      have hnil : clevel = [] := (hcl ▸ horder clevel).symm.eq_nil
      exact ⟨[], rfl, hnil ▸ h⟩
    | cons x xs =>
      have hx : x ∈ clevel := (horder clevel).mem_iff.mp (hcl ▸ List.mem_cons_self)
      have hxLevel : sp.sg.level x.2.pixelId = 0 := by
        rw [(h.keyed x hx).1, (h.keyed x hx).2.1]
      have hlength : clevel.length ≤ 1 := by
        have hkeys := h.length_le_one hgrid
        simpa [OrderedMap.keys] using hkeys
      have hstop : ¬ (clevel.length > 1 || sp.sg.level x.2.pixelId > 0) = true := by
        simp [hxLevel, Nat.not_lt.mpr hlength]
      exact ⟨clevel, by simp only [if_neg hstop], h⟩
  | succ level ih =>
    obtain ⟨fuel, rfl⟩ := Nat.exists_eq_succ_of_ne_zero (Nat.ne_of_gt (Nat.zero_lt_of_lt hfuel))
    rw [buildLevels]
    cases hcl : order clevel with
    | nil =>
      have hnil : clevel = [] := (hcl ▸ horder clevel).symm.eq_nil
      have hls : [] ~ ls := by
        have hleaves := h.leaves
        rwa [hnil] at hleaves
      exact ⟨[], rfl, List.nodup_nil, fun x hx => by (cases hx), hls⟩
    | cons x xs =>
      have hx : x ∈ clevel := (horder clevel).mem_iff.mp (hcl ▸ List.mem_cons_self)
      have hgo : (clevel.length > 1 || sp.sg.level x.2.pixelId > 0) = true := by
        have hlevel : sp.sg.level x.2.pixelId > 0 := by
          rw [(h.keyed x hx).1, (h.keyed x hx).2.1]
          exact Nat.succ_pos level
        simp [hlevel]
      obtain ⟨plevel, hparent, hplevel⟩ := parentLevel_spec hgrid horder h
      obtain ⟨top, hbuild, htop⟩ := ih hplevel (Nat.lt_of_succ_lt_succ hfuel)
      exact ⟨top, by simp only [if_pos hgo, hparent, ok_bind, hbuild], htop⟩

def NodeOf (sp : Space) (fetchedItems : List ItemIndex) (c : Cell) (n : TreeNode) : Prop :=
  (c.fullMatch = true ∧ n = .node (sp.sgi.pixelId c.cellId) IS_FULL_MATCH npos []) ∨
    (c.fullMatch = false ∧ c.fetched = true ∧ ∃ k < fetchedItems.length,
      n = .node (sp.sgi.pixelId c.cellId) IS_FETCHED (u32 (k + 1)) []) ∨
    (c.fullMatch = false ∧ c.fetched = false ∧ ∃ id, c.slot = .idxPtr id ∧
      n = .node (sp.sgi.pixelId c.cellId) IS_PARTIAL_MATCH id [])

theorem eq_node_of_leaf {t : TreeNode} {p : Nat} (hp : t.pixelId = p) (hleaf : t.children = []) :
    t = .node p t.flags t.itemIndexId [] := by
  cases t with
  | node q f i cs =>
    obtain rfl : cs = [] := hleaf
    obtain rfl : q = p := hp
    rfl

theorem leaves_of_leaf {t : TreeNode} (hleaf : t.children = []) : leaves t = [t] := by
  rw [eq_node_of_leaf rfl hleaf, leaves]

variable {fetchedItems : List ItemIndex}

theorem NodeOf.append {c : Cell} {n : TreeNode} (h : NodeOf sp fetchedItems c n)
    (more : List ItemIndex) : NodeOf sp (fetchedItems ++ more) c n := by
  rcases h with h | ⟨hfull, hfetched, k, hk, hn⟩ | h
  · exact .inl h
  · refine .inr (.inl ⟨hfull, hfetched, k, ?_, hn⟩)
    rw [List.length_append]
    omega
  · exact .inr (.inr h)

theorem NodeOf.pixelId {c : Cell} {n : TreeNode} (h : NodeOf sp fetchedItems c n) :
    n.pixelId = sp.sgi.pixelId c.cellId ∧ n.children = [] := by
  rcases h with ⟨-, rfl⟩ | ⟨-, -, k, -, rfl⟩ | ⟨-, -, id, -, rfl⟩ <;> exact ⟨rfl, rfl⟩

theorem map_pixelId_of_nodeOf {cells : List Cell} {nodes : List TreeNode}
    (h : List.Forall₂ (NodeOf sp fetchedItems) cells nodes) :
    nodes.map TreeNode.pixelId = cells.map fun c => sp.sgi.pixelId c.cellId := by
  induction h with
  | nil => rfl
  | cons hn _ ih => rw [List.map_cons, List.map_cons, hn.pixelId.1, ih]

structure Turned (sp : Space) (cells : List Cell) (st : LevelMap × List ItemIndex) : Prop where
  keys : OrderedMap.keys st.1 = cells.map fun c => sp.sgi.pixelId c.cellId
  nodes : List.Forall₂ (NodeOf sp st.2) cells (st.1.map Prod.snd)
  length : st.2.length ≤ cells.length
  fetched : ((∀ c ∈ cells, c.fullMatch = true ∨ c.fetched = false) ∧ st.2 = []) ∨
    ((∃ c ∈ cells, c.fullMatch = false ∧ c.fetched = true) ∧ st.2 ≠ [] ∧
      ∃ p, .node p IS_FETCHED (u32 st.2.length) [] ∈ st.1.map Prod.snd)

theorem Turned.nil (sp : Space) : Turned sp [] ([], []) where
  keys := rfl
  nodes := .nil
  length := Nat.le_refl _
  fetched := Or.inl ⟨fun c hc => by (cases hc), rfl⟩

variable {st : LevelMap × List ItemIndex}

theorem Turned.keyed {cells : List Cell} (h : Turned sp cells st) :
    ∀ x ∈ st.1, x.2.pixelId = x.1 ∧ x.2.children = [] := by
  have heq : st.1.map (fun x => x.2.pixelId) = st.1.map Prod.fst := by
    calc st.1.map (fun x => x.2.pixelId)
      _ = (st.1.map Prod.snd).map TreeNode.pixelId := by rw [List.map_map]; rfl
      _ = st.1.map Prod.fst := by rw [map_pixelId_of_nodeOf h.nodes, ← h.keys]; rfl
  intro x hx
  refine ⟨List.map_inj_left.mp heq x hx, ?_⟩
  obtain ⟨c, -, hn⟩ := (CellQueryResult.forall₂_exists h.nodes).1 x.2 (List.mem_map_of_mem hx)
  exact hn.pixelId.2

theorem Turned.push {sp : Space} {space : CellSpace} {cells : List Cell}
    {st : LevelMap × List ItemIndex} (h : Turned sp cells st) {c : Cell} (hc : c.Wf space)
    (hnew : sp.sgi.pixelId c.cellId ∉ cells.map fun c => sp.sgi.pixelId c.cellId) :
    ∃ st', cellNodes sp st c = .ok st' ∧ Turned sp (cells ++ [c]) st' := by
  have hfresh : sp.sgi.pixelId c.cellId ∉ OrderedMap.keys st.1 := by rwa [h.keys]
  -- the node is appended, as its pixel is a new key
  have happend : ∀ (n : TreeNode) (more : List ItemIndex), NodeOf sp (st.2 ++ more) c n →
      OrderedMap.assign n.pixelId n st.1 = st.1 ++ [(n.pixelId, n)] ∧
      OrderedMap.keys (st.1 ++ [(n.pixelId, n)]) =
        (cells ++ [c]).map (fun c => sp.sgi.pixelId c.cellId) ∧
      List.Forall₂ (NodeOf sp (st.2 ++ more)) (cells ++ [c])
        ((st.1 ++ [(n.pixelId, n)]).map Prod.snd) := by
    intro n more hn
    have hid := hn.pixelId.1
    refine ⟨OrderedMap.assign_of_not_mem n (by rwa [hid]), ?_, ?_⟩
    · rw [OrderedMap.keys_append, h.keys, List.map_append, hid]
      rfl
    · rw [List.map_append]
      exact List.rel_append (h.nodes.imp fun c n hcn => hcn.append more) (.cons hn .nil)
  have hmem : ∀ d ∈ cells, d ∈ cells ++ [c] := fun d hd => List.mem_append_left _ hd
  have hlast : c ∈ cells ++ [c] := List.mem_append_right _ (List.mem_singleton_self c)
  rcases hfull : c.fullMatch with - | -
  · rcases hfetched : c.fetched with - | -
    · obtain ⟨id, hid⟩ := hc.idSlot hfetched
      have hn : NodeOf sp (st.2 ++ []) c
          (.node (sp.sgi.pixelId c.cellId) IS_PARTIAL_MATCH id []) :=
        Or.inr (.inr ⟨hfull, hfetched, id, hid, rfl⟩)
      obtain ⟨hassign, hkeys, hnodes⟩ := happend _ [] hn
      rw [List.append_nil] at hnodes
      refine ⟨(_, st.2), ?_, hkeys, hnodes, ?_, ?_⟩
      · rw [cellNodes, cellNode]
        simp only [hfull, hfetched, Cell.idxPtr, hid, ok_bind, ← hassign]
        rfl
      · rw [List.length_append]
        exact Nat.le_succ_of_le h.length
      · rcases h.fetched with ⟨hall, hnil⟩ | ⟨⟨d, hd, hdc⟩, hne, p, hp⟩
        · refine .inl ⟨fun d hd => ?_, hnil⟩
          rcases List.mem_append.mp hd with hd | hd
          · exact hall d hd
          · exact .inr (List.mem_singleton.mp hd ▸ hfetched)
        · refine .inr ⟨⟨d, hmem d hd, hdc⟩, hne, p, ?_⟩
          rw [List.map_append]
          exact List.mem_append_left _ hp
    · obtain ⟨i, hi⟩ := hc.fetchedSlot hfetched
      have hlength : (st.2 ++ [i]).length = st.2.length + 1 := List.length_append
      have hn : NodeOf sp (st.2 ++ [i]) c
          (.node (sp.sgi.pixelId c.cellId) IS_FETCHED (u32 (st.2 ++ [i]).length) []) :=
        Or.inr (.inl ⟨hfull, hfetched, st.2.length, by omega, by rw [hlength]⟩)
      obtain ⟨hassign, hkeys, hnodes⟩ := happend _ [i] hn
      refine ⟨(_, st.2 ++ [i]), ?_, hkeys, hnodes, ?_, .inr ⟨⟨c, hlast, hfull, hfetched⟩, ?_, ?_⟩⟩
      · rw [cellNodes, cellNode]
        simp only [hfull, hfetched, Cell.idx, hi, ok_bind, ← hassign]
        rfl
      · rw [List.length_append, List.length_append]
        exact Nat.succ_le_succ h.length
      · simp
      · refine ⟨sp.sgi.pixelId c.cellId, ?_⟩
        rw [List.map_append]
        exact List.mem_append_right _ (List.mem_singleton_self _)
  · have hn : NodeOf sp (st.2 ++ []) c (.node (sp.sgi.pixelId c.cellId) IS_FULL_MATCH npos []) :=
      Or.inl ⟨hfull, rfl⟩
    obtain ⟨hassign, hkeys, hnodes⟩ := happend _ [] hn
    rw [List.append_nil] at hnodes
    refine ⟨(_, st.2), ?_, hkeys, hnodes, ?_, ?_⟩
    · rw [cellNodes, cellNode]
      simp only [hfull, ← hassign]
      rfl
    · rw [List.length_append]
      exact Nat.le_succ_of_le h.length
    · rcases h.fetched with ⟨hall, hnil⟩ | ⟨⟨d, hd, hdc⟩, hne, p, hp⟩
      · refine .inl ⟨fun d hd => ?_, hnil⟩
        rcases List.mem_append.mp hd with hd | hd
        · exact hall d hd
        · exact .inl (List.mem_singleton.mp hd ▸ hfull)
      · refine .inr ⟨⟨d, hmem d hd, hdc⟩, hne, p, ?_⟩
        rw [List.map_append]
        exact List.mem_append_left _ hp

theorem turnAll_spec {space : CellSpace} {done cells : List Cell} (h : Turned sp done st)
    (hcells : ∀ c ∈ cells, c.Wf space)
    (hnodup : ((done ++ cells).map fun c => sp.sgi.pixelId c.cellId).Nodup) :
    ∃ st', cells.foldlM (cellNodes sp) st = .ok st' ∧ Turned sp (done ++ cells) st' := by
  induction cells generalizing done st with
  | nil => exact ⟨st, rfl, by rwa [List.append_nil]⟩
  | cons c cells ih =>
    have hnew : sp.sgi.pixelId c.cellId ∉ done.map fun c => sp.sgi.pixelId c.cellId := by
      rw [List.map_append, List.nodup_append] at hnodup
      exact fun hmem => hnodup.2.2 _ hmem _ List.mem_cons_self rfl
    obtain ⟨st₁, hstep, h₁⟩ := h.push (hcells c List.mem_cons_self) hnew
    rw [List.append_cons] at hnodup ⊢
    obtain ⟨st₂, hfold, h₂⟩ := ih h₁ (fun d hd => hcells d (List.mem_cons_of_mem _ hd)) hnodup
    exact ⟨st₂, by rw [List.foldlM_cons, hstep]; exact hfold, h₂⟩

/-- The cells of the result are pixels of one level, with the items that the grid info and the store
give for them. -/
structure PixelCells (sp : Space) (Pixel : Nat → Prop) (cqr : CellQueryResult) (level : Nat) :
    Prop where
  store : sp.idxStore = cqr.space.idxStore
  storeSize : sp.idxStore.size < 2 ^ 32
  cellCount : cqr.cells.length < 2 ^ 32
  ids : ∀ c ∈ cqr.cells, c.fullMatch = false → ∀ id, c.slot = .idxPtr id → id < sp.idxStore.size
  pixel : ∀ c ∈ cqr.cells, Pixel (sp.sgi.pixelId c.cellId) ∧
    sp.sg.level (sp.sgi.pixelId c.cellId) = level
  inj : ∀ c ∈ cqr.cells, ∀ d ∈ cqr.cells,
    sp.sgi.pixelId c.cellId = sp.sgi.pixelId d.cellId → c.cellId = d.cellId
  items : ∀ c ∈ cqr.cells, sp.sgi.items (sp.sgi.pixelId c.cellId) = cqr.space.cellIdx c.cellId

/-- The hierarchical result has the cells as its leaves: it is valid, every cell is one leaf with the
items of the cell, and its items are those of all cells. -/
structure Represents (sp : Space) (Pixel : Nat → Prop) (cqr : CellQueryResult)
    (r : HCQRSpatialGrid) : Prop where
  valid : ∀ t, r.root = some t → Valid sp Pixel r.fetchedItems t
  leaves : r.allLeaves.map TreeNode.pixelId ~ cqr.cells.map fun c => sp.sgi.pixelId c.cellId
  leafItems : ∀ c ∈ cqr.cells, ∀ l ∈ r.allLeaves, l.pixelId = sp.sgi.pixelId c.cellId →
    leafItems sp r.fetchedItems l = cqr.space.items c
  items : ∃ i, r.allItems sp = .ok i ∧ ∀ id, id ∈ i.ids ↔
    ∃ c ∈ cqr.cells, ∃ j, cqr.space.items c = .ok j ∧ id ∈ j.ids

section

variable {sp : Space} {cqr : CellQueryResult} {level : Nat}

theorem PixelCells.nodup (h : PixelCells sp Pixel cqr level) (hcqr : cqr.Wf) :
    (cqr.cells.map fun c => sp.sgi.pixelId c.cellId).Nodup := by
  refine List.pairwise_map.mpr (hcqr.sorted.imp_of_mem fun {c d} hc hd hlt heq => ?_)
  exact Nat.ne_of_lt hlt (h.inj c hc d hd heq)

theorem ofCellQueryResult_shape (hgrid : sp.sg.Lawful Pixel) {order : LevelMap → LevelMap}
    (horder : ∀ m, order m ~ m) (h : PixelCells sp Pixel cqr level) (hcqr : cqr.Wf) {fuel : Nat}
    (hfuel : level < fuel) :
    ∃ r nodes, ofCellQueryResult sp order fuel cqr = .ok (some r) ∧
      (∀ t, r.root = some t → Shaped sp.sg Pixel t) ∧ r.allLeaves ~ nodes ∧
      List.Forall₂ (NodeOf sp r.fetchedItems) cqr.cells nodes ∧
      r.fetchedItems.length ≤ cqr.cells.length ∧
      (((∀ c ∈ cqr.cells, c.fullMatch = true ∨ c.fetched = false) ∧ r.fetchedItems = []) ∨
        ((∃ c ∈ cqr.cells, c.fullMatch = false ∧ c.fetched = true) ∧ r.fetchedItems ≠ [] ∧
          ∃ p, .node p IS_FETCHED (u32 r.fetchedItems.length) [] ∈ nodes)) := by
  obtain ⟨st, hfold, hturned⟩ := turnAll_spec (Turned.nil sp) hcqr.cells (h.nodup hcqr)
  rw [List.nil_append] at hturned
  have hstart : IsLevel sp.sg Pixel level (st.1.map Prod.snd) st.1 := by
    refine ⟨hturned.keys ▸ h.nodup hcqr, ?_, ?_⟩
    · intro x hx
      obtain ⟨hkey, hleaf⟩ := hturned.keyed x hx
      have hmem : x.1 ∈ cqr.cells.map fun c => sp.sgi.pixelId c.cellId :=
        hturned.keys ▸ List.mem_map_of_mem hx
      obtain ⟨c, hc, hcx⟩ := List.mem_map.mp hmem
      obtain ⟨hpixel, hlevel⟩ := h.pixel c hc
      rw [hcx] at hpixel hlevel
      refine ⟨hkey, hlevel, hpixel, ?_⟩
      rw [show x.2 = .node x.1 x.2.flags x.2.itemIndexId [] from eq_node_of_leaf hkey hleaf]
      exact .leaf hpixel
    · refine List.Perm.of_eq ?_
      have hsingle : ∀ x ∈ st.1, leaves x.2 = [x.2] := fun x hx =>
        leaves_of_leaf (hturned.keyed x hx).2
      rw [List.flatMap_congr hsingle]
      exact List.flatMap_pure_eq_map Prod.snd st.1
  obtain ⟨top, hbuild, htop⟩ := buildLevels_spec hgrid horder hstart hfuel
  refine ⟨_, st.1.map Prod.snd, by rw [ofCellQueryResult, hfold, ok_bind, hbuild]; rfl, ?_, ?_,
    hturned.nodes, hturned.length, hturned.fetched⟩
  · intro t ht
    obtain ⟨x, hx, rfl⟩ := Option.map_eq_some_iff.mp ht
    exact (htop.keyed x ((horder top).mem_iff.mp (List.mem_of_head? hx))).2.2.2
  · have hroots : (OrderedMap.keys top).length ≤ 1 := htop.length_le_one hgrid
    rcases top with - | ⟨x, - | ⟨y, ys⟩⟩
    · have hnil : order [] = [] := (horder []).eq_nil
      simp only [allLeaves, hnil]
      exact htop.leaves
    · have hsingle : order [x] = [x] := (horder [x]).eq_singleton
      simp only [allLeaves, hsingle]
      have hleaves := htop.leaves
      rwa [List.flatMap_cons, List.flatMap_nil, List.append_nil] at hleaves
    · simp [OrderedMap.keys] at hroots

theorem LeafOk.lt_length {fetchedItems : List ItemIndex} {p i : Nat}
    (h : LeafOk sp fetchedItems (.node p IS_FETCHED i [])) : i < fetchedItems.length := by
  generalize hf : IS_FETCHED = f at h
  cases h with
  | full | partialMatch => exact absurd hf (by decide)
  | fetched hi => exact (List.getElem?_eq_some_iff.mp hi).1

theorem items_eq_indexOf (hglobal : cqr.space.isGlobal = true) {c : Cell} (hc : c.Wf cqr.space) :
    cqr.space.items c = .ok (cqr.space.indexOf c) := by
  rw [CellSpace.items, if_pos hglobal, hc.idx_eq]

theorem PixelCells.fullIdx_eq (h : PixelCells sp Pixel cqr level) (hcqr : cqr.Wf)
    (hglobal : cqr.space.isGlobal = true) {c : Cell} (hc : c ∈ cqr.cells) :
    cqr.space.fullIdx c.cellId = sp.sgi.items (sp.sgi.pixelId c.cellId) := by
  have hlocal : ¬ cqr.space.isLocal = true := by
    have hone := hcqr.space.oneIdSpace
    rw [hglobal] at hone
    simpa using hone.symm
  rw [CellSpace.fullIdx, if_neg hlocal, h.items c hc]

theorem NodeOf.leafOk (h : PixelCells sp Pixel cqr level) (hcqr : cqr.Wf)
    (hglobal : cqr.space.isGlobal = true) {c : Cell} (hc : c ∈ cqr.cells)
    (hkind : c.fullMatch = true ∨ c.fetched = false) {fetchedItems : List ItemIndex}
    {n : TreeNode} (hn : NodeOf sp fetchedItems c n) :
    LeafOk sp fetchedItems n ∧ leafItems sp fetchedItems n = cqr.space.items c := by
  have hwf := hcqr.cells c hc
  rw [items_eq_indexOf hglobal hwf]
  rcases hn with ⟨hfull, rfl⟩ | ⟨hfull, hfetched, -⟩ | ⟨hfull, hfetched, id, hid, rfl⟩
  · refine ⟨.full, ?_⟩
    rw [hwf.indexOf_full hfull, h.fullIdx_eq hcqr hglobal hc, leafItems_full]
  · rw [hfull, hfetched] at hkind
    simp at hkind
  · have hlt := h.ids c hc hfull id hid
    have hidx : cqr.space.indexOf c = sp.idxStore.at id := by
      have hok := hwf.idx_eq
      rw [CellSpace.idx, hfetched, hfull, Cell.idxPtr, hid] at hok
      rw [h.store]
      exact (Except.ok.inj hok).symm
    have hpos : id ≠ npos := by
      have hsize := h.storeSize
      have hnpos : npos = 2 ^ 32 - 1 := rfl
      omega
    refine ⟨.partialMatch hlt hpos fun x hx => ?_, ?_⟩
    · rw [← h.fullIdx_eq hcqr hglobal hc]
      exact hwf.mem_full (hidx ▸ hx)
    · rw [hidx, leafItems_partialMatch]

/-- The constructor builds the hierarchical result of the cells exactly if no partial cell is
fetched. -/
theorem ofCellQueryResult_represents_iff (hgrid : sp.sg.Lawful Pixel)
    {order : LevelMap → LevelMap} (horder : ∀ m, order m ~ m)
    (h : PixelCells sp Pixel cqr level) (hcqr : cqr.Wf) (hglobal : cqr.space.isGlobal = true)
    {fuel : Nat} (hfuel : level < fuel) :
    ∃ r, ofCellQueryResult sp order fuel cqr = .ok (some r) ∧
      (Represents sp Pixel cqr r ↔ ∀ c ∈ cqr.cells, c.fullMatch = true ∨ c.fetched = false) := by
  obtain ⟨r, nodes, hr, hshaped, hleaves, hnodes, hlength, hfetched⟩ :=
    ofCellQueryResult_shape hgrid horder h hcqr hfuel
  refine ⟨r, hr, ?_, ?_⟩
  · intro hrep
    rcases hfetched with ⟨hall, -⟩ | ⟨-, -, p, hp⟩
    · exact hall
    · exfalso
      have hmem := hleaves.mem_iff.mpr hp
      cases hroot : r.root with
      | none =>
        rw [allLeaves, hroot] at hmem
        cases hmem
      | some t =>
        rw [allLeaves, hroot] at hmem
        have hlt := ((hrep.valid t hroot).leafOk _ hmem).lt_length
        have hcount := h.cellCount
        rw [u32_of_lt (by omega)] at hlt
        exact Nat.lt_irrefl _ hlt
  · intro hall
    have hleaf : ∀ c ∈ cqr.cells, ∀ n, NodeOf sp r.fetchedItems c n →
        LeafOk sp r.fetchedItems n ∧ leafItems sp r.fetchedItems n = cqr.space.items c :=
      fun c hc n hn => hn.leafOk h hcqr hglobal hc (hall c hc)
    have hofCell := (CellQueryResult.forall₂_exists hnodes)
    have hofLeaf : ∀ l ∈ r.allLeaves, ∃ c ∈ cqr.cells, NodeOf sp r.fetchedItems c l := fun l hl =>
      hofCell.1 l (hleaves.mem_iff.mp hl)
    have hread : ∀ l ∈ r.allLeaves, ∃ i, leafItems sp r.fetchedItems l = .ok i := by
      intro l hl
      obtain ⟨c, hc, hn⟩ := hofLeaf l hl
      exact ⟨_, (hleaf c hc l hn).2.trans (items_eq_indexOf hglobal (hcqr.cells c hc))⟩
    refine ⟨fun t ht => ⟨hshaped t ht, fun l hl => ?_⟩, ?_, ?_, ?_⟩
    · obtain ⟨c, hc, hn⟩ := hofLeaf l (by rwa [allLeaves, ht])
      exact (hleaf c hc l hn).1
    · refine (hleaves.map TreeNode.pixelId).trans (List.Perm.of_eq ?_)
      exact map_pixelId_of_nodeOf hnodes
    · intro c hc l hl hpixel
      obtain ⟨d, hd, hn⟩ := hofLeaf l hl
      have hid := h.inj c hc d hd (hpixel.symm.trans hn.pixelId.1)
      rw [hcqr.sorted.eq hc hd hid]
      exact (hleaf d hd l hn).2
    · have hitems : ∃ i, r.allItems sp = .ok i ∧ ∀ id, id ∈ i.ids ↔
          ∃ l ∈ r.allLeaves, ∃ j, leafItems sp r.fetchedItems l = .ok j ∧ id ∈ j.ids := by
        cases hroot : r.root with
        | none =>
          refine ⟨ItemIndex.empty, by rw [allItems, hroot], fun id => ?_⟩
          simp [allLeaves, hroot, ItemIndex.empty]
        | some t =>
          simp only [allItems, allLeaves, hroot] at hread ⊢
          exact items_eq hread
      obtain ⟨i, hi, hmem⟩ := hitems
      refine ⟨i, hi, fun id => (hmem id).trans ⟨?_, ?_⟩⟩
      · rintro ⟨l, hl, j, hj, hid⟩
        obtain ⟨c, hc, hn⟩ := hofLeaf l hl
        exact ⟨c, hc, j, (hleaf c hc l hn).2.symm.trans hj, hid⟩
      · rintro ⟨c, hc, j, hj, hid⟩
        obtain ⟨n, hn, hcn⟩ := hofCell.2 c hc
        exact ⟨n, hleaves.mem_iff.mpr hn, j, (hleaf c hc n hcn).2.trans hj, hid⟩

end

theorem ascending_both : [10, 20].Pairwise (· < ·) := by decide

theorem inRange_both : ∀ id ∈ [10, 20], id < 2 ^ 32 := by decide

theorem ascending_first : [10].Pairwise (· < ·) := by decide

theorem inRange_first : ∀ id ∈ [10], id < 2 ^ 32 := by decide

theorem twoItems_lt (_ : Nat) : 2 < 2 ^ 32 := by decide

def twoPixels : Space where
  sg := SpatialGrid.twoChildren
  sgi := ⟨fun _ => ⟨[10, 20], ascending_both, inRange_both⟩, (· + 1)⟩
  idxStore := ⟨[⟨[10, 20], ascending_both, inRange_both⟩, ⟨[10], ascending_first, inRange_first⟩]⟩

def twoPixelCells : CellSpace where
  ci := ⟨2, fun _ => 2, fun _ => 0, twoItems_lt⟩
  idxStore := twoPixels.idxStore
  flags := FF_CELL_GLOBAL_ITEM_IDS

theorem wf_twoPixelCells : twoPixelCells.Wf where
  oneIdSpace := by decide
  counts _ _ := rfl

def fullAndStored : CellQueryResult where
  space := twoPixelCells
  cells := [⟨⟨true, false, 0⟩, .idxPtr 0⟩, ⟨⟨false, false, 1⟩, .idxPtr 1⟩]

theorem wf_fullAndStored : fullAndStored.Wf where
  space := wf_twoPixelCells
  sorted := List.pairwise_pair.mpr Nat.zero_lt_one
  cells := by
    intro c hc
    have hcs : c = ⟨⟨true, false, 0⟩, .idxPtr 0⟩ ∨ c = ⟨⟨false, false, 1⟩, .idxPtr 1⟩ := by
      simpa [fullAndStored] using hc
    rcases hcs with rfl | rfl
    · exact CellQueryResult.wf_fullCell Nat.zero_lt_two rfl rfl ⟨0, rfl⟩
    · have hstored : (CellQueryResult.partialCell 1 (.idxPtr 1)).Wf twoPixelCells :=
        CellQueryResult.wf_partialCell Nat.one_lt_two (by decide)
      exact hstored

theorem pixelCells_fullAndStored : PixelCells twoPixels (· ≤ 2) fullAndStored 1 where
  store := rfl
  storeSize := by decide
  cellCount := by decide
  ids := by
    intro c hc hfull id hid
    have hcs : c = ⟨⟨true, false, 0⟩, .idxPtr 0⟩ ∨ c = ⟨⟨false, false, 1⟩, .idxPtr 1⟩ := by
      simpa [fullAndStored] using hc
    rcases hcs with rfl | rfl
    · cases hfull
    · cases hid
      decide
  pixel := by decide
  inj _ _ _ _ heq := Nat.succ.inj heq
  items := by decide

theorem ofCellQueryResult_represents_iff_fullAndStored :
    ∃ r, ofCellQueryResult twoPixels List.reverse 2 fullAndStored = .ok (some r) ∧
      (Represents twoPixels (· ≤ 2) fullAndStored r ↔
        ∀ c ∈ fullAndStored.cells, c.fullMatch = true ∨ c.fetched = false) :=
  ofCellQueryResult_represents_iff SpatialGrid.lawful_twoChildren List.reverse_perm
    pixelCells_fullAndStored wf_fullAndStored (by decide) Nat.one_lt_two

def oneFetched : CellQueryResult where
  space := twoPixelCells
  cells := [⟨⟨false, true, 0⟩, .idx ⟨[10], ascending_first, inRange_first⟩⟩]

theorem wf_oneFetched : oneFetched.Wf where
  space := wf_twoPixelCells
  sorted := List.pairwise_singleton _ _
  cells := by
    intro c hc
    obtain rfl := List.mem_singleton.mp hc
    have hpartial : (CellQueryResult.partialCell 0 (.idx ⟨[10], by decide, by decide⟩)).Wf
        twoPixelCells := CellQueryResult.wf_partialCell Nat.zero_lt_two (by decide)
    exact hpartial

theorem pixelCells_oneFetched : PixelCells twoPixels (· ≤ 2) oneFetched 1 where
  store := rfl
  storeSize := by decide
  cellCount := by decide
  ids := by
    intro c hc _ id hid
    obtain rfl := List.mem_singleton.mp hc
    cases hid
  pixel := by decide
  inj _ _ _ _ heq := Nat.succ.inj heq
  items := by decide

/-- The only fetched index is numbered 1. -/
theorem not_represents_oneFetched :
    oneFetched.Wf ∧ PixelCells twoPixels (· ≤ 2) oneFetched 1 ∧
      ∃ r, ofCellQueryResult twoPixels List.reverse 2 oneFetched = .ok (some r) ∧
        ¬ Represents twoPixels (· ≤ 2) oneFetched r := by
  refine ⟨wf_oneFetched, pixelCells_oneFetched, ⟨some (.node 0 IS_INTERNAL npos [.node 1 IS_FETCHED 1 []]),
    [⟨[10], by decide, by decide⟩]⟩, rfl, fun h => ?_⟩
  have hvalid := h.valid _ rfl
  have hleaf := hvalid.leafOk (.node 1 IS_FETCHED 1 []) (List.mem_singleton_self _)
  exact Nat.lt_irrefl 1 hleaf.lt_length

end HCQRSpatialGrid

end Sserialize
