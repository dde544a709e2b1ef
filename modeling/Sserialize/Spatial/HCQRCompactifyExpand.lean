import Sserialize.Spatial.HCQRSpatialGridOpsCorrect

/-!
# `HCQRSpatialGrid::compactified` and `HCQRSpatialGrid::expanded`

Both write a new tree and new fetched indices. `R` relates the pixels of the children of a node from
left to right: the children of a valid tree are ascending, those that `expandPartialMatchNode`
creates are in the order in which the grid enumerates them.
-/

namespace Sserialize.HCQRSpatialGrid

section

variable (sp : Space)

def each {α : Type} (f : α → Op TreeNode) : List α → Op (List TreeNode)
  | [] => fun dest => .ok ([], dest)
  | x :: xs => fun dest => do
    let (t, dest) ← f x dest
    let (ts, dest) ← each f xs dest
    return (t :: ts, dest)

/-! ## `compactified` -/

def joinFlags (children : List TreeNode) : Nat :=
  children.foldl (fun flags c => flags ||| c.flags) 0

def popFetched (children : List TreeNode) (dest : List ItemIndex) : Except Fault (List ItemIndex) :=
  children.reverse.foldlM (fun dest c =>
    if c.isFetched then if dest.isEmpty then .error .undefinedBehaviour else .ok dest.dropLast
    else .ok dest) dest

variable (sizeInBytes : Nat → ItemIndex → Nat)

/-- The union of the indices of the children, if it is to replace them. `sizeInBytes` has the
encoded size of the index at a pixel. -/
def mergedIndex (maxPMLevel p : Nat) (children : List TreeNode) (dest : List ItemIndex) :
    Except Fault (Option ItemIndex) :=
  if joinFlags children &&& (IS_FULL_MATCH ||| IS_INTERNAL) ≠ 0 then .ok none
  else if 2 ^ 31 ≤ maxPMLevel then .error .typeOverflow
  else if sp.sg.level p ≤ maxPMLevel then .ok none
  else do
    let indexes ← itemsOfList sp dest children
    let dataSize := (List.zipWith (fun x i => sizeInBytes x.pixelId i) children indexes).sum
    let merged := uniteAll indexes
    return if sizeInBytes p merged < dataSize then some merged else none

def mergeChildren (maxPMLevel p : Nat) (children : List TreeNode) : Op TreeNode := fun dest => do
  match ← mergedIndex sp sizeInBytes maxPMLevel p children dest with
  | some merged =>
    let dest ← popFetched children dest
    fetchedLeaf p merged dest
  | none =>
    if joinFlags children &&& 0xFFFFFFFB ≠ 0 ∨ sp.sg.childrenCount p ≠ children.length then
      return (.node p IS_INTERNAL npos children, dest)
    else return (fullLeaf p, dest)

/-- The `Recurser` of `compactified`. It copies a leaf as `deepCopy` does. -/
def compactNode (src : List ItemIndex) (maxPMLevel : Nat) (node : TreeNode) : Op TreeNode :=
  fun dest =>
    if node.isInternal then do
      let (children, dest) ←
        eachNode node.children (fun c _ => someNode (compactNode src maxPMLevel c)) dest
      mergeChildren sp sizeInBytes maxPMLevel node.pixelId children dest
    else deepCopy sp src node dest
termination_by sizeOf node
decreasing_by exact sizeOf_lt_of_mem_children ‹_›

/-! ## `expanded` -/

/-- `expandFullMatchNode`. The levels count from the last one down. -/
def expandFullMatchNode : Nat → TreeNode → Op TreeNode
  | 0, node => fun dest => .ok (node, dest)
  | levels + 1, node => fun dest =>
    if sp.sg.childrenCount node.pixelId = 0 then .ok (node, dest)
    else do
      let pids ← pixelChildren sp node.pixelId
      let (children, dest) ← each (fun pid => expandFullMatchNode levels (fullLeaf pid)) pids dest
      return (.node node.pixelId IS_INTERNAL node.itemIndexId children, dest)

def expandPartialMatchNode : Nat → Nat → ItemIndex → Op TreeNode
  | 0, p, items => fetchedLeaf p items
  | levels + 1, p, items => fun dest =>
    if sp.sg.childrenCount p = 0 then fetchedLeaf p items dest
    else do
      let (children, dest) ← each (fun i dest => do
        let childPixelId ← sp.sg.index p i
        expandPartialMatchNode levels childPixelId
          (ItemIndex.apply .intersect (sp.sgi.items childPixelId) items) dest)
        (List.range (sp.sg.childrenCount p)) dest
      return (.node p IS_INTERNAL npos children, dest)

def expandNode (src : List ItemIndex) : Nat → TreeNode → Op TreeNode
  | 0, node => deepCopy sp src node
  | levels + 1, node => fun dest =>
    if node.isInternal then do
      let (children, dest) ← each (expandNode src levels) node.children dest
      return (.node node.pixelId node.flags npos children, dest)
    else if node.isFullMatch then expandFullMatchNode sp (levels + 1) node dest
    else do
      let nodeItems ← items sp src node
      expandPartialMatchNode sp (levels + 1) node.pixelId nodeItems dest

def rebuild (f : TreeNode → Op TreeNode) (r : HCQRSpatialGrid) : Except Fault HCQRSpatialGrid :=
  match r.root with
  | some root => do
    let (root, fetchedItems) ← f root []
    return ⟨some root, fetchedItems⟩
  | none => .ok ⟨none, []⟩

def compactified (maxPMLevel : Nat) (r : HCQRSpatialGrid) : Except Fault HCQRSpatialGrid :=
  rebuild (compactNode sp sizeInBytes r.fetchedItems maxPMLevel) r

def expanded (level : Nat) (r : HCQRSpatialGrid) : Except Fault HCQRSpatialGrid :=
  rebuild (expandNode sp r.fetchedItems level) r

end

/-- A call of `compactified`, with the sizes of its indices, or of `expanded`. -/
inductive Call where
  | compactified (sizeInBytes : Nat → ItemIndex → Nat) (maxPMLevel : Nat)
  | expanded (level : Nat)

namespace Call

def run (sp : Space) (r : HCQRSpatialGrid) : Call → Except Fault HCQRSpatialGrid
  | compactified sizeInBytes maxPMLevel =>
    HCQRSpatialGrid.compactified sp sizeInBytes maxPMLevel r
  | expanded level => HCQRSpatialGrid.expanded sp level r

/-- The level is an `int`, as `compactified` checks it. -/
def Small : Call → Prop
  | compactified _ maxPMLevel => maxPMLevel < 2 ^ 31
  | expanded _ => True

end Call

def runCalls (sp : Space) (calls : List Call) (r : HCQRSpatialGrid) :
    Except Fault HCQRSpatialGrid :=
  calls.foldlM (Call.run sp) r

/-! ## Trees with related children -/

/-- A tree whose leaves are right and whose children are child pixels related by `R`. -/
inductive Formed (R : Nat → Nat → Prop) (sp : Space) (Pixel : Nat → Prop) (F : List ItemIndex) :
    TreeNode → Prop where
  | leaf {t : TreeNode} (hp : Pixel t.pixelId) (hok : LeafOk sp F t) : Formed R sp Pixel F t
  | internal {p i : Nat} {cs : List TreeNode} (hp : Pixel p) (hne : cs ≠ [])
      (hparent : ∀ c ∈ cs, 0 < sp.sg.level c.pixelId ∧ sp.sg.parent c.pixelId = .ok p)
      (hrel : (cs.map TreeNode.pixelId).Pairwise R)
      (hcs : ∀ c ∈ cs, Formed R sp Pixel F c) : Formed R sp Pixel F (.node p IS_INTERNAL i cs)

def Has (sp : Space) (F : List ItemIndex) (t : TreeNode) (id : Nat) : Prop :=
  ∃ l ∈ leaves t, ∃ i, leafItems sp F l = .ok i ∧ id ∈ i.ids

def fetchedLeaves (t : TreeNode) : Nat := (leaves t).countP TreeNode.isFetched

variable {sp : Space} {Pixel : Nat → Prop} {R : Nat → Nat → Prop} {F F' : List ItemIndex}
  {t : TreeNode} {id : Nat}

theorem LeafOk.children (h : LeafOk sp F t) : t.children = [] := by
  cases h <;> rfl

theorem LeafOk.has_iff (h : LeafOk sp F t) :
    ∃ x, leafItems sp F t = .ok x ∧ ∀ id, Has sp F t id ↔ id ∈ x.ids := by
  obtain ⟨x, -, hx, -⟩ := h.items_eq
  refine ⟨x, hx, fun id => ?_⟩
  simp [Has, leaves_of_leaf h.children, hx]

variable {cs : List TreeNode}

theorem has_node {p f i : Nat} (hne : cs ≠ []) :
    Has sp F (.node p f i cs) id ↔ ∃ c ∈ cs, Has sp F c id := by
  rw [Has, leaves_internal hne]
  constructor
  · rintro ⟨l, hl, h⟩
    obtain ⟨c, hc, hl⟩ := List.mem_flatMap.mp hl
    exact ⟨c, hc, l, hl, h⟩
  · rintro ⟨c, hc, l, hl, h⟩
    exact ⟨l, List.mem_flatMap.mpr ⟨c, hc, hl⟩, h⟩

theorem fetchedLeaves_node {p f i : Nat} (hne : cs ≠ []) :
    fetchedLeaves (.node p f i cs) = (cs.map fetchedLeaves).sum := by
  rw [fetchedLeaves, leaves_internal hne, List.countP_flatMap]
  rfl

theorem fetchedLeaves_leaf (hnil : t.children = []) :
    fetchedLeaves t = if t.isFetched then 1 else 0 := by
  rw [fetchedLeaves, leaves_of_leaf hnil, List.countP_singleton]

variable {ts : List TreeNode}

theorem sum_fetchedLeaves (hts : ∀ t ∈ ts, t.children = []) :
    (ts.map fetchedLeaves).sum = ts.countP TreeNode.isFetched := by
  induction ts with
  | nil => rfl
  | cons t ts ih =>
    rw [List.map_cons, List.sum_cons, fetchedLeaves_leaf (hts t List.mem_cons_self),
      ih fun u hu => hts u (List.mem_cons_of_mem t hu), List.countP_cons, Nat.add_comm]

namespace Formed

theorem pixel (h : Formed R sp Pixel F t) : Pixel t.pixelId := by
  cases h with
  | leaf hp => exact hp
  | internal hp => exact hp

theorem leafOk (h : Formed R sp Pixel F t) : ∀ l ∈ leaves t, LeafOk sp F l := by
  induction h with
  | leaf _ hok =>
    rw [leaves_of_leaf hok.children]
    exact fun l hl => List.mem_singleton.mp hl ▸ hok
  | internal _ hne _ _ _ ih =>
    rw [leaves_internal hne]
    intro l hl
    obtain ⟨c, hc, hl⟩ := List.mem_flatMap.mp hl
    exact ih c hc l hl

theorem mono (h : Formed R sp Pixel F t) (hF : F <+: F') : Formed R sp Pixel F' t := by
  induction h with
  | leaf hp hok => exact .leaf hp (hok.mono hF).1
  | internal hp hne hparent hrel _ ih => exact .internal hp hne hparent hrel ih

theorem has_mono (h : Formed R sp Pixel F t) (hF : F <+: F') :
    Has sp F' t id ↔ Has sp F t id := by
  refine exists_congr fun l => and_congr_right fun hl => ?_
  rw [((h.leafOk l hl).mono hF).2]

theorem mem_items (h : Formed R sp Pixel F t) (hsp : sp.Lawful Pixel) (hid : Has sp F t id) :
    id ∈ (sp.sgi.items t.pixelId).ids := by
  induction h with
  | leaf _ hok =>
    obtain ⟨x, hx, hhas⟩ := hok.has_iff
    obtain ⟨y, -, hy, hsub, -⟩ := hok.items_eq
    obtain rfl := Except.ok.inj (hx.symm.trans hy)
    exact hsub id ((hhas id).mp hid)
  | internal _ hne hparent _ hcs ih =>
    obtain ⟨c, hc, hid⟩ := (has_node hne).mp hid
    have hcov := SpatialGrid.Covers.child .refl (hparent c hc).1 (hparent c hc).2
    exact hsp.items_subset hcov (hcs c hc).pixel (ih c hc hid)

theorem items_eq (h : Formed R sp Pixel F t) :
    ∃ i, items sp F t = .ok i ∧ ∀ id, id ∈ i.ids ↔ Has sp F t id := by
  refine HCQRSpatialGrid.items_eq fun l hl => ?_
  obtain ⟨x, -, hx, -⟩ := (h.leafOk l hl).items_eq
  exact ⟨x, hx⟩

theorem of_valid (h : Valid sp Pixel F t) (hR : ∀ a b, a < b → R a b) :
    Formed R sp Pixel F t := by
  obtain ⟨hshaped, hleaf⟩ := h
  induction hshaped with
  | leaf hp => exact .leaf hp (hleaf _ (by rw [leaves]; exact List.mem_singleton_self _))
  | internal hp hne hparent hsorted _ ih =>
    refine .internal hp hne hparent ?_ fun c hc => ih c hc fun l hl => hleaf l ?_
    · exact List.pairwise_map.mpr (hsorted.imp (hR _ _))
    · rw [leaves_internal hne]
      exact List.mem_flatMap.mpr ⟨c, hc, hl⟩

theorem valid (h : Formed (· < ·) sp Pixel F t) : Valid sp Pixel F t := by
  refine ⟨?_, h.leafOk⟩
  induction h with
  | leaf hp hok => cases hok <;> exact .leaf hp
  | internal hp hne hparent hrel _ ih =>
    exact .internal hp hne hparent (List.pairwise_map.mp hrel) ih

end Formed

/-! ## What a step creates -/

/-- The step creates a tree with the items `P`, of which `Q` holds, and pushes one index for each
fetched leaf of it. -/
def Builds (R : Nat → Nat → Prop) (sp : Space) (Pixel : Nat → Prop) (P : Nat → Prop)
    (Q : TreeNode → Prop) (f : Op TreeNode) : Prop :=
  ∀ dest, ∃ t more, f dest = .ok (t, dest ++ more) ∧ Formed R sp Pixel (dest ++ more) t ∧
    (∀ id, Has sp (dest ++ more) t id ↔ P id) ∧ more.length = fetchedLeaves t ∧ Q t

def BuildsAll {α : Type} (R : Nat → Nat → Prop) (sp : Space) (Pixel : Nat → Prop) (P : Nat → Prop)
    (Q : α → TreeNode → Prop) (xs : List α) (f : Op (List TreeNode)) : Prop :=
  ∀ dest, ∃ ts more, f dest = .ok (ts, dest ++ more) ∧
    (∀ t ∈ ts, Formed R sp Pixel (dest ++ more) t) ∧
    (∀ id, (∃ t ∈ ts, Has sp (dest ++ more) t id) ↔ P id) ∧
    more.length = (ts.map fetchedLeaves).sum ∧ List.Forall₂ Q xs ts

theorem Builds.imp {P P' : Nat → Prop} {Q Q' : TreeNode → Prop} {f : Op TreeNode}
    (h : Builds R sp Pixel P Q f) (hP : ∀ id, P id ↔ P' id) (hQ : ∀ t, Q t → Q' t) :
    Builds R sp Pixel P' Q' f := by
  intro dest
  obtain ⟨t, more, hrun, ht, hhas, hcount, hq⟩ := h dest
  exact ⟨t, more, hrun, ht, fun id => (hhas id).trans (hP id), hcount, hQ t hq⟩

theorem buildsAll_each {α : Type} {P : α → Nat → Prop} {Q : α → TreeNode → Prop}
    {f : α → Op TreeNode} {xs : List α} (h : ∀ x ∈ xs, Builds R sp Pixel (P x) (Q x) (f x)) :
    BuildsAll R sp Pixel (fun id => ∃ x ∈ xs, P x id) Q xs (each f xs) := by
  induction xs with
  | nil => exact fun dest => ⟨[], [], by simp [each], by simp, by simp, rfl, .nil⟩
  | cons x xs ih =>
    intro dest
    obtain ⟨t, more₁, hx, ht, hhas, hcount, hQ⟩ := h x List.mem_cons_self dest
    obtain ⟨ts, more₂, hxs, hts, hhases, hcounts, hQs⟩ :=
      ih (fun y hy => h y (List.mem_cons_of_mem x hy)) (dest ++ more₁)
    rw [List.append_assoc] at hxs hts hhases
    have hprefix : dest ++ more₁ <+: dest ++ (more₁ ++ more₂) := by
      rw [← List.append_assoc]
      exact List.prefix_append _ _
    refine ⟨t :: ts, more₁ ++ more₂, ?_, ?_, fun id => ?_, ?_, .cons hQ hQs⟩
    · rw [each]
      dsimp only
      rw [hx, ok_bind]
      dsimp only
      rw [hxs]
      rfl
    · exact List.forall_mem_cons.mpr ⟨ht.mono hprefix, hts⟩
    · simp only [List.mem_cons, exists_eq_or_imp]
      rw [ht.has_mono hprefix, hhas, hhases]
    · rw [List.length_append, hcount, hcounts, List.map_cons, List.sum_cons]

theorem eachNode_eq {f : TreeNode → Op TreeNode} :
    eachNode cs (fun c _ => someNode (f c)) = each f cs := by
  induction cs with
  | nil => rfl
  | cons c cs ih =>
    funext dest
    rw [eachNode, each, ← ih, pushNode]
    simp only [someNode]
    cases f c dest <;> rfl

theorem map_pixelId {α : Type} {Q : α → TreeNode → Prop} {pix : α → Nat} {xs : List α}
    (hQ : ∀ x t, Q x t → t.pixelId = pix x) (h : List.Forall₂ Q xs ts) :
    ts.map TreeNode.pixelId = xs.map pix := by
  induction h with
  | nil => rfl
  | cons hxt _ ih => rw [List.map_cons, List.map_cons, hQ _ _ hxt, ih]

theorem forall_pixelId {α : Type} (S : Nat → Prop) {pix : α → Nat} {xs : List α}
    (h : ts.map TreeNode.pixelId = xs.map pix) (hxs : ∀ x ∈ xs, S (pix x)) :
    ∀ t ∈ ts, S t.pixelId := by
  refine List.forall_mem_map.mp ?_
  rw [h]
  exact List.forall_mem_map.mpr hxs

/-- A new internal node from a loop that creates its children at the pixels `pix`. -/
theorem BuildsAll.node {α : Type} {P : Nat → Prop} {Q : α → TreeNode → Prop} {pix : α → Nat}
    {p : Nat} {xs : List α} {f : Op (List TreeNode)} (h : BuildsAll R sp Pixel P Q xs f)
    (hQ : ∀ x t, Q x t → t.pixelId = pix x) (i : Nat) (hp : Pixel p) (hne : xs ≠ [])
    (hparent : ∀ x ∈ xs, 0 < sp.sg.level (pix x) ∧ sp.sg.parent (pix x) = .ok p)
    (hrel : (xs.map pix).Pairwise R) :
    Builds R sp Pixel P (fun t => t.pixelId = p ∧ t.flags = IS_INTERNAL ∧ t.children ≠ [])
      fun dest => do
        let (children, dest) ← f dest
        return (.node p IS_INTERNAL i children, dest) := by
  intro dest
  obtain ⟨ts, more, hrun, hts, hhas, hcount, hQs⟩ := h dest
  have hpids := map_pixelId hQ hQs
  have hts_ne : ts ≠ [] := by
    rintro rfl
    exact hne (List.map_eq_nil_iff.mp hpids.symm)
  refine ⟨.node p IS_INTERNAL i ts, more, ?_, ?_, fun id => ?_, ?_, rfl, rfl, hts_ne⟩
  · dsimp only
    rw [hrun]
    rfl
  · exact .internal hp hts_ne (forall_pixelId (fun c => 0 < sp.sg.level c ∧ sp.sg.parent c = .ok p)
      hpids hparent) (hpids ▸ hrel) hts
  · rw [has_node hts_ne, hhas]
  · rw [hcount, fetchedLeaves_node hts_ne]

variable {x : ItemIndex}

/-- A leaf without a fetched index is the same in all results. -/
theorem builds_leaf (hp : Pixel t.pixelId)
    (hok : ∀ dest, LeafOk sp dest t ∧ leafItems sp dest t = .ok x) (hnot : t.isFetched = false) :
    Builds R sp Pixel (· ∈ x.ids) (· = t) fun dest => .ok (t, dest) := by
  intro dest
  obtain ⟨hleaf, hread⟩ := hok dest
  obtain ⟨y, hy, hhas⟩ := hleaf.has_iff
  obtain rfl := Except.ok.inj (hread.symm.trans hy)
  refine ⟨t, [], by rw [List.append_nil], ?_⟩
  rw [List.append_nil]
  exact ⟨.leaf hp hleaf, hhas, by rw [fetchedLeaves_leaf hleaf.children, hnot]; rfl, rfl⟩

variable {p : Nat}

theorem builds_fullLeaf (hp : Pixel p) :
    Builds R sp Pixel (· ∈ (sp.sgi.items p).ids) (· = fullLeaf p)
      fun dest => .ok (fullLeaf p, dest) :=
  builds_leaf hp (fun dest => ⟨.full, leafItems_full sp dest p npos []⟩)
    (isFetched_eq_false rfl)

theorem has_fullLeaf : Has sp F (fullLeaf p) id ↔ id ∈ (sp.sgi.items p).ids := by
  have hok : LeafOk sp F (fullLeaf p) := .full
  obtain ⟨x, hx, hhas⟩ := hok.has_iff
  obtain rfl := Except.ok.inj ((leafItems_full sp F p npos []).symm.trans hx)
  exact hhas id

theorem builds_fetchedLeaf (hp : Pixel p) (hsub : ∀ id ∈ x.ids, id ∈ (sp.sgi.items p).ids) :
    Builds R sp Pixel (· ∈ x.ids)
      (fun t => t.pixelId = p ∧ t.flags = IS_FETCHED ∧ t.children = []) (fetchedLeaf p x) := by
  intro dest
  have hread : (dest ++ [x])[dest.length]? = some x := List.getElem?_concat_length
  have hok : LeafOk sp (dest ++ [x]) (.node p IS_FETCHED dest.length []) := .fetched hread hsub
  obtain ⟨y, hy, hhas⟩ := hok.has_iff
  obtain rfl := Except.ok.inj ((leafItems_fetched sp p hread []).symm.trans hy)
  exact ⟨_, [x], rfl, .leaf hp hok, hhas,
    by rw [fetchedLeaves_leaf rfl, isFetched_fetched]; rfl, rfl, rfl, rfl⟩

def Copies (t t' : TreeNode) : Prop :=
  t'.pixelId = t.pixelId ∧ t'.flags = t.flags ∧ (t'.children = [] ↔ t.children = [])

variable {src : List ItemIndex}

theorem deepCopy_unfetched (hnil : t.children = []) (hnot : t.isFetched = false) :
    deepCopy sp src t = fun dest => .ok (t, dest) := by
  funext dest
  rw [deepCopy_leaf hnil, hnot]
  rfl

theorem deepCopy_fetched {p i : Nat} (hi : src[i]? = some x) :
    deepCopy sp src (.node p IS_FETCHED i []) = fetchedLeaf p x := by
  funext dest
  rw [deepCopy_leaf rfl, isFetched_fetched, if_pos rfl, items_of_leaf, leafItems_fetched sp p hi]
  rfl

theorem builds_deepCopy (ht : Formed R sp Pixel src t) :
    Builds R sp Pixel (Has sp src t) (Copies t) (deepCopy sp src t) := by
  induction ht with
  | @leaf t hp hok =>
    obtain ⟨x, hx, hhas⟩ := hok.has_iff
    have hkeeps : ∀ u, u = t → Copies t u := by
      rintro u rfl
      exact ⟨rfl, rfl, Iff.rfl⟩
    refine Builds.imp ?_ (fun id => (hhas id).symm) fun _ h => h
    cases hok with
    | @full p =>
      rw [deepCopy_unfetched rfl (isFetched_eq_false rfl)]
      obtain rfl := Except.ok.inj ((leafItems_full sp src p npos []).symm.trans hx)
      exact (builds_fullLeaf hp).imp (fun _ => Iff.rfl) hkeeps
    | @fetched p i idx hi hitems =>
      rw [deepCopy_fetched hi]
      obtain rfl := Except.ok.inj ((leafItems_fetched sp p hi []).symm.trans hx)
      exact (builds_fetchedLeaf hp hitems).imp (fun _ => Iff.rfl) fun u h =>
        ⟨h.1, h.2.1, iff_of_true h.2.2 rfl⟩
    | @partialMatch p i hi hpos hitems =>
      rw [deepCopy_unfetched rfl (isFetched_eq_false rfl)]
      obtain rfl := Except.ok.inj ((leafItems_partialMatch sp src p i []).symm.trans hx)
      exact .imp (builds_leaf hp (fun dest => ⟨.partialMatch hi hpos hitems,
        leafItems_partialMatch sp dest p i []⟩) (isFetched_eq_false rfl)) (fun _ => Iff.rfl) hkeeps
  | @internal p i cs hp hne hparent hrel _ ih =>
    have hnode := (buildsAll_each ih).node (fun _ _ h => h.1) i hp hne hparent hrel
    have hrun : deepCopy sp src (.node p IS_INTERNAL i cs) = fun dest => do
        let (children, dest) ← each (deepCopy sp src) cs dest
        return (.node p IS_INTERNAL i children, dest) := by
      funext dest
      have hinternal : (TreeNode.node p IS_INTERNAL i cs).isInternal = true :=
        isInternal_of_ne_nil hne
      rw [deepCopy, if_pos hinternal, ← eachNode_eq]
      rfl
    rw [hrun]
    exact hnode.imp (fun id => (has_node hne).symm) fun u h =>
      ⟨h.1, h.2.1, iff_of_false h.2.2 hne⟩

/-! ## `expanded` -/

/-- The grid enumerates the children of `p`, and of the pixels below it, in an order with `R`. -/
def Enumerates (R : Nat → Nat → Prop) (sp : Space) (Pixel : Nat → Prop) (p : Nat) : Prop :=
  ∀ q, Pixel q → sp.sg.Covers p q → ∀ pids,
    (List.range (sp.sg.childrenCount q)).mapM (sp.sg.index q) = .ok pids → pids.Pairwise R

theorem enumerates_ne (hsp : sp.Lawful Pixel) (p : Nat) : Enumerates (· ≠ ·) sp Pixel p := by
  intro q hq _ pids hpids
  obtain ⟨pids', hpids', -, hnodup, -⟩ := index_children hsp hq
  obtain rfl := Except.ok.inj (hpids.symm.trans hpids')
  exact hnodup

theorem builds_expandFullMatchNode (hsp : sp.Lawful Pixel) (hR : ∀ a b, a < b → R a b)
    (levels : Nat) (hp : Pixel p) :
    Builds R sp Pixel (· ∈ (sp.sgi.items p).ids) (·.pixelId = p)
      (expandFullMatchNode sp levels (fullLeaf p)) := by
  have hstop : ∀ p, Pixel p → Builds R sp Pixel (· ∈ (sp.sgi.items p).ids) (·.pixelId = p)
      fun dest => .ok (fullLeaf p, dest) := fun p hp =>
    (builds_fullLeaf hp).imp (fun _ => Iff.rfl) fun t ht => ht ▸ rfl
  induction levels generalizing p with
  | zero => exact hstop p hp
  | succ levels ih =>
    by_cases hcount : sp.sg.childrenCount p = 0
    · have hrun : expandFullMatchNode sp (levels + 1) (fullLeaf p) =
          fun dest => .ok (fullLeaf p, dest) := by
        funext dest
        exact if_pos hcount
      rw [hrun]
      exact hstop p hp
    · obtain ⟨pids, hpids, hlength, hsorted, hmem⟩ := pixelChildren_spec hsp hp
      have hpos := Nat.pos_of_ne_zero hcount
      have hkids := buildsAll_each fun c hc => ih ((hmem c).mp hc).1
      have hne : pids ≠ [] := List.ne_nil_of_length_pos (hlength ▸ hpos)
      have hnode := hkids.node (fun _ _ h => h) npos hp hne (fun c hc => ((hmem c).mp hc).2)
        (by rw [List.map_id']; exact hsorted.imp (hR _ _))
      have hrun : expandFullMatchNode sp (levels + 1) (fullLeaf p) = fun dest => do
          let (children, dest) ←
            each (fun pid => expandFullMatchNode sp levels (fullLeaf pid)) pids dest
          return (.node p IS_INTERNAL npos children, dest) := by
        funext dest
        have hpixel : (fullLeaf p).pixelId = p := rfl
        rw [expandFullMatchNode]
        simp only [hpixel, if_neg hcount, hpids]
        rfl
      rw [hrun]
      refine hnode.imp (fun id => ?_) fun _ h => h.1
      rw [hsp.items p hp hpos]
      refine exists_congr fun c => ?_
      rw [hmem]
      tauto

theorem each_index {α β : Type} {g : α → Except Fault β} {f : β → Op TreeNode} {xs : List α}
    {ys : List β} (h : xs.mapM g = .ok ys) :
    each (fun x dest => do let y ← g x; f y dest) xs = each f ys := by
  induction xs generalizing ys with
  | nil =>
    obtain rfl := Except.ok.inj h
    rfl
  | cons x xs ih =>
    rw [List.mapM_cons] at h
    obtain ⟨y, hy, h⟩ := bind_eq_ok h
    obtain ⟨ys', hys, h⟩ := bind_eq_ok h
    obtain rfl := Except.ok.inj h
    funext dest
    rw [each, each, ih hys, hy]
    rfl

theorem builds_expandPartialMatchNode (hsp : sp.Lawful Pixel) (levels : Nat) (hp : Pixel p)
    (hindex : Enumerates R sp Pixel p) (hsub : ∀ id ∈ x.ids, id ∈ (sp.sgi.items p).ids) :
    Builds R sp Pixel (· ∈ x.ids) (·.pixelId = p) (expandPartialMatchNode sp levels p x) := by
  have hstop : ∀ p, Pixel p → ∀ x : ItemIndex, (∀ id ∈ x.ids, id ∈ (sp.sgi.items p).ids) →
      Builds R sp Pixel (· ∈ x.ids) (·.pixelId = p) (fetchedLeaf p x) := fun p hp x hsub =>
    (builds_fetchedLeaf hp hsub).imp (fun _ => Iff.rfl) fun _ h => h.1
  induction levels generalizing p x with
  | zero => exact hstop p hp x hsub
  | succ levels ih =>
    by_cases hcount : sp.sg.childrenCount p = 0
    · have hrun : expandPartialMatchNode sp (levels + 1) p x = fetchedLeaf p x := by
        funext dest
        exact if_pos hcount
      rw [hrun]
      exact hstop p hp x hsub
    · obtain ⟨pids, hpids, hlength, -, hmem⟩ := index_children hsp hp
      have hpos := Nat.pos_of_ne_zero hcount
      have hkids := buildsAll_each fun c hc => by
        obtain ⟨hc, hlevel, hparent⟩ := (hmem c).mp hc
        exact ih hc (fun q hq hcov => hindex q hq ((SpatialGrid.Covers.child .refl hlevel
          hparent).trans hcov)) (x := ItemIndex.apply .intersect (sp.sgi.items c) x)
          fun id hid => ((ItemIndex.mem_apply .intersect _ _ id).mp hid).1
      have hne : pids ≠ [] := List.ne_nil_of_length_pos (hlength ▸ hpos)
      have hnode := hkids.node (fun _ _ h => h) npos hp hne (fun c hc => ((hmem c).mp hc).2)
        (by rw [List.map_id']; exact hindex p hp .refl pids hpids)
      have hrun : expandPartialMatchNode sp (levels + 1) p x = fun dest => do
          let (children, dest) ← each (fun c => expandPartialMatchNode sp levels c
            (ItemIndex.apply .intersect (sp.sgi.items c) x)) pids dest
          return (.node p IS_INTERNAL npos children, dest) := by
        funext dest
        rw [expandPartialMatchNode]
        dsimp only
        rw [if_neg hcount, each_index hpids]
      rw [hrun]
      refine hnode.imp (fun id => ?_) fun _ h => h.1
      constructor
      · rintro ⟨c, -, hid⟩
        exact ((ItemIndex.mem_apply .intersect _ _ id).mp hid).2
      · intro hid
        obtain ⟨c, hc, hlevel, hparent, hidc⟩ := (hsp.items p hp hpos id).mp (hsub id hid)
        exact ⟨c, (hmem c).mpr ⟨hc, hlevel, hparent⟩,
          (ItemIndex.mem_apply .intersect _ _ id).mpr ⟨hidc, hid⟩⟩

theorem builds_expandNode (hsp : sp.Lawful Pixel) (hR : ∀ a b, a < b → R a b) (levels : Nat)
    (ht : Formed R sp Pixel src t)
    (hindex : ∀ l ∈ leaves t, l.isFullMatch = false → Enumerates R sp Pixel l.pixelId) :
    Builds R sp Pixel (Has sp src t) (·.pixelId = t.pixelId) (expandNode sp src levels t) := by
  induction levels generalizing t with
  | zero => exact (builds_deepCopy ht).imp (fun _ => Iff.rfl) fun _ h => h.1
  | succ levels ih =>
    cases ht with
    | leaf hp hok =>
      have hnot : t.isInternal = false := isInternal_of_nil hok.children
      obtain ⟨x, hx, hread, hsub, hfullItems⟩ := hok.items_eq
      obtain ⟨y, hy, hhas⟩ := hok.has_iff
      obtain rfl := Except.ok.inj (hread.symm.trans hy)
      refine Builds.imp ?_ (fun id => (hhas id).symm) fun _ h => h
      by_cases hfull : t.isFullMatch = true
      · have hrun : expandNode sp src (levels + 1) t = expandFullMatchNode sp (levels + 1) t := by
          funext dest
          rw [expandNode, hnot, hfull]
          rfl
        rw [hrun, hfullItems hfull]
        cases hok with
        | @full p => exact builds_expandFullMatchNode hsp hR (levels + 1) hp
        | fetched => rw [isFullMatch_fetched] at hfull; cases hfull
        | partialMatch => rw [isFullMatch_partialMatch] at hfull; cases hfull
      · have hrun : expandNode sp src (levels + 1) t =
            expandPartialMatchNode sp (levels + 1) t.pixelId x := by
          funext dest
          rw [expandNode, hnot]
          dsimp only
          rw [if_neg Bool.false_ne_true, if_neg hfull, hx]
          rfl
        rw [hrun]
        refine builds_expandPartialMatchNode hsp (levels + 1) hp ?_ hsub
        refine hindex t ?_ (Bool.eq_false_iff.mpr hfull)
        rw [leaves_of_leaf hok.children]
        exact List.mem_singleton_self t
    | @internal p i cs hp hne hparent hrel hcs =>
      have hkids := buildsAll_each fun c hc => ih (hcs c hc) fun l hl => hindex l (by
        rw [leaves_internal hne]
        exact List.mem_flatMap.mpr ⟨c, hc, hl⟩)
      have hnode := hkids.node (fun _ _ h => h) npos hp hne hparent hrel
      have hrun : expandNode sp src (levels + 1) (.node p IS_INTERNAL i cs) = fun dest => do
          let (children, dest) ← each (expandNode sp src levels) cs dest
          return (.node p IS_INTERNAL npos children, dest) := by
        funext dest
        have hinternal : (TreeNode.node p IS_INTERNAL i cs).isInternal = true :=
          isInternal_of_ne_nil hne
        rw [expandNode]
        exact if_pos hinternal
      rw [hrun]
      exact hnode.imp (fun id => (has_node hne).symm) fun _ h => h.1

/-! ## `compactified` -/

def IsPartial (t : TreeNode) : Prop := t.children = [] ∧ t.isFullMatch = false

/-- An internal node of the tree has only such leaves as children. -/
inductive Mergeable : TreeNode → Prop where
  | here {t : TreeNode} (hne : t.children ≠ []) (h : ∀ c ∈ t.children, IsPartial c) : Mergeable t
  | inside {t c : TreeNode} (hc : c ∈ t.children) (h : Mergeable c) : Mergeable t

theorem joinFlags_and {m : Nat} : joinFlags cs &&& m = 0 ↔ ∀ c ∈ cs, c.flags &&& m = 0 := by
  have hgen : ∀ flags, cs.foldl (fun flags c => flags ||| c.flags) flags &&& m = 0 ↔
      flags &&& m = 0 ∧ ∀ c ∈ cs, c.flags &&& m = 0 := by
    induction cs with
    | nil => simp
    | cons c cs ih =>
      intro flags
      rw [List.foldl_cons, ih, Nat.and_or_distrib_right, Nat.or_eq_zero_iff, List.forall_mem_cons,
        and_assoc]
  rw [joinFlags, hgen, Nat.zero_and]
  exact and_iff_right rfl

namespace Formed

theorem isPartial_iff (h : Formed R sp Pixel F t) :
    t.flags &&& (IS_FULL_MATCH ||| IS_INTERNAL) = 0 ↔ IsPartial t := by
  rw [IsPartial, TreeNode.isFullMatch]
  cases h with
  | leaf _ hok =>
    cases hok <;> simp [TreeNode.flags, TreeNode.children, IS_FULL_MATCH, IS_INTERNAL, IS_FETCHED,
      IS_PARTIAL_MATCH]
  | internal _ hne => simp [TreeNode.flags, TreeNode.children, IS_FULL_MATCH, IS_INTERNAL, hne]

theorem eq_fullLeaf (h : Formed R sp Pixel F t) (hflags : t.flags &&& 0xFFFFFFFB = 0) :
    t = fullLeaf t.pixelId := by
  cases h with
  | leaf _ hok =>
    cases hok with
    | full => rfl
    | fetched => simp [TreeNode.flags, IS_FETCHED] at hflags
    | partialMatch => simp [TreeNode.flags, IS_PARTIAL_MATCH] at hflags
  | internal => simp [TreeNode.flags, IS_INTERNAL] at hflags

end Formed

theorem popFetched_eq {dest more : List ItemIndex}
    (hcount : more.length = cs.countP TreeNode.isFetched) :
    popFetched cs (dest ++ more) = .ok dest := by
  rw [← List.countP_reverse] at hcount
  rw [popFetched]
  generalize cs.reverse = children at hcount ⊢
  induction children generalizing more with
  | nil =>
    obtain rfl := List.length_eq_zero_iff.mp hcount
    rw [List.append_nil]
    rfl
  | cons c cs ih =>
    rw [List.foldlM_cons]
    by_cases hc : c.isFetched = true
    · rw [List.countP_cons_of_pos hc] at hcount
      have hne : more ≠ [] := List.ne_nil_of_length_pos (by omega)
      have hfull : (dest ++ more).isEmpty = false := by simp [hne]
      rw [if_pos hc, hfull, if_neg Bool.false_ne_true, ok_bind,
        List.dropLast_append_of_ne_nil hne]
      exact ih (by rw [List.length_dropLast]; omega)
    · rw [List.countP_cons_of_neg hc] at hcount
      rw [if_neg hc, ok_bind]
      exact ih hcount

theorem itemsOfList_eq (hts : ∀ t ∈ ts, Formed R sp Pixel F t) :
    ∃ js, itemsOfList sp F ts = .ok js ∧
      ∀ id, (∃ j ∈ js, id ∈ j.ids) ↔ ∃ t ∈ ts, Has sp F t id := by
  induction ts with
  | nil => exact ⟨[], rfl, fun id => by simp⟩
  | cons t ts ih =>
    obtain ⟨j, hj, hmem⟩ := (hts t List.mem_cons_self).items_eq
    obtain ⟨js, hjs, hmems⟩ := ih fun u hu => hts u (List.mem_cons_of_mem t hu)
    refine ⟨j :: js, by rw [itemsOfList, hj, ok_bind, hjs]; rfl, fun id => ?_⟩
    simp only [List.mem_cons, exists_eq_or_imp]
    rw [hmem, hmems]

section

variable (sizeInBytes : Nat → ItemIndex → Nat) {maxPMLevel p : Nat} {ts : List TreeNode}

/-- Either the children are replaced by the union of their indices, or they are not. -/
theorem mergedIndex_cases (hts : ∀ t ∈ ts, Formed R sp Pixel F t)
    (hlevel : maxPMLevel < 2 ^ 31 ∨ ∃ t ∈ ts, ¬ IsPartial t) :
    mergedIndex sp sizeInBytes maxPMLevel p ts F = .ok none ∨
      ∃ merged, mergedIndex sp sizeInBytes maxPMLevel p ts F = .ok (some merged) ∧
        maxPMLevel < 2 ^ 31 ∧ (∀ t ∈ ts, IsPartial t) ∧
        ∀ id, id ∈ merged.ids ↔ ∃ t ∈ ts, Has sp F t id := by
  have hpartial : joinFlags ts &&& (IS_FULL_MATCH ||| IS_INTERNAL) = 0 ↔ ∀ t ∈ ts, IsPartial t :=
    joinFlags_and.trans (forall₂_congr fun t ht => (hts t ht).isPartial_iff)
  rw [mergedIndex]
  by_cases hflags : joinFlags ts &&& (IS_FULL_MATCH ||| IS_INTERNAL) = 0
  · have hall := hpartial.mp hflags
    have hsmall : maxPMLevel < 2 ^ 31 :=
      hlevel.resolve_right fun ⟨t, ht, hnot⟩ => hnot (hall t ht)
    rw [if_neg (not_not.mpr hflags), if_neg (Nat.not_le.mpr hsmall)]
    by_cases hcoarse : sp.sg.level p ≤ maxPMLevel
    · exact .inl (if_pos hcoarse)
    · obtain ⟨js, hjs, hmem⟩ := itemsOfList_eq hts
      rw [if_neg hcoarse, hjs, ok_bind]
      dsimp only
      split_ifs
      · exact .inr ⟨_, rfl, hsmall, hall, fun id => mem_uniteAll.trans (hmem id)⟩
      · exact .inl rfl
  · exact .inl (if_pos hflags)

theorem mem_of_all_children (hsp : sp.Lawful Pixel) (hp : Pixel p)
    (hparent : ∀ t ∈ ts, Pixel t.pixelId ∧ 0 < sp.sg.level t.pixelId ∧
      sp.sg.parent t.pixelId = .ok p)
    (hnodup : (ts.map TreeNode.pixelId).Nodup) (hlength : sp.sg.childrenCount p = ts.length)
    {c : Nat} (hc : Pixel c ∧ 0 < sp.sg.level c ∧ sp.sg.parent c = .ok p) :
    c ∈ ts.map TreeNode.pixelId := by
  obtain ⟨pids, -, hpids, -, hmem⟩ := index_children hsp hp
  have hsub : ts.map TreeNode.pixelId ⊆ pids := by
    intro q hq
    obtain ⟨t, ht, rfl⟩ := List.mem_map.mp hq
    exact (hmem _).mpr (hparent t ht)
  have hperm := (List.subperm_of_subset hnodup hsub).perm_of_length_le
    (by rw [hpids, hlength, List.length_map])
  exact hperm.mem_iff.mpr ((hmem c).mpr hc)

theorem mergeChildren_spec (hsp : sp.Lawful Pixel) (hR : ∀ a b, R a b → a ≠ b) (hp : Pixel p)
    {dest more : List ItemIndex} (hne : ts ≠ [])
    (hparent : ∀ t ∈ ts, 0 < sp.sg.level t.pixelId ∧ sp.sg.parent t.pixelId = .ok p)
    (hrel : (ts.map TreeNode.pixelId).Pairwise R)
    (hts : ∀ t ∈ ts, Formed R sp Pixel (dest ++ more) t)
    (hcount : more.length = (ts.map fetchedLeaves).sum)
    (hlevel : maxPMLevel < 2 ^ 31 ∨ ∃ t ∈ ts, ¬ IsPartial t) :
    ∃ t more',
      mergeChildren sp sizeInBytes maxPMLevel p ts (dest ++ more) = .ok (t, dest ++ more') ∧
      Formed R sp Pixel (dest ++ more') t ∧
      (∀ id, Has sp (dest ++ more') t id ↔ ∃ u ∈ ts, Has sp (dest ++ more) u id) ∧
      more'.length = fetchedLeaves t ∧ t.pixelId = p ∧ (2 ^ 31 ≤ maxPMLevel → ¬ IsPartial t) := by
  have hcov : ∀ t ∈ ts, sp.sg.Covers p t.pixelId := fun t ht =>
    .child .refl (hparent t ht).1 (hparent t ht).2
  rcases mergedIndex_cases (p := p) sizeInBytes hts hlevel with
    hnone | ⟨merged, hsome, hsmall, hall, hmem⟩
  · by_cases hkeep : joinFlags ts &&& 0xFFFFFFFB ≠ 0 ∨ sp.sg.childrenCount p ≠ ts.length
    · refine ⟨.node p IS_INTERNAL npos ts, more, ?_, .internal hp hne hparent hrel hts,
        fun id => has_node hne, ?_, rfl, fun _ h => hne h.1⟩
      · rw [mergeChildren, hnone, ok_bind]
        dsimp only
        rw [if_pos hkeep]
        rfl
      · rw [hcount, fetchedLeaves_node hne]
    · rw [not_or, not_not, not_not] at hkeep
      obtain ⟨hflags, hlength⟩ := hkeep
      have hfull : ∀ t ∈ ts, t = fullLeaf t.pixelId := fun t ht =>
        (hts t ht).eq_fullLeaf (joinFlags_and.mp hflags t ht)
      have hnil : more = [] := by
        refine List.length_eq_zero_iff.mp (hcount.trans (List.sum_eq_zero fun n hn => ?_))
        obtain ⟨t, ht, rfl⟩ := List.mem_map.mp hn
        rw [hfull t ht, fetchedLeaves_leaf rfl, fullLeaf, isFetched_eq_false rfl]
        rfl
      have hall : ∀ c, Pixel c ∧ 0 < sp.sg.level c ∧ sp.sg.parent c = .ok p →
          c ∈ ts.map TreeNode.pixelId := fun c hc =>
        mem_of_all_children hsp hp (fun t ht => ⟨(hts t ht).pixel, hparent t ht⟩)
          (hrel.imp (hR _ _)) hlength hc
      obtain ⟨t, more', hrun, ht, hhas, hfetched, rfl⟩ := builds_fullLeaf hp dest
      refine ⟨fullLeaf p, more', ?_, ht, fun id => ?_, hfetched, rfl, fun _ h => ?_⟩
      · rw [mergeChildren, hnone, ok_bind, hnil, List.append_nil]
        dsimp only
        rw [if_neg (not_or.mpr ⟨not_not.mpr hflags, not_not.mpr hlength⟩)]
        exact hrun
      · have hpos : 0 < sp.sg.childrenCount p := by
          rw [hlength]
          exact List.length_pos_of_ne_nil hne
        refine (hhas id).trans ((hsp.items p hp hpos id).trans ?_)
        constructor
        · rintro ⟨c, hc, hlevel, hcp, hid⟩
          obtain ⟨u, hu, rfl⟩ := List.mem_map.mp (hall c ⟨hc, hlevel, hcp⟩)
          exact ⟨u, hu, by rw [hfull u hu]; exact has_fullLeaf.mpr hid⟩
        · rintro ⟨u, hu, hid⟩
          exact ⟨u.pixelId, (hts u hu).pixel, (hparent u hu).1, (hparent u hu).2,
            (hts u hu).mem_items hsp hid⟩
      · exact absurd h.2 (by simp [fullLeaf, TreeNode.isFullMatch, TreeNode.flags, IS_FULL_MATCH])
  · have hpop : more.length = ts.countP TreeNode.isFetched := by
      rw [hcount, sum_fetchedLeaves fun t ht => (hall t ht).1]
    have hsub : ∀ id ∈ merged.ids, id ∈ (sp.sgi.items p).ids := by
      intro id hid
      obtain ⟨t, ht, hid⟩ := (hmem id).mp hid
      exact hsp.items_subset (hcov t ht) (hts t ht).pixel ((hts t ht).mem_items hsp hid)
    obtain ⟨t, more', hrun, ht, hhas, hfetched, hpixel, -⟩ :=
      builds_fetchedLeaf (R := R) hp hsub dest
    refine ⟨t, more', ?_, ht, fun id => (hhas id).trans (hmem id), hfetched, hpixel, fun h => ?_⟩
    · rw [mergeChildren, hsome, ok_bind]
      dsimp only
      rw [popFetched_eq hpop, ok_bind]
      exact hrun
    · exact absurd hsmall (Nat.not_lt.mpr h)

theorem forall_of_forall₂ {α β : Type} {Q : α → β → Prop} {A : α → Prop} {B : β → Prop}
    {xs : List α} {ys : List β} (hQ : ∀ x y, Q x y → B y → A x) (h : List.Forall₂ Q xs ys)
    (hys : ∀ y ∈ ys, B y) : ∀ x ∈ xs, A x := by
  induction h with
  | nil => exact fun x hx => absurd hx List.not_mem_nil
  | cons hxy _ ih =>
    rw [List.forall_mem_cons] at hys ⊢
    exact ⟨hQ _ _ hxy hys.1, ih hys.2⟩

theorem builds_compactNode (hsp : sp.Lawful Pixel) (hR : ∀ a b, R a b → a ≠ b)
    {src : List ItemIndex} (ht : Formed R sp Pixel src t)
    (hlevel : maxPMLevel < 2 ^ 31 ∨ ¬ Mergeable t) :
    Builds R sp Pixel (Has sp src t)
      (fun t' => t'.pixelId = t.pixelId ∧ (2 ^ 31 ≤ maxPMLevel → (IsPartial t' ↔ IsPartial t)))
      (compactNode sp sizeInBytes src maxPMLevel t) := by
  induction ht with
  | @leaf t hp hok =>
    have hrun : compactNode sp sizeInBytes src maxPMLevel t = deepCopy sp src t := by
      funext dest
      rw [compactNode, isInternal_of_nil hok.children]
      exact if_neg Bool.false_ne_true
    rw [hrun]
    refine (builds_deepCopy (.leaf hp hok)).imp (fun _ => Iff.rfl) fun u hu =>
      ⟨hu.1, fun _ => and_congr hu.2.2 ?_⟩
    rw [TreeNode.isFullMatch, TreeNode.isFullMatch, hu.2.1]
  | @internal p i cs hp hne hparent hrel _ ih =>
    have hkids := buildsAll_each fun c hc => ih c hc
      (hlevel.imp_right fun hnot h => hnot (.inside hc h))
    intro dest
    obtain ⟨ts, more, hrun, hts, hhas, hcount, hQ⟩ := hkids dest
    have hpids := map_pixelId (fun _ _ h => h.1) hQ
    have hts_ne : ts ≠ [] := by
      rintro rfl
      exact hne (List.map_eq_nil_iff.mp hpids.symm)
    have hmerge : maxPMLevel < 2 ^ 31 ∨ ∃ t ∈ ts, ¬ IsPartial t := by
      rcases Nat.lt_or_ge maxPMLevel (2 ^ 31) with hsmall | hbig
      · exact .inl hsmall
      · refine .inr ?_
        by_contra hnone
        refine hlevel.resolve_left (Nat.not_lt.mpr hbig) (.here hne ?_)
        exact forall_of_forall₂ (fun c t h => (h.2 hbig).mp) hQ fun t ht =>
          by_contra fun hnot => hnone ⟨t, ht, hnot⟩
    obtain ⟨t, more', hnode, ht, hhas', hcount', hpixel, hbig⟩ :=
      mergeChildren_spec sizeInBytes hsp hR hp hts_ne
        (forall_pixelId (fun c => 0 < sp.sg.level c ∧ sp.sg.parent c = .ok p) hpids hparent)
        (hpids ▸ hrel) hts hcount hmerge
    refine ⟨t, more', ?_, ht, fun id => ?_, hcount', hpixel, fun h =>
      iff_of_false (hbig h) fun hpartial => hne hpartial.1⟩
    · have hinternal : (TreeNode.node p IS_INTERNAL i cs).isInternal = true :=
        isInternal_of_ne_nil hne
      rw [compactNode, if_pos hinternal, eachNode_eq]
      exact (congrArg (· >>= _) hrun).trans hnode
    · rw [hhas', hhas, has_node hne]

theorem each_error {α : Type} {f : α → Op TreeNode} {e : Fault} {xs : List α}
    (h : ∀ x ∈ xs, (∀ dest, f x dest = .error e) ∨ ∀ dest, ∃ r, f x dest = .ok r)
    (hx : ∃ x ∈ xs, ∀ dest, f x dest = .error e) (dest : List ItemIndex) :
    each f xs dest = .error e := by
  induction xs generalizing dest with
  | nil =>
    obtain ⟨x, hx, -⟩ := hx
    cases hx
  | cons x xs ih =>
    rw [List.forall_mem_cons] at h
    rw [each]
    dsimp only
    rcases h.1 with herror | hok
    · rw [herror]
      rfl
    · obtain ⟨⟨t, dest'⟩, hrun⟩ := hok dest
      obtain ⟨y, hy, herror⟩ := hx
      rcases List.mem_cons.mp hy with rfl | hy
      · cases (herror dest).symm.trans hrun
      · rw [hrun, ok_bind]
        dsimp only
        rw [ih h.2 ⟨y, hy, herror⟩]
        rfl

theorem compactNode_error (hsp : sp.Lawful Pixel) (hR : ∀ a b, R a b → a ≠ b)
    {src : List ItemIndex} (ht : Formed R sp Pixel src t) (hbig : 2 ^ 31 ≤ maxPMLevel)
    (hmerge : Mergeable t) (dest : List ItemIndex) :
    compactNode sp sizeInBytes src maxPMLevel t dest = .error .typeOverflow := by
  induction ht generalizing dest with
  | @leaf t _ hok =>
    cases hmerge with
    | here hne => exact absurd hok.children hne
    | inside hc => exact absurd hok.children (List.ne_nil_of_mem hc)
  | @internal p i cs _ hne _ _ hcs ih =>
    have hinternal : (TreeNode.node p IS_INTERNAL i cs).isInternal = true :=
      isInternal_of_ne_nil hne
    rw [compactNode, if_pos hinternal, eachNode_eq]
    by_cases hinside : ∃ c ∈ cs, Mergeable c
    · have herror : each (compactNode sp sizeInBytes src maxPMLevel) cs dest =
          .error .typeOverflow := by
        obtain ⟨d, hd, herror⟩ := hinside
        refine each_error (fun c hc => ?_) ⟨d, hd, ih d hd herror⟩ dest
        by_cases h : Mergeable c
        · exact .inl (ih c hc h)
        · refine .inr fun dest => ?_
          have hlevel : maxPMLevel < 2 ^ 31 ∨ ¬ Mergeable c := Or.inr h
          obtain ⟨t, more, hrun, -⟩ := builds_compactNode sizeInBytes hsp hR (hcs c hc) hlevel dest
          exact ⟨_, hrun⟩
      exact congrArg (· >>= _) herror
    · have hpartial : ∀ c ∈ cs, IsPartial c := by
        cases hmerge with
        | here _ h => exact h
        | inside hc h => exact absurd ⟨_, hc, h⟩ hinside
      have hnone : ∀ c ∈ cs, maxPMLevel < 2 ^ 31 ∨ ¬ Mergeable c := fun c hc =>
        Or.inr fun h => hinside ⟨c, hc, h⟩
      have hkids := buildsAll_each fun c hc => builds_compactNode sizeInBytes hsp hR (hcs c hc)
        (hnone c hc)
      obtain ⟨ts, more, hrun, hts, -, -, hQ⟩ := hkids dest
      have hall : ∀ t ∈ ts, IsPartial t :=
        forall_of_forall₂ (fun t c h => (h.2 hbig).mpr) hQ.flip hpartial
      have hflags : joinFlags ts &&& (IS_FULL_MATCH ||| IS_INTERNAL) = 0 :=
        joinFlags_and.mpr fun t ht => (hts t ht).isPartial_iff.mpr (hall t ht)
      refine (congrArg (· >>= _) hrun).trans ?_
      dsimp only
      rw [ok_bind, mergeChildren, mergedIndex, if_neg (not_not.mpr hflags), if_pos hbig]
      rfl

end

/-! ## Results -/

def IsFormed (R : Nat → Nat → Prop) (sp : Space) (Pixel : Nat → Prop) (r : HCQRSpatialGrid) :
    Prop :=
  ∀ t ∈ r.root, t.pixelId = sp.sg.rootPixelId ∧ Formed R sp Pixel r.fetchedItems t

variable {r : HCQRSpatialGrid}

theorem isFormed_iff : IsFormed (· < ·) sp Pixel r ↔ IsValid sp Pixel r :=
  forall₂_congr fun _ _ => and_congr_right fun _ =>
    ⟨Formed.valid, fun h => .of_valid h fun _ _ hlt => hlt⟩

theorem IsFormed.of_valid (hr : IsValid sp Pixel r) (hR : ∀ a b, a < b → R a b) :
    IsFormed R sp Pixel r :=
  fun t ht => ⟨(hr t ht).1, .of_valid (hr t ht).2 hR⟩

theorem rebuild_spec (hr : IsFormed R sp Pixel r) {Q : TreeNode → TreeNode → Prop}
    (hQ : ∀ t t', Q t t' → t'.pixelId = t.pixelId) {f : TreeNode → Op TreeNode}
    (hf : ∀ t ∈ r.root, Builds R sp Pixel (Has sp r.fetchedItems t) (Q t) (f t)) :
    ∃ r', rebuild f r = .ok r' ∧ IsFormed R sp Pixel r' ∧ r'.allItems sp = r.allItems sp := by
  obtain ⟨root, fetchedItems⟩ := r
  cases root with
  | none => exact ⟨_, rfl, fun t ht => absurd ht (Option.not_mem_none t), rfl⟩
  | some root =>
    obtain ⟨hpixel, hroot⟩ := hr root rfl
    obtain ⟨t, more, hrun, ht, hhas, -, ht'⟩ := hf root rfl []
    rw [List.nil_append] at hrun ht hhas
    refine ⟨⟨some t, more⟩, ?_, fun u hu => ?_, ?_⟩
    · rw [rebuild]
      dsimp only
      rw [hrun]
      rfl
    · obtain rfl := Option.mem_some_iff.mp hu
      exact ⟨(hQ _ _ ht').trans hpixel, ht⟩
    · obtain ⟨i, hi, hmem⟩ := hroot.items_eq
      obtain ⟨j, hj, hmem'⟩ := ht.items_eq
      have heq : j = i := ItemIndex.ext_mem fun id => by rw [hmem, hmem', hhas]
      rw [allItems, allItems]
      dsimp only
      rw [hi, hj, heq]

section

variable (hsp : sp.Lawful Pixel) {r : HCQRSpatialGrid} (hr : IsFormed R sp Pixel r)

include hsp hr

theorem compactified_spec (hR : ∀ a b, R a b → a ≠ b) {maxPMLevel : Nat}
    (hlevel : maxPMLevel < 2 ^ 31 ∨ ∀ t ∈ r.root, ¬ Mergeable t)
    (sizeInBytes : Nat → ItemIndex → Nat) :
    ∃ r', compactified sp sizeInBytes maxPMLevel r = .ok r' ∧ IsFormed R sp Pixel r' ∧
      r'.allItems sp = r.allItems sp :=
  rebuild_spec hr (fun _ _ h => h.1) fun t ht =>
    builds_compactNode sizeInBytes hsp hR (hr t ht).2 (hlevel.imp_right fun h => h t ht)

theorem compactified_error (hR : ∀ a b, R a b → a ≠ b) {maxPMLevel : Nat}
    (hbig : 2 ^ 31 ≤ maxPMLevel) (hmerge : ∃ t ∈ r.root, Mergeable t)
    (sizeInBytes : Nat → ItemIndex → Nat) :
    compactified sp sizeInBytes maxPMLevel r = .error .typeOverflow := by
  obtain ⟨t, ht, hmerge⟩ := hmerge
  have herror := compactNode_error sizeInBytes hsp hR (hr t ht).2 hbig hmerge []
  rw [compactified, rebuild, Option.mem_def.mp ht]
  dsimp only
  rw [herror]
  rfl

theorem expanded_spec (hR : ∀ a b, a < b → R a b) (hindex : ∀ t ∈ r.root, ∀ l ∈ leaves t,
      l.isFullMatch = false → Enumerates R sp Pixel l.pixelId) (level : Nat) :
    ∃ r', expanded sp level r = .ok r' ∧ IsFormed R sp Pixel r' ∧
      r'.allItems sp = r.allItems sp :=
  rebuild_spec hr (fun _ _ h => h) fun t ht =>
    builds_expandNode hsp hR level (hr t ht).2 (hindex t ht)

theorem Call.run_spec (hlt : ∀ a b, a < b → R a b) (hR : ∀ a b, R a b → a ≠ b)
    (hindex : ∀ p, Enumerates R sp Pixel p) (call : Call) :
    (call.Small → ∃ r', call.run sp r = .ok r') ∧
      ∀ r', call.run sp r = .ok r' → IsFormed R sp Pixel r' ∧ r'.allItems sp = r.allItems sp := by
  cases call with
  | compactified sizeInBytes maxPMLevel =>
    by_cases hlevel : maxPMLevel < 2 ^ 31 ∨ ∀ t ∈ r.root, ¬ Mergeable t
    · obtain ⟨r₁, hrun, hr₁⟩ := compactified_spec hsp hr hR hlevel sizeInBytes
      exact ⟨fun _ => ⟨r₁, hrun⟩, fun r' h => Except.ok.inj (hrun.symm.trans h) ▸ hr₁⟩
    · rw [not_or] at hlevel
      push Not at hlevel
      have herror := compactified_error hsp hr hR hlevel.1 hlevel.2 sizeInBytes
      exact ⟨fun hsmall => absurd hsmall (Nat.not_lt.mpr hlevel.1), fun r' h =>
        by cases herror.symm.trans h⟩
  | expanded level =>
    obtain ⟨r₁, hrun, hr₁⟩ := expanded_spec hsp hr hlt (fun t _ l _ _ => hindex l.pixelId) level
    exact ⟨fun _ => ⟨r₁, hrun⟩, fun r' h => Except.ok.inj (hrun.symm.trans h) ▸ hr₁⟩

theorem runCalls_spec (hlt : ∀ a b, a < b → R a b) (hR : ∀ a b, R a b → a ≠ b)
    (hindex : ∀ p, Enumerates R sp Pixel p) (calls : List Call) :
    ((∀ call ∈ calls, call.Small) → ∃ r', runCalls sp calls r = .ok r') ∧
      ∀ r', runCalls sp calls r = .ok r' →
        IsFormed R sp Pixel r' ∧ r'.allItems sp = r.allItems sp := by
  induction calls generalizing r with
  | nil =>
    refine ⟨fun _ => ⟨r, rfl⟩, fun r' h => ?_⟩
    obtain rfl := Except.ok.inj h
    exact ⟨hr, rfl⟩
  | cons call calls ih =>
    obtain ⟨hreturns, hright⟩ := Call.run_spec hsp hr hlt hR hindex call
    rw [runCalls, List.foldlM_cons]
    constructor
    · intro hsmall
      rw [List.forall_mem_cons] at hsmall
      obtain ⟨r₁, hrun⟩ := hreturns hsmall.1
      rw [hrun, ok_bind]
      exact (ih (hright r₁ hrun).1).1 hsmall.2
    · intro r' h
      obtain ⟨r₁, hrun, h⟩ := bind_eq_ok h
      obtain ⟨hr₁, hitems⟩ := hright r₁ hrun
      obtain ⟨hr', hitems'⟩ := (ih hr₁).2 r' h
      exact ⟨hr', hitems'.trans hitems⟩

end

/-- The call returns a result that is valid and has the items of `r`. -/
def Keeps (sp : Space) (valid : HCQRSpatialGrid → Prop) (r : HCQRSpatialGrid)
    (run : Except Fault HCQRSpatialGrid) : Prop :=
  ∃ r', run = .ok r' ∧ valid r' ∧ r'.allItems sp = r.allItems sp

/-- What the calls on a valid result `r` do. The children of the leaves that `expanded` splits are
sorted if the grid enumerates them so. -/
structure Rebuilds (sp : Space) (Pixel : Nat → Prop) (r : HCQRSpatialGrid) : Prop where
  compacts : ∀ sizeInBytes maxPMLevel, (maxPMLevel < 2 ^ 31 ∨ ∀ t ∈ r.root, ¬ Mergeable t) →
    Keeps sp (IsValid sp Pixel) r (compactified sp sizeInBytes maxPMLevel r)
  overflows : ∀ sizeInBytes maxPMLevel, 2 ^ 31 ≤ maxPMLevel → (∃ t ∈ r.root, Mergeable t) →
    compactified sp sizeInBytes maxPMLevel r = .error .typeOverflow
  expands : ∀ level, Keeps sp (IsFormed (· ≠ ·) sp Pixel) r (expanded sp level r)
  expandsSorted : ∀ level, (∀ t ∈ r.root, ∀ l ∈ leaves t, l.isFullMatch = false →
      Enumerates (· < ·) sp Pixel l.pixelId) →
    Keeps sp (IsValid sp Pixel) r (expanded sp level r)
  returns : ∀ calls, (∀ call ∈ calls, Call.Small call) → ∃ r', runCalls sp calls r = .ok r'
  run : ∀ calls r', runCalls sp calls r = .ok r' → r'.allItems sp = r.allItems sp ∧
    IsFormed (· ≠ ·) sp Pixel r' ∧
    ((∀ p, Enumerates (· < ·) sp Pixel p) → IsValid sp Pixel r')

/-- No sequence of calls changes the items. -/
theorem compactified_expanded (hsp : sp.Lawful Pixel) {r : HCQRSpatialGrid}
    (hr : IsValid sp Pixel r) : Rebuilds sp Pixel r := by
  have hlt : ∀ a b : Nat, a < b → a ≠ b := fun a b => Nat.ne_of_lt
  have hsorted : IsFormed (· < ·) sp Pixel r := isFormed_iff.mpr hr
  have hloose : IsFormed (· ≠ ·) sp Pixel r := .of_valid hr hlt
  have hcalls := runCalls_spec hsp hloose hlt (fun _ _ h => h) (enumerates_ne hsp)
  refine ⟨fun sizeInBytes maxPMLevel hlevel => ?_, fun sizeInBytes maxPMLevel hbig hmerge =>
    compactified_error hsp hsorted hlt hbig hmerge sizeInBytes, fun level => ?_,
    fun level hindex => ?_, fun calls => (hcalls calls).1, fun calls r' h => ?_⟩
  · obtain ⟨r', hrun, hr', hitems⟩ := compactified_spec hsp hsorted hlt hlevel sizeInBytes
    exact ⟨r', hrun, isFormed_iff.mp hr', hitems⟩
  · exact expanded_spec hsp hloose hlt (fun _ _ l _ _ => enumerates_ne hsp l.pixelId) level
  · obtain ⟨r', hrun, hr', hitems⟩ := expanded_spec hsp hsorted (fun _ _ h => h) hindex level
    exact ⟨r', hrun, isFormed_iff.mp hr', hitems⟩
  · obtain ⟨hr', hitems⟩ := (hcalls calls).2 r' h
    refine ⟨hitems, hr', fun hindex => ?_⟩
    exact isFormed_iff.mp ((runCalls_spec hsp hsorted (fun _ _ h => h) hlt hindex calls).2 r' h).1

theorem compactified_expanded_storedAtOne : Rebuilds twoPixels (· ≤ 2) storedAtOne :=
  compactified_expanded lawful_twoPixels isValid_storedAtOne

/-- The level is checked when the children of the root are a leaf that does not match in full. -/
theorem compactified_overflow :
    IsValid twoPixels (· ≤ 2) storedAtOne ∧
      ¬ Keeps twoPixels (IsValid twoPixels (· ≤ 2)) storedAtOne
        (compactified twoPixels (fun _ i => 4 * i.size) (2 ^ 31) storedAtOne) := by
  refine ⟨isValid_storedAtOne, ?_⟩
  have hmerge : ∃ t ∈ storedAtOne.root, Mergeable t := by
    refine ⟨_, rfl, .here (List.cons_ne_nil _ _) fun c hc => ?_⟩
    obtain rfl := List.mem_singleton.mp hc
    exact ⟨rfl, isFullMatch_partialMatch 1 1 []⟩
  rintro ⟨r', hrun, -⟩
  rw [compactified_error lawful_twoPixels (isFormed_iff.mpr isValid_storedAtOne)
    (fun _ _ => Nat.ne_of_lt) (Nat.le_refl _) hmerge] at hrun
  cases hrun

end Sserialize.HCQRSpatialGrid
