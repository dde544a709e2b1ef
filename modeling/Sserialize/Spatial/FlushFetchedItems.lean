import Sserialize.ItemIndex.ItemIndexFactoryNames
import Sserialize.Spatial.StaticHCQRTreeCorrect

/-!
# `flushFetchedItems`

The items of the fetched nodes are put into a factory, and the nodes get the ids that it returns.
The flags of a node are not touched, so that the id is still taken for one of the fetched list. The
static variant also asks each leaf for its children and is left by the exception for that at the
first one.
-/

namespace Sserialize

namespace HCQRSpatialGrid

section

variable {DataHashKey : Type} [DecidableEq DataHashKey] (codec : ItemIndexCodec)
  (hashFunc : Bytes → DataHashKey) (fetchedItems : List ItemIndex)

def fetchedAt (i : Nat) : Except Fault ItemIndex :=
  match fetchedItems[i]? with
  | some idx => .ok idx
  | none => .error .outOfRange

def flushId (node : TreeNode) (idxFactory : ItemIndexFactory DataHashKey) :
    Except Fault (Nat × ItemIndexFactory DataHashKey) :=
  if node.isLeaf && node.isFetched then do
    let idx ← fetchedAt fetchedItems node.itemIndexId
    idxFactory.addIndex codec hashFunc idx.ids
  else .ok (node.itemIndexId, idxFactory)

mutual

def flushNode (idxFactory : ItemIndexFactory DataHashKey) :
    TreeNode → Except Fault (TreeNode × ItemIndexFactory DataHashKey)
  | .node p f i cs => do
    let (i, idxFactory) ← flushId codec hashFunc fetchedItems (.node p f i cs) idxFactory
    let (cs, idxFactory) ← flushNodes idxFactory cs
    return (.node p f i cs, idxFactory)

def flushNodes (idxFactory : ItemIndexFactory DataHashKey) :
    List TreeNode → Except Fault (List TreeNode × ItemIndexFactory DataHashKey)
  | [] => .ok ([], idxFactory)
  | c :: cs => do
    let (c, idxFactory) ← flushNode idxFactory c
    let (cs, idxFactory) ← flushNodes idxFactory cs
    return (c :: cs, idxFactory)

end

def flushFetchedItems (r : HCQRSpatialGrid) (idxFactory : ItemIndexFactory DataHashKey) :
    Except Fault (HCQRSpatialGrid × ItemIndexFactory DataHashKey) :=
  if r.fetchedItems.length = 0 then .ok (r, idxFactory)
  else
    match r.root with
    | none => .error .undefinedBehaviour
    | some root => do
      let (root, idxFactory) ← flushNode codec hashFunc r.fetchedItems idxFactory root
      return (⟨some root, []⟩, idxFactory)

end

def InStore {DataHashKey : Type} (codec : ItemIndexCodec)
    (idxFactory : ItemIndexFactory DataHashKey) (id : Nat) (idx : ItemIndex) : Prop :=
  idxFactory.storeAt codec id = .ok idx.ids

/-- A tree whose fetched nodes got the flags `flag` and ids that name their items, while all other
nodes are as before. -/
inductive Flushed (names : Nat → ItemIndex → Prop) (flag : Nat) (fetchedItems : List ItemIndex) :
    TreeNode → TreeNode → Prop where
  | fetched {p i i' : Nat} {idx : ItemIndex} (hidx : fetchedItems[i]? = some idx)
      (hname : names i' idx) :
      Flushed names flag fetchedItems (.node p IS_FETCHED i []) (.node p flag i' [])
  | other {p f i : Nat} {cs cs' : List TreeNode} (hother : f &&& IS_FETCHED = 0)
      (hlength : cs.length = cs'.length)
      (hcs : ∀ x ∈ cs.zip cs', Flushed names flag fetchedItems x.1 x.2) :
      Flushed names flag fetchedItems (.node p f i cs) (.node p f i cs')

def NoneFetched (t : TreeNode) : Prop := ∀ l ∈ leaves t, l.isFetched = false

variable {DataHashKey : Type} [DecidableEq DataHashKey] {codec : ItemIndexCodec}
  {hashFunc : Bytes → DataHashKey} {sp : Space} {Pixel : Nat → Prop} {F : List ItemIndex}
  {f f' : ItemIndexFactory DataHashKey} {t t' : TreeNode} {names : Nat → ItemIndex → Prop}

theorem flags_of_flushNodes {cs cs' : List TreeNode} (hcs : ∀ c ∈ cs,
      ∀ {f f' : ItemIndexFactory DataHashKey} {c' : TreeNode},
        flushNode codec hashFunc F f c = .ok (c', f') →
          (leaves c').map TreeNode.flags = (leaves c).map TreeNode.flags)
    (h : flushNodes codec hashFunc F f cs = .ok (cs', f')) :
    (cs'.flatMap leaves).map TreeNode.flags = (cs.flatMap leaves).map TreeNode.flags ∧
      (cs' = [] ↔ cs = []) := by
  induction cs generalizing cs' f with
  | nil =>
    obtain ⟨rfl, -⟩ := Prod.mk.inj (Except.ok.inj h)
    exact ⟨rfl, Iff.rfl⟩
  | cons c cs ih =>
    obtain ⟨⟨c', f₁⟩, hc, h⟩ := bind_eq_ok h
    obtain ⟨⟨rest, f₂⟩, hrest, h⟩ := bind_eq_ok h
    obtain ⟨rfl, rfl⟩ := Prod.mk.inj (Except.ok.inj h)
    have htail := ih (fun x hx => hcs x (List.mem_cons_of_mem _ hx)) hrest
    refine ⟨?_, iff_of_false (List.cons_ne_nil _ _) (List.cons_ne_nil _ _)⟩
    rw [List.flatMap_cons, List.flatMap_cons, List.map_append, List.map_append,
      hcs c List.mem_cons_self hc, htail.1]

theorem flags_of_flushNode (h : flushNode codec hashFunc F f t = .ok (t', f')) :
    (leaves t').map TreeNode.flags = (leaves t).map TreeNode.flags := by
  induction t using TreeNode.induct generalizing f t' f' with
  | h p fl i cs ih =>
    obtain ⟨⟨i', f₁⟩, -, h⟩ := bind_eq_ok h
    obtain ⟨⟨cs', f₂⟩, hcs, h⟩ := bind_eq_ok h
    obtain ⟨rfl, rfl⟩ := Prod.mk.inj (Except.ok.inj h)
    obtain ⟨hflags, hnil⟩ := flags_of_flushNodes (fun c hc _ _ _ => ih c hc) hcs
    by_cases hempty : cs = []
    · obtain rfl := hempty
      rw [hnil.mpr rfl]
      rfl
    · rw [leaves_internal hempty, leaves_internal (fun h => hempty (hnil.mp h)), hflags]

theorem isFetched_flags {a b : TreeNode} (h : a.flags = b.flags) : a.isFetched = b.isFetched := by
  rw [TreeNode.isFetched, TreeNode.isFetched, h]

theorem noneFetched_of_flushNode (h : flushNode codec hashFunc F f t = .ok (t', f'))
    (ht' : NoneFetched t') : NoneFetched t := by
  intro l hl
  have hmem : l.flags ∈ (leaves t').map TreeNode.flags := by
    rw [flags_of_flushNode h]
    exact List.mem_map_of_mem hl
  obtain ⟨l', hl', hflags⟩ := List.mem_map.mp hmem
  rw [← isFetched_flags hflags]
  exact ht' l' hl'

theorem flushNode_of_noneFetched (h : NoneFetched t) :
    flushNode codec hashFunc F f t = .ok (t, f) := by
  induction t using TreeNode.induct generalizing f with
  | h p fl i cs ih =>
    have hid : flushId codec hashFunc F (.node p fl i cs) f = .ok (i, f) := by
      rw [flushId, if_neg]
      · rfl
      · rintro hleaf
        obtain ⟨hnil, hfetched⟩ := Bool.and_eq_true_iff.mp hleaf
        obtain rfl : cs = [] := List.isEmpty_iff.mp hnil
        rw [h _ (by rw [leaves]; exact List.mem_singleton_self _)] at hfetched
        cases hfetched
    have hloop : ∀ xs, (∀ c ∈ xs, c ∈ cs) → flushNodes codec hashFunc F f xs = .ok (xs, f) := by
      intro xs hxs
      induction xs with
      | nil => rfl
      | cons c xs ihxs =>
        have hc : c ∈ cs := hxs c List.mem_cons_self
        have hnone : NoneFetched c := fun l hl => h l (by
          rw [leaves_internal (List.ne_nil_of_mem hc)]
          exact List.mem_flatMap.mpr ⟨c, hc, hl⟩)
        rw [flushNodes, ih c hc hnone, ok_bind]
        dsimp only
        rw [ihxs fun x hx => hxs x (List.mem_cons_of_mem _ hx)]
        rfl
    rw [flushNode, hid, ok_bind]
    dsimp only
    rw [hloop cs fun c hc => hc]
    rfl

theorem flushed_self (h : Valid sp Pixel F t) (hnone : NoneFetched t) (flag : Nat) :
    Flushed names flag F t t := by
  induction t using TreeNode.induct with
  | h p fl i cs ih =>
    have hother : fl &&& IS_FETCHED = 0 := by
      obtain ⟨-, hflags, -⟩ | ⟨hnil, -⟩ := h.cases
      · have hfl : fl = IS_INTERNAL := hflags
        rw [hfl]
        rfl
      · obtain rfl : cs = [] := hnil
        have hfetched := hnone _ (by rw [leaves]; exact List.mem_singleton_self _)
        exact not_not.mp (of_decide_eq_false hfetched)
    refine .other hother rfl fun x hx => ?_
    have heq : x.1 = x.2 := by
      obtain ⟨k, hk, rfl⟩ := List.mem_iff_getElem.mp hx
      rw [List.getElem_zip]
    have hc : x.1 ∈ cs := (List.of_mem_zip hx).1
    have hnone' : NoneFetched x.1 := fun l hl => hnone l (by
      rw [leaves_internal (List.ne_nil_of_mem hc)]
      exact List.mem_flatMap.mpr ⟨_, hc, hl⟩)
    rw [← heq]
    exact ih x.1 hc (h.children.1 x.1 hc).2 hnone'

open ItemIndexFactory

def FlushedResult (codec : ItemIndexCodec) (flag : Nat) (r r' : HCQRSpatialGrid)
    (f' : ItemIndexFactory DataHashKey) : Prop :=
  Option.Rel (Flushed (InStore codec f') flag r.fetchedItems) r.root r'.root ∧
    ∀ root ∈ r'.root, NoneFetched root

theorem flushedResult_iff {r r' : HCQRSpatialGrid} (hr : IsValid sp Pixel r)
    (h : flushFetchedItems codec hashFunc r f = .ok (r', f')) :
    FlushedResult codec IS_PARTIAL_MATCH r r' f' ↔ ∀ root ∈ r.root, NoneFetched root := by
  have hself : (∀ root ∈ r.root, NoneFetched root) →
      FlushedResult codec IS_PARTIAL_MATCH r r f' := by
    intro hnone
    refine ⟨?_, hnone⟩
    cases hroot : r.root with
    | none => exact .none
    | some root =>
      have hmem : root ∈ r.root := Option.mem_def.mpr hroot
      exact .some (flushed_self (hr root hmem).2 (hnone root hmem) _)
  rw [flushFetchedItems] at h
  by_cases hempty : r.fetchedItems.length = 0
  · rw [if_pos hempty] at h
    obtain ⟨rfl, rfl⟩ := Prod.mk.inj (Except.ok.inj h)
    exact ⟨And.right, hself⟩
  · rw [if_neg hempty] at h
    cases hroot : r.root with
    | none =>
      rw [hroot] at h
      cases h
    | some root =>
      rw [hroot] at h
      obtain ⟨⟨root', f₁⟩, hflush, h⟩ := bind_eq_ok h
      obtain ⟨rfl, rfl⟩ := Prod.mk.inj (Except.ok.inj h)
      constructor
      · rintro ⟨-, hnone⟩ x hx
        obtain rfl := Option.mem_some_iff.mp hx
        exact noneFetched_of_flushNode hflush (hnone root' rfl)
      · intro hnone
        rw [← hroot] at hnone
        have hmem : root ∈ r.root := Option.mem_def.mpr hroot
        rw [flushNode_of_noneFetched (hnone root hmem)] at hflush
        obtain ⟨rfl, rfl⟩ := Prod.mk.inj (Except.ok.inj hflush)
        refine ⟨?_, fun x hx => ?_⟩
        · rw [hroot]
          exact .some (flushed_self (hr _ hmem).2 (hnone _ hmem) _)
        · obtain rfl := Option.mem_some_iff.mp hx
          exact hnone _ hmem

end HCQRSpatialGrid

structure StaticHCQRSpatialGrid where
  tree : StaticHCQRSpatialGrid.Tree
  fetchedItems : List ItemIndex

namespace StaticHCQRSpatialGrid

open HCQRSpatialGrid (Space Valid IsValid LeafOk Flushed InStore)

def TreeNode.isFetched (n : TreeNode) : Bool := n.flags &&& IS_FETCHED ≠ 0

/-- Where an exception comes from that leaves a call: from the factory, from writing the record of a
node, or from the way through the tree. -/
inductive Thrown where
  | factory (fault : Fault)
  | update (fault : Fault)
  | walk (fault : Fault)
  deriving Repr, DecidableEq

/-- The tree and the factory, which keep what was done before an exception. -/
structure FlushState (DataHashKey : Type) where
  tree : Tree
  idxFactory : ItemIndexFactory DataHashKey

section

variable {DataHashKey : Type} [DecidableEq DataHashKey] (codec : ItemIndexCodec)
  (hashFunc : Bytes → DataHashKey) (sg : SpatialGrid) (fetchedItems : List ItemIndex)

def flushRecord (np : NodePosition) (node : TreeNode) (s : FlushState DataHashKey) :
    Option Thrown × FlushState DataHashKey :=
  if node.isLeaf && node.isFetched then
    match HCQRSpatialGrid.fetchedAt fetchedItems node.itemIndexId with
    | .error fault => (some (.walk fault), s)
    | .ok idx =>
      match s.idxFactory.addIndex codec hashFunc idx.ids with
      | .error fault => (some (.factory fault), s)
      | .ok (id, idxFactory) =>
        match s.tree.update sg np { node with itemIndexId := id } with
        | .error fault => (some (.update fault), ⟨s.tree, idxFactory⟩)
        | .ok tree => (none, ⟨tree, idxFactory⟩)
  else (none, s)

def beginChildren (t : Tree) (np : NodePosition) : Except Fault NodeInfo := do
  let parent ← t.nodeInfo sg np
  t.firstChild sg parent

mutual

def flushAt : Nat → NodePosition → FlushState DataHashKey →
    Option Thrown × FlushState DataHashKey
  | 0, _, s => (some (.walk .undefinedBehaviour), s)
  | rounds + 1, np, s =>
    match s.tree.node sg np with
    | .error fault => (some (.walk fault), s)
    | .ok node =>
      match flushRecord codec hashFunc sg fetchedItems np node s with
      | (some thrown, s) => (some thrown, s)
      | (none, s) =>
        match beginChildren sg s.tree np with
        | .error fault => (some (.walk fault), s)
        | .ok child => flushChildren rounds child s

def flushChildren : Nat → NodeInfo → FlushState DataHashKey →
    Option Thrown × FlushState DataHashKey
  | 0, _, s => (some (.walk .undefinedBehaviour), s)
  | rounds + 1, ni, s =>
    match flushAt rounds ni.position s with
    | (some thrown, s) => (some thrown, s)
    | (none, s) =>
      if ni.node.hasSibling then
        match s.tree.nextNode sg ni with
        | .error fault => (some (.walk fault), s)
        | .ok next => flushChildren rounds next s
      else (none, s)

end

/-- `flushFetchedItems(idxFactory)`, with a bound for the steps through the tree. -/
def flushFetchedItems (rounds : Nat) (r : StaticHCQRSpatialGrid)
    (idxFactory : ItemIndexFactory DataHashKey) :
    Option Thrown × StaticHCQRSpatialGrid × ItemIndexFactory DataHashKey :=
  if r.fetchedItems.length = 0 then (none, r, idxFactory)
  else
    match flushAt codec hashFunc sg r.fetchedItems rounds Tree.rootNodePosition
      ⟨r.tree, idxFactory⟩ with
    | (some thrown, s) => (some thrown, ⟨s.tree, r.fetchedItems⟩, s.idxFactory)
    | (none, s) => (none, ⟨s.tree, []⟩, s.idxFactory)

end

/-! ## The first leaf -/

/-- The way from a node down to the first leaf. -/
inductive FirstLeaf (sg : SpatialGrid) (t : Tree) : NodeInfo → NodeInfo → Prop where
  | here {ni : NodeInfo} (hinternal : ni.node.isInternal = false) : FirstLeaf sg t ni ni
  | down {ni c leaf : NodeInfo} (hleaf : ni.node.isLeaf = false)
      (hchild : t.firstChild sg ni = .ok c) (h : FirstLeaf sg t c leaf) : FirstLeaf sg t ni leaf

def TreeNode.idSpace (n : TreeNode) : Nat :=
  psizeVu32 n.itemIndexId + if n.flags &&& HAS_PADDING ≠ 0 then 1 + n.padding else 0

/-- The node is fetched, and its items are not added or their id needs more bytes than there are in
its record. -/
def Stops {DataHashKey : Type} [DecidableEq DataHashKey] (codec : ItemIndexCodec)
    (hashFunc : Bytes → DataHashKey) (fetchedItems : List ItemIndex)
    (f : ItemIndexFactory DataHashKey) (n : TreeNode) : Prop :=
  n.isFetched = true ∧ ∃ idx, fetchedItems[n.itemIndexId]? = some idx ∧
    ∀ id f', f.addIndex codec hashFunc idx.ids = .ok (id, f') → n.idSpace < psizeVu32 id

def StopsAtFirstLeaf {DataHashKey : Type} [DecidableEq DataHashKey] (codec : ItemIndexCodec)
    (hashFunc : Bytes → DataHashKey) (sg : SpatialGrid) (r : StaticHCQRSpatialGrid)
    (f : ItemIndexFactory DataHashKey) : Prop :=
  ∃ ni leaf, r.tree.nodeInfo sg Tree.rootNodePosition = .ok ni ∧ FirstLeaf sg r.tree ni leaf ∧
    Stops codec hashFunc r.fetchedItems f leaf.node

variable {DataHashKey : Type} [DecidableEq DataHashKey] {codec : ItemIndexCodec}
  {hashFunc : Bytes → DataHashKey} {sp : Space} {sg : SpatialGrid} {Pixel : Nat → Prop}
  {F : List ItemIndex} {f f' : ItemIndexFactory DataHashKey} {t : Tree} {ni leaf : NodeInfo}
  {src : Source}

variable {np : NodePosition}

theorem nodeInfo_eq_ok (h : t.nodeInfo sg np = .ok ni) :
    ni.position = np ∧ t.node sg np = .ok ni.node := by
  obtain ⟨n, hn, h⟩ := bind_eq_ok h
  obtain rfl := Except.ok.inj h
  exact ⟨rfl, hn⟩

theorem FirstLeaf.unique {leaf' : NodeInfo} (h : FirstLeaf sg t ni leaf)
    (h' : FirstLeaf sg t ni leaf') : leaf = leaf' := by
  induction h with
  | here hinternal =>
    cases h' with
    | here => rfl
    | down _ hchild _ =>
      rw [Tree.firstChild, if_neg (Bool.eq_false_iff.mp hinternal)] at hchild
      cases hchild
  | down hleaf hchild _ ih =>
    cases h' with
    | here hinternal =>
      rw [Tree.firstChild, if_neg (Bool.eq_false_iff.mp hinternal)] at hchild
      cases hchild
    | down hleaf' hchild' h' =>
      obtain rfl := Except.ok.inj (hchild.symm.trans hchild')
      exact ih h'

theorem Mirrors.pixelId_eq (h : Mirrors sg t ni src) : ni.node.pixelId = src.pixelId := by
  cases h with
  | leaf hpixel => exact hpixel
  | internal _ hpixel => exact hpixel

theorem childrenLoop_head {rounds : Nat} {infos : List NodeInfo}
    (h : t.childrenLoop sg rounds ni = .ok infos) : ∃ rest, infos = ni :: rest := by
  cases rounds with
  | zero => cases h
  | succ rounds =>
    rw [Tree.childrenLoop] at h
    split at h
    · obtain ⟨next, -, h⟩ := bind_eq_ok h
      obtain ⟨rest, -, h⟩ := bind_eq_ok h
      exact ⟨rest, (Except.ok.inj h).symm⟩
    · exact ⟨[], (Except.ok.inj h).symm⟩

/-- A tree has a first leaf, which is that of a leaf of the source. Only the root may be at a pixel
without a parent. -/
theorem Mirrors.firstLeaf (hm : Mirrors sp.sg t ni src) (hv : Valid sp Pixel F src)
    (hread : t.node sp.sg ni.position = .ok ni.node) :
    ∃ leaf l, FirstLeaf sp.sg t ni leaf ∧ Mirrors sp.sg t leaf l ∧ LeafOk sp F l ∧
      Pixel l.pixelId ∧ t.node sp.sg leaf.position = .ok leaf.node ∧
      (leaf = ni ∨ ∃ q, 0 < sp.sg.level l.pixelId ∧ sp.sg.parent l.pixelId = .ok q) := by
  induction src using HCQRSpatialGrid.TreeNode.induct generalizing ni with
  | h p fl i cs ih =>
    cases hm with
    | leaf hpixel hflags hleaf hinternal hindex =>
      obtain ⟨hne, -⟩ | ⟨-, hok⟩ := hv.cases
      · exact absurd rfl hne
      · exact ⟨ni, _, .here hinternal, .leaf hpixel hflags hleaf hinternal hindex, hok,
          hv.shaped.pixel, hread, .inl rfl⟩
    | @internal _ _ _ _ cs infos hne _ _ hleaf hinternal hchildren _ _ _ hcs =>
      obtain ⟨first, hfirst, hloop⟩ := bind_eq_ok hchildren
      obtain ⟨rest, rfl⟩ := childrenLoop_head hloop
      obtain ⟨c, cs, rfl⟩ := List.exists_cons_of_ne_nil hne
      obtain ⟨⟨hlevel, hpar⟩, hvalid⟩ := hv.children.1 c List.mem_cons_self
      have hm' : Mirrors sp.sg t first c := hcs (first, c) List.mem_cons_self
      have hinfo := hfirst
      rw [Tree.firstChild, if_pos hinternal] at hinfo
      obtain ⟨size, -, hinfo⟩ := bind_eq_ok hinfo
      obtain ⟨hposition, hnode⟩ := nodeInfo_eq_ok hinfo
      obtain ⟨leaf, l, hway, hml, hok, hpix, hread', hroot⟩ :=
        ih c List.mem_cons_self hm' hvalid (hposition ▸ hnode)
      refine ⟨leaf, l, .down hleaf hfirst hway, hml, hok, hpix, hread', .inr ?_⟩
      obtain rfl | hparent := hroot
      · rw [← hml.pixelId_eq, hm'.pixelId_eq]
        exact ⟨p, hlevel, hpar⟩
      · exact hparent

/-! ## The record of a leaf -/

variable {n : TreeNode}

theorem flags_of_read {data : Bytes} {parent : Nat} (h : TreeNode.read sg data parent = .ok n) :
    getUint 1 data 0 = .ok n.flags ∧ n.flags < 256 := by
  obtain ⟨flags, hflags, h⟩ := bind_eq_ok h
  obtain ⟨next, -, h⟩ := bind_eq_ok h
  obtain ⟨pixel, -, h⟩ := bind_eq_ok h
  obtain ⟨index, -, h⟩ := bind_eq_ok h
  obtain ⟨padding, -, h⟩ := bind_eq_ok h
  obtain rfl := Except.ok.inj h
  have hlength : 0 + 1 ≤ data.length := by
    by_contra hshort
    rw [getUint, if_neg hshort] at hflags
    cases hflags
  obtain ⟨v, hv, hlt, -⟩ := getUint_spec hlength
  obtain rfl := Except.ok.inj (hv.symm.trans hflags)
  exact ⟨hflags, hlt⟩

theorem node_eq_read (h : t.node sg np = .ok n) :
    np.dataOffset + 5 ≤ t.nodeData.length ∧
      TreeNode.read sg (t.nodeData.drop np.dataOffset) np.parent = .ok n := by
  rw [Tree.node] at h
  split at h
  · cases h
  · exact ⟨by omega, h⟩

theorem and_isInternal {flags : Nat} (hlt : flags < 256) (h : flags &&& IS_INTERNAL = 0) :
    (flags &&& 0xEF) &&& IS_INTERNAL = 0 ∧ ((flags &&& 0xEF) ||| HAS_PADDING) &&& IS_INTERNAL = 0 ∧
      flags &&& 0xEF < 256 ∧ (flags &&& 0xEF) ||| HAS_PADDING < 256 := by
  have hall : ∀ x < 256, x &&& IS_INTERNAL = 0 → (x &&& 0xEF) &&& IS_INTERNAL = 0 ∧
      ((x &&& 0xEF) ||| HAS_PADDING) &&& IS_INTERNAL = 0 ∧ x &&& 0xEF < 256 ∧
        (x &&& 0xEF) ||| HAS_PADDING < 256 := by decide +kernel
  exact hall flags hlt h

theorem beginChildren_error {flags : Nat} (hlt : flags < 256) (hflags : flags &&& IS_INTERNAL = 0)
    (hdata : leBytes 1 flags <+: t.nodeData.drop np.dataOffset) :
    ∃ fault, beginChildren sg t np = .error fault := by
  obtain ⟨rest, hrest⟩ := hdata
  rw [beginChildren]
  cases hinfo : t.nodeInfo sg np with
  | error fault => exact ⟨fault, rfl⟩
  | ok parent =>
    have hnode := (node_eq_read (nodeInfo_eq_ok hinfo).2).2
    have hfirst := (flags_of_read hnode).1
    have hzero : (t.nodeData.drop np.dataOffset).drop 0 = leBytes 1 flags ++ rest := hrest.symm
    rw [getUint_of_drop hlt Nat.one_pos hzero] at hfirst
    have hinternal : parent.node.isInternal = false := by
      rw [TreeNode.isInternal, ← Except.ok.inj hfirst]
      exact decide_eq_false (not_not.mpr hflags)
    rw [ok_bind, Tree.firstChild, if_neg (Bool.eq_false_iff.mp hinternal)]
    exact ⟨_, rfl⟩

theorem childNumberSize_setId {id ds : Nat} (h : n.childNumberSize sg = .ok ds) :
    TreeNode.childNumberSize sg { n with itemIndexId := id } = .ok ds := h

theorem update_spec {id ds : Nat} {key : Bytes} (hread : t.node sg np = .ok n)
    (hsize : n.childNumberSize sg = .ok ds) (hbytes : n.childNumberBytes sg = .ok key)
    (hindex : n.hasIndex = true) (hinternal : n.isInternal = false) :
    (n.idSpace < psizeVu32 id →
      t.update sg np { n with itemIndexId := id } = .error .typeOverflow) ∧
    (psizeVu32 id ≤ n.idSpace → ∃ t', t.update sg np { n with itemIndexId := id } = .ok t' ∧
      ∃ fault, beginChildren sg t' np = .error fault) := by
  obtain ⟨hlength, hrecord⟩ := node_eq_read hread
  have hmin : ∀ i, TreeNode.minSizeInBytes sg { n with itemIndexId := i } =
      .ok (1 + 4 + ds + psizeVu32 i) := by
    intro i
    have hindex' : TreeNode.hasIndex { n with itemIndexId := i } = true := hindex
    rw [TreeNode.minSizeInBytes, childNumberSize_setId hsize, ok_bind, if_pos hindex']
    rfl
  have hold : n.getSizeInBytes sg = .ok (1 + 4 + ds + n.idSpace) := by
    rw [TreeNode.getSizeInBytes, hmin n.itemIndexId, ok_bind, TreeNode.idSpace]
    split
    · exact congrArg Except.ok (by omega)
    · rfl
  rw [Tree.update, hrecord, ok_bind, hold, ok_bind, TreeNode.update, hmin id, ok_bind]
  constructor
  · intro hlt
    rw [if_pos (by omega)]
    rfl
  · intro hle
    have hkey : TreeNode.childNumberBytes sg { n with itemIndexId := id } = .ok key := hbytes
    have hleaf : n.flags &&& IS_INTERNAL = 0 := not_not.mp (of_decide_eq_false hinternal)
    obtain ⟨hflags, hflags', hlt, hlt'⟩ := and_isInternal (flags_of_read hrecord).2 hleaf
    rw [if_neg (by omega), hkey, ok_bind]
    refine ⟨_, rfl, ?_⟩
    have hoffset : (t.nodeData.take np.dataOffset).length = np.dataOffset := by
      rw [List.length_take]
      omega
    split
    · refine beginChildren_error hlt' hflags' ?_
      dsimp only
      rw [List.drop_left' hoffset]
      simp only [List.append_assoc]
      exact List.prefix_append _ _
    · refine beginChildren_error hlt hflags ?_
      dsimp only
      rw [List.drop_left' hoffset]
      simp only [List.append_assoc]
      exact List.prefix_append _ _

/-! ## A call -/

/-- What is to be left by a call: without an exception a result whose fetched nodes are flushed, and
when an id does not fit a tree with the items it had. -/
def FlushedRight (codec : ItemIndexCodec) (sp : Space) (fetchedItems : List ItemIndex)
    (root : Option Source) :
    Option Thrown × StaticHCQRSpatialGrid × ItemIndexFactory DataHashKey → Prop
  | (none, r', f') => ∃ root', Traversable sp.sg r'.tree root' ∧
      Option.Rel (Flushed (InStore codec f') HCQRSpatialGrid.IS_PARTIAL_MATCH fetchedItems) root
        root' ∧
      ∀ t ∈ root', HCQRSpatialGrid.NoneFetched t
  | (some (.factory _), _, _) => True
  | (some (.update fault), r', _) => fault = .typeOverflow ∧
      ∃ root', Traversable sp.sg r'.tree root' ∧
        root'.map (HCQRSpatialGrid.items sp r'.fetchedItems) =
          root.map (HCQRSpatialGrid.items sp fetchedItems)
  | (some (.walk _), _, _) => False

/-- A static result: its tree is that of a valid result, the nodes fill the data, and the record of
the root says that it is the root. -/
structure IsStatic (sp : Space) (Pixel : Nat → Prop) (r : StaticHCQRSpatialGrid)
    (root : Option Source) : Prop where
  valid : IsValid sp Pixel ⟨root, r.fetchedItems⟩
  traversable : Traversable sp.sg r.tree root
  size : r.tree.nodeData.length = r.tree.dataSize
  isRoot : ∀ ni, r.tree.nodeInfo sp.sg Tree.rootNodePosition = .ok ni → ni.node.isRoot = true

theorem FirstLeaf.flushAt_eq (h : FirstLeaf sg t ni leaf)
    (hread : t.node sg ni.position = .ok ni.node) {thrown : Thrown} {s : FlushState DataHashKey}
    (hleaf : ∀ rounds, flushAt codec hashFunc sg F (rounds + 1) leaf.position ⟨t, f⟩ =
      (some thrown, s)) :
    ∃ enough, ∀ rounds, enough ≤ rounds →
      flushAt codec hashFunc sg F rounds ni.position ⟨t, f⟩ = (some thrown, s) := by
  induction h with
  | here => exact ⟨1, fun rounds hrounds => by
      obtain ⟨n, rfl⟩ : ∃ n, rounds = n + 1 := ⟨rounds - 1, by omega⟩
      exact hleaf n⟩
  | @down ni c leaf hinner hchild _ ih =>
    have hinfo := hchild
    rw [Tree.firstChild] at hinfo
    split at hinfo
    · obtain ⟨size, -, hinfo⟩ := bind_eq_ok hinfo
      obtain ⟨hposition, hnode⟩ := nodeInfo_eq_ok hinfo
      obtain ⟨enough, hrounds⟩ := ih (hposition ▸ hnode) hleaf
      refine ⟨enough + 2, fun rounds hle => ?_⟩
      obtain ⟨n, rfl⟩ : ∃ n, rounds = n + 2 := ⟨rounds - 2, by omega⟩
      have hbegin : beginChildren sg t ni.position = .ok c := by
        rw [beginChildren, Tree.nodeInfo, hread]
        exact hchild
      rw [flushAt, hread]
      simp only [flushRecord, hinner, Bool.false_and, Bool.false_eq_true, if_false, hbegin]
      rw [flushChildren, hrounds n (by omega)]
    · cases hinfo

theorem and_fetched {flags kind : Nat} (h : flags &&& COMPATIBLE_FLAGS = kind) :
    flags &&& IS_FETCHED = kind &&& IS_FETCHED ∧ flags &&& HAS_INDEX = kind &&& HAS_INDEX := by
  rw [← h, Nat.and_assoc, Nat.and_assoc]
  exact ⟨rfl, rfl⟩

theorem beginChildren_leaf (hread : t.node sg leaf.position = .ok leaf.node)
    (hinternal : leaf.node.isInternal = false) :
    beginChildren sg t leaf.position = .error .outOfBounds := by
  rw [beginChildren, Tree.nodeInfo, hread]
  exact if_neg (Bool.eq_false_iff.mp hinternal)

variable {s s' : FlushState DataHashKey}

theorem flushAt_of_record (hread : s.tree.node sg np = .ok n)
    (hrecord : flushRecord codec hashFunc sg F np n s = (none, s')) {fault : Fault}
    (hbegin : beginChildren sg s'.tree np = .error fault) (rounds : Nat) :
    flushAt codec hashFunc sg F (rounds + 1) np s = (some (.walk fault), s') := by
  rw [flushAt, hread]
  dsimp only
  rw [hrecord]
  dsimp only
  rw [hbegin]

theorem flushAt_of_thrown (hread : s.tree.node sg np = .ok n) {thrown : Thrown}
    (hrecord : flushRecord codec hashFunc sg F np n s = (some thrown, s')) (rounds : Nat) :
    flushAt codec hashFunc sg F (rounds + 1) np s = (some thrown, s') := by
  rw [flushAt, hread]
  dsimp only
  rw [hrecord]

def LeftAt (codec : ItemIndexCodec) (hashFunc : Bytes → DataHashKey) (F : List ItemIndex) (t : Tree)
    (f : ItemIndexFactory DataHashKey) (n : TreeNode) (thrown : Thrown)
    (s : FlushState DataHashKey) : Prop :=
  (Stops codec hashFunc F f n ∧ s.tree = t ∧
    ((∃ fault, thrown = .factory fault) ∨ thrown = .update .typeOverflow)) ∨
  (¬ Stops codec hashFunc F f n ∧ ∃ fault, thrown = .walk fault)

theorem leftAt_of_not_fetched (hread : t.node sg leaf.position = .ok leaf.node)
    (hinternal : leaf.node.isInternal = false) (hfetched : leaf.node.flags &&& IS_FETCHED = 0) :
    ∃ thrown s, (∀ rounds, flushAt codec hashFunc sg F (rounds + 1) leaf.position ⟨t, f⟩ =
      (some thrown, s)) ∧ LeftAt codec hashFunc F t f leaf.node thrown s := by
  have hno : leaf.node.isFetched = false := decide_eq_false (not_not.mpr hfetched)
  have hrecord : flushRecord codec hashFunc sg F leaf.position leaf.node ⟨t, f⟩ =
      (none, ⟨t, f⟩) := by
    rw [flushRecord, hno, Bool.and_false]
    rfl
  refine ⟨_, _, flushAt_of_record hread hrecord (beginChildren_leaf hread hinternal), .inr ?_⟩
  refine ⟨fun hstops => ?_, _, rfl⟩
  have hyes := hstops.1
  rw [hno] at hyes
  cases hyes

theorem leftAt_of_fetched (hread : t.node sg leaf.position = .ok leaf.node) {ds : Nat}
    {key : Bytes} (hsize : leaf.node.childNumberSize sg = .ok ds)
    (hbytes : leaf.node.childNumberBytes sg = .ok key) (hleaf : leaf.node.isLeaf = true)
    (hinternal : leaf.node.isInternal = false) (hfetched : leaf.node.isFetched = true)
    (hindex : leaf.node.hasIndex = true) {idx : ItemIndex}
    (hidx : F[leaf.node.itemIndexId]? = some idx) :
    ∃ thrown s, (∀ rounds, flushAt codec hashFunc sg F (rounds + 1) leaf.position ⟨t, f⟩ =
      (some thrown, s)) ∧ LeftAt codec hashFunc F t f leaf.node thrown s := by
  have hat : HCQRSpatialGrid.fetchedAt F leaf.node.itemIndexId = .ok idx := by
    rw [HCQRSpatialGrid.fetchedAt, hidx]
  have hcond : (leaf.node.isLeaf && leaf.node.isFetched) = true := by rw [hleaf, hfetched]; rfl
  cases hadd : f.addIndex codec hashFunc idx.ids with
  | error fault =>
    have hrecord : flushRecord codec hashFunc sg F leaf.position leaf.node ⟨t, f⟩ =
        (some (.factory fault), ⟨t, f⟩) := by
      rw [flushRecord, if_pos hcond, hat]
      dsimp only
      rw [hadd]
    refine ⟨_, _, flushAt_of_thrown hread hrecord, .inl ⟨⟨hfetched, idx, hidx, ?_⟩, rfl,
      Or.inl ⟨_, rfl⟩⟩⟩
    intro id f' hok
    rw [hadd] at hok
    cases hok
  | ok added =>
    obtain ⟨id, f₁⟩ := added
    obtain ⟨hshort, hfits⟩ :
        (leaf.node.idSpace < psizeVu32 id →
          t.update sg leaf.position { leaf.node with itemIndexId := id } = .error .typeOverflow) ∧
        (psizeVu32 id ≤ leaf.node.idSpace →
          ∃ t', t.update sg leaf.position { leaf.node with itemIndexId := id } = .ok t' ∧
            ∃ fault, beginChildren sg t' leaf.position = .error fault) :=
      update_spec hread hsize hbytes hindex hinternal
    rcases Nat.lt_or_ge leaf.node.idSpace (psizeVu32 id) with hlt | hge
    · have hrecord : flushRecord codec hashFunc sg F leaf.position leaf.node ⟨t, f⟩ =
          (some (.update .typeOverflow), ⟨t, f₁⟩) := by
        rw [flushRecord, if_pos hcond, hat]
        dsimp only
        rw [hadd]
        dsimp only
        rw [hshort hlt]
      refine ⟨_, _, flushAt_of_thrown hread hrecord, .inl ⟨⟨hfetched, idx, hidx, ?_⟩, rfl,
        Or.inr rfl⟩⟩
      intro id' f' hok
      obtain ⟨rfl, -⟩ := Prod.mk.inj (Except.ok.inj (hadd.symm.trans hok))
      exact hlt
    · obtain ⟨t', ht', fault, hbegin⟩ := hfits hge
      have hrecord : flushRecord codec hashFunc sg F leaf.position leaf.node ⟨t, f⟩ =
          (none, ⟨t', f₁⟩) := by
        rw [flushRecord, if_pos hcond, hat]
        dsimp only
        rw [hadd]
        dsimp only
        rw [ht']
      refine ⟨_, _, flushAt_of_record hread hrecord hbegin, .inr ⟨?_, _, rfl⟩⟩
      rintro ⟨-, idx', hidx', hstops⟩
      obtain rfl := Option.some.inj (hidx.symm.trans hidx')
      exact absurd (hstops id f₁ hadd) (Nat.not_lt.mpr hge)

theorem leftAt_leaf (hsp : sp.Lawful Pixel) {l : Source} (hm : Mirrors sp.sg t leaf l)
    (hok : LeafOk sp F l) (hpixel : Pixel l.pixelId)
    (hread : t.node sp.sg leaf.position = .ok leaf.node)
    (hroot : leaf.node.isRoot = true ∨
      ∃ q, 0 < sp.sg.level l.pixelId ∧ sp.sg.parent l.pixelId = .ok q) :
    ∃ thrown s, (∀ rounds, flushAt codec hashFunc sp.sg F (rounds + 1) leaf.position ⟨t, f⟩ =
      (some thrown, s)) ∧ LeftAt codec hashFunc F t f leaf.node thrown s := by
  cases hok with
  | full | partialMatch =>
    cases hm with
    | leaf _ hflags _ hinternal =>
      exact leftAt_of_not_fetched hread hinternal (and_fetched hflags).1
    | internal hne => exact absurd rfl hne
  | @fetched p i idx hi hitems =>
    cases hm with
    | leaf hp hflags hleaf hinternal hindex =>
      obtain ⟨hfetched, hhas⟩ := and_fetched hflags
      have hnumber : ∃ ds key, leaf.node.childNumberSize sp.sg = .ok ds ∧
          leaf.node.childNumberBytes sp.sg = .ok key := by
        rw [TreeNode.childNumberSize, TreeNode.childNumberBytes]
        by_cases hisroot : leaf.node.isRoot = true
        · rw [if_pos hisroot, if_pos hisroot]
          exact ⟨_, _, rfl, rfl⟩
        · obtain ⟨q, hlevel, hparent⟩ := hroot.resolve_left hisroot
          have hq : Pixel q := (hsp.grid.level_parent hpixel hlevel hparent).1
          obtain ⟨k, -, hk, -⟩ := hsp.grid.childPosition hq hpixel hlevel hparent
          have hchild : leaf.node.childNumber sp.sg = .ok k := by
            rw [TreeNode.childNumber, hp]
            have hparent' : sp.sg.parent p = .ok q := hparent
            rw [hparent', ok_bind]
            exact hk
          rw [if_neg hisroot, if_neg hisroot, hchild]
          exact ⟨_, _, rfl, rfl⟩
      obtain ⟨ds, key, hsize, hbytes⟩ := hnumber
      refine leftAt_of_fetched hread hsize hbytes hleaf hinternal ?_ ?_ (hindex ▸ hi)
      · rw [TreeNode.isFetched, hfetched]
        rfl
      · rw [TreeNode.hasIndex, hhas]
        rfl
    | internal hne => exact absurd rfl hne

theorem noneFetched_of_nil {root : Source} (h : Valid sp Pixel [] root) :
    HCQRSpatialGrid.NoneFetched root := by
  intro l hl
  cases h.leafOk l hl with
  | full | partialMatch => exact HCQRSpatialGrid.isFetched_eq_false rfl
  | fetched hi => cases hi

theorem IsStatic.flushedRight_iff (hsp : sp.Lawful Pixel) {r : StaticHCQRSpatialGrid}
    {root : Option Source} (hr : IsStatic sp Pixel r root) :
    ∃ enough, ∀ rounds, enough ≤ rounds →
      (FlushedRight codec sp r.fetchedItems root
          (flushFetchedItems codec hashFunc sp.sg rounds r f) ↔
        r.fetchedItems = [] ∨ StopsAtFirstLeaf codec hashFunc sp.sg r f) := by
  by_cases hempty : r.fetchedItems = []
  · refine ⟨0, fun rounds _ => iff_of_true ?_ (.inl hempty)⟩
    have hnone : ∀ t ∈ root, HCQRSpatialGrid.NoneFetched t := by
      intro t ht
      have hvalid := (hr.valid t ht).2
      rw [hempty] at hvalid
      exact noneFetched_of_nil hvalid
    rw [flushFetchedItems, if_pos (by rw [hempty]; rfl)]
    refine ⟨root, hr.traversable, ?_, hnone⟩
    cases root with
    | none => exact .none
    | some root =>
      exact .some (HCQRSpatialGrid.flushed_self (hr.valid root rfl).2 (hnone root rfl) _)
  · have hlength : ¬ r.fetchedItems.length = 0 := fun h => hempty (List.length_eq_zero_iff.mp h)
    cases root with
    | none =>
      have hsize : r.tree.nodeData.length = 0 := by
        rw [hr.size]
        exact not_not.mp (of_decide_eq_false hr.traversable)
      have hnode : r.tree.node sp.sg Tree.rootNodePosition = .error .outOfBounds := by
        rw [Tree.node, if_pos (by rw [hsize]; exact Nat.succ_pos _)]
      refine ⟨1, fun rounds hrounds => iff_of_false ?_ ?_⟩
      · obtain ⟨n, rfl⟩ : ∃ n, rounds = n + 1 := ⟨rounds - 1, by omega⟩
        rw [flushFetchedItems, if_neg hlength, flushAt]
        dsimp only
        rw [hnode]
        exact id
      · rintro (hnil | ⟨ni, leaf, hni, -⟩)
        · exact hempty hnil
        · rw [Tree.nodeInfo, hnode] at hni
          cases hni
    | some root =>
      obtain ⟨-, ni, hni, hm⟩ := hr.traversable
      obtain ⟨hposition, hread⟩ := nodeInfo_eq_ok hni
      have hread' : r.tree.node sp.sg ni.position = .ok ni.node := hposition ▸ hread
      obtain ⟨leaf, l, hway, hml, hok, hpixel, hleafread, hroot⟩ :=
        hm.firstLeaf (hr.valid root rfl).2 hread'
      have hisroot : leaf.node.isRoot = true ∨
          ∃ q, 0 < sp.sg.level l.pixelId ∧ sp.sg.parent l.pixelId = .ok q := by
        obtain rfl | hparent := hroot
        · exact .inl (hr.isRoot leaf hni)
        · exact .inr hparent
      obtain ⟨thrown, s, hflush, hleft⟩ :
          ∃ thrown s, (∀ rounds, flushAt codec hashFunc sp.sg r.fetchedItems (rounds + 1)
            leaf.position ⟨r.tree, f⟩ = (some thrown, s)) ∧
            LeftAt codec hashFunc r.fetchedItems r.tree f leaf.node thrown s :=
        leftAt_leaf hsp hml hok hpixel hleafread hisroot
      obtain ⟨enough, hrounds⟩ := hway.flushAt_eq hread' hflush
      refine ⟨enough, fun rounds hle => ?_⟩
      have hcall : flushFetchedItems codec hashFunc sp.sg rounds r f =
          (some thrown, ⟨s.tree, r.fetchedItems⟩, s.idxFactory) := by
        rw [flushFetchedItems, if_neg hlength, ← hposition, hrounds rounds hle]
      have hstops : StopsAtFirstLeaf codec hashFunc sp.sg r f ↔
          Stops codec hashFunc r.fetchedItems f leaf.node := by
        constructor
        · rintro ⟨ni', leaf', hni', hway', hstops⟩
          obtain rfl := Except.ok.inj (hni.symm.trans hni')
          rwa [hway.unique hway']
        · exact fun hstops => ⟨ni, leaf, hni, hway, hstops⟩
      rw [hcall, or_iff_right hempty, hstops]
      obtain ⟨hyes, htree, ⟨fault, rfl⟩ | rfl⟩ | ⟨hno, fault, rfl⟩ := hleft
      · exact iff_of_true trivial hyes
      · refine iff_of_true ⟨rfl, some root, ?_, rfl⟩ hyes
        rw [htree]
        exact hr.traversable
      · exact iff_of_false id hno

/-- In memory a call that returns does what it is to do just when no node is fetched. The static
variant does so just when there are no fetched items or the first leaf cannot take its new id. -/
theorem flushFetchedItems_right_iff (hsp : sp.Lawful Pixel) (codec : ItemIndexCodec)
    (hashFunc : Bytes → DataHashKey) :
    (∀ (r r' : HCQRSpatialGrid) (f f' : ItemIndexFactory DataHashKey), IsValid sp Pixel r →
      HCQRSpatialGrid.flushFetchedItems codec hashFunc r f = .ok (r', f') →
        (HCQRSpatialGrid.FlushedResult codec HCQRSpatialGrid.IS_PARTIAL_MATCH r r' f' ↔
          ∀ root ∈ r.root, HCQRSpatialGrid.NoneFetched root)) ∧
    ∀ (r : StaticHCQRSpatialGrid) (root : Option Source) (f : ItemIndexFactory DataHashKey),
      IsStatic sp Pixel r root → ∃ enough, ∀ rounds, enough ≤ rounds →
        (FlushedRight codec sp r.fetchedItems root
            (flushFetchedItems codec hashFunc sp.sg rounds r f) ↔
          r.fetchedItems = [] ∨ StopsAtFirstLeaf codec hashFunc sp.sg r f) :=
  ⟨fun _ _ _ _ hr h => HCQRSpatialGrid.flushedResult_iff hr h,
    fun _ _ _ hr => hr.flushedRight_iff hsp⟩

/-! ## Fetched nodes -/

open HCQRSpatialGrid (twoPixels lawful_twoPixels IS_INTERNAL IS_FETCHED IS_FULL_MATCH npos)

open ItemIndexFactory (rleDECodec newRleDE)

def fetchedRoot : Source := .node 0 HCQRSpatialGrid.IS_FETCHED 0 []

def fetchedItem : ItemIndex :=
  ⟨[10], HCQRSpatialGrid.ascending_first, HCQRSpatialGrid.inRange_first⟩

theorem valid_fetchedRoot : IsValid twoPixels (· ≤ 2) ⟨some fetchedRoot, [fetchedItem]⟩ := by
  intro t ht
  obtain rfl := Option.mem_some_iff.mp ht
  refine ⟨rfl, .leaf (Nat.zero_le 2), fun l hl => ?_⟩
  obtain rfl := List.mem_singleton.mp (by rwa [fetchedRoot, HCQRSpatialGrid.leaves] at hl)
  exact .fetched rfl (by decide)

def fetchedTree : Tree := ⟨6, [72, 255, 255, 255, 255, 0]⟩

theorem isStatic_of_create {sp : Space} {root : Source} {tree : Tree} {F : List ItemIndex}
    (hsp : sp.Lawful (· ≤ 2)) (hcount : ∀ p, sp.sg.childrenCount p < 2 ^ 32)
    (hvalid : IsValid sp (· ≤ 2) ⟨some root, F⟩) (hids : Ids32 root)
    (hfits : dataSizeOf sp.sg root < 2 ^ 32)
    (hparent : root.children = [] ∨ ∃ p, sp.sg.parent sp.sg.rootPixelId = .ok p)
    (hcreate : Tree.create sp.sg (some root) = .ok tree)
    (hsize : tree.nodeData.length = tree.dataSize)
    (hroot : (tree.nodeInfo sp.sg Tree.rootNodePosition).map (fun ni => ni.node.isRoot) =
      .ok true) :
    IsStatic sp (· ≤ 2) ⟨tree, F⟩ (some root) where
  valid := hvalid
  traversable := by
    obtain ⟨tree', htree, -, htraversable⟩ :=
      (create_traversable_iff hsp hcount hvalid fun _ h => Option.some.inj h ▸ hids).mpr
        fun _ h => Option.some.inj h ▸ ⟨hfits, hparent⟩
    obtain rfl := Except.ok.inj (hcreate.symm.trans htree)
    exact htraversable
  size := hsize
  isRoot ni hni := by
    change tree.nodeInfo sp.sg Tree.rootNodePosition = .ok ni at hni
    rw [hni] at hroot
    exact Except.ok.inj hroot

theorem isStatic_fetchedTree :
    IsStatic twoPixels (· ≤ 2) ⟨fetchedTree, [fetchedItem]⟩ (some fetchedRoot) := by
  refine isStatic_of_create lawful_twoPixels childrenCount_twoPixels valid_fetchedRoot
    (fun leaf hleaf => ?_) (by decide +kernel) (.inl rfl) (by decide +kernel) rfl
    (by decide +kernel)
  obtain rfl := List.mem_singleton.mp (by rwa [fetchedRoot, HCQRSpatialGrid.leaves] at hleaf)
  decide

theorem exists_flush_fetchedRoot : ∃ i f', HCQRSpatialGrid.flushFetchedItems rleDECodec
    (id : Bytes → Bytes) ⟨some fetchedRoot, [fetchedItem]⟩ newRleDE =
      .ok (⟨some (.node 0 HCQRSpatialGrid.IS_FETCHED i []), []⟩, f') := by
  have hok : (newRleDE.addIndex rleDECodec (id : Bytes → Bytes) [10]).isOk = true := by
    decide +kernel
  cases hadd : newRleDE.addIndex rleDECodec (id : Bytes → Bytes) [10] with
  | error fault =>
    rw [hadd] at hok
    cases hok
  | ok added =>
    obtain ⟨i, f'⟩ := added
    refine ⟨i, f', ?_⟩
    have hid : HCQRSpatialGrid.flushId rleDECodec (id : Bytes → Bytes) [fetchedItem]
        (.node 0 HCQRSpatialGrid.IS_FETCHED 0 []) newRleDE = .ok (i, f') := by
      have hat : HCQRSpatialGrid.fetchedAt [fetchedItem] 0 = .ok fetchedItem := rfl
      rw [HCQRSpatialGrid.flushId, HCQRSpatialGrid.isFetched_fetched,
        HCQRSpatialGrid.isLeaf_of_nil rfl, if_pos (Bool.and_self true),
        HCQRSpatialGrid.TreeNode.itemIndexId, hat, ok_bind]
      exact hadd
    rw [HCQRSpatialGrid.flushFetchedItems, if_neg (by decide)]
    dsimp only [fetchedRoot]
    rw [HCQRSpatialGrid.flushNode, hid]
    rfl

/-- `twoPixels` with a parent of the root, which `create` asks for. -/
def rootedPixels : Space :=
  { twoPixels with sg := { twoPixels.sg with parent := fun _ => .ok 0 } }

theorem parent_twoPixels {c : Nat} (hlevel : 0 < twoPixels.sg.level c) :
    twoPixels.sg.parent c = .ok 0 := by
  refine if_neg fun hc => ?_
  rw [hc] at hlevel
  exact absurd hlevel (by decide)

theorem covers_rootedPixels {p q : Nat} :
    rootedPixels.sg.Covers p q ↔ twoPixels.sg.Covers p q := by
  constructor
  · intro h
    induction h with
    | refl => exact .refl
    | child _ hlevel hparent ih =>
      obtain rfl := Except.ok.inj hparent
      exact .child ih hlevel (parent_twoPixels hlevel)
  · intro h
    induction h with
    | refl => exact .refl
    | child _ hlevel hparent ih =>
      rw [parent_twoPixels hlevel] at hparent
      exact .child ih hlevel hparent

theorem lawful_rootedPixels : rootedPixels.Lawful (· ≤ 2) where
  grid := by
    have h := lawful_twoPixels.grid
    refine ⟨h.root, h.level_root, h.eq_root, fun c hc hlevel => ?_, fun p hp i hi => ?_,
      fun p c hc hlevel hparent => ?_, h.index_inj, fun p q hp hq => ?_⟩
    · obtain ⟨p, hp, hpixel⟩ := h.parent_ok c hc hlevel
      exact ⟨p, (parent_twoPixels hlevel).symm.trans hp, hpixel⟩
    · obtain ⟨c, hc, hpixel, hparent, hlevel⟩ := h.index_ok p hp i hi
      have hpos : 0 < twoPixels.sg.level c := hlevel ▸ Nat.succ_pos _
      exact ⟨c, hc, hpixel, (parent_twoPixels hpos).symm.trans hparent, hlevel⟩
    · exact h.child_index p c hc hlevel ((parent_twoPixels hlevel).trans hparent)
    · rw [covers_rootedPixels]
      exact h.isAncestor_iff p q hp hq
  items p hp hcount id := by
    rw [show rootedPixels.sgi = twoPixels.sgi from rfl, lawful_twoPixels.items p hp hcount]
    refine exists_congr fun c => and_congr_right fun _ => and_congr_right fun hlevel => ?_
    rw [parent_twoPixels hlevel]
    exact Iff.rfl

def fetchedChild : Source :=
  .node 0 IS_INTERNAL npos [.node 1 IS_FETCHED 0 [], .node 2 IS_FULL_MATCH npos []]

theorem mem_leaves_fetchedChild {leaf : Source} (h : leaf ∈ HCQRSpatialGrid.leaves fetchedChild) :
    leaf = .node 1 IS_FETCHED 0 [] ∨ leaf = .node 2 IS_FULL_MATCH npos [] := by
  simpa [fetchedChild, HCQRSpatialGrid.leaves, HCQRSpatialGrid.leavesOfList] using h

theorem valid_fetchedChild :
    IsValid rootedPixels (· ≤ 2) ⟨some fetchedChild, [fetchedItem]⟩ := by
  intro t ht
  obtain rfl := Option.mem_some_iff.mp ht
  refine ⟨rfl, .internal (Nat.zero_le 2) (List.cons_ne_nil _ _) ?_ ?_ ?_, fun l hl => ?_⟩
  · simp only [List.forall_mem_cons, List.not_mem_nil, false_imp_iff, implies_true, and_true]
    exact ⟨⟨by decide, rfl⟩, by decide, rfl⟩
  · exact List.pairwise_pair.mpr (by decide)
  · intro c hc
    obtain rfl | rfl : c = .node 1 IS_FETCHED 0 [] ∨ c = .node 2 IS_FULL_MATCH npos [] := by
      simpa using hc
    · exact .leaf (by decide)
    · exact .leaf (by decide)
  · obtain rfl | rfl := mem_leaves_fetchedChild hl
    · exact .fetched rfl (by decide)
    · exact .full

def fetchedChildTree : Tree :=
  ⟨18, [65, 255, 255, 255, 255, 8, 7, 0, 0, 0, 0, 0, 36, 12, 0, 0, 0, 1]⟩

theorem isStatic_fetchedChildTree :
    IsStatic rootedPixels (· ≤ 2) ⟨fetchedChildTree, [fetchedItem]⟩ (some fetchedChild) := by
  refine isStatic_of_create lawful_rootedPixels childrenCount_twoPixels valid_fetchedChild
    (fun leaf hleaf => ?_) (by decide +kernel) (.inr ⟨0, rfl⟩) (by decide +kernel) rfl
    (by decide +kernel)
  obtain rfl | rfl := mem_leaves_fetchedChild hleaf
  · decide
  · decide

/-- One of the children of the root is fetched, the other one is full. -/
theorem flushFetchedItems_right_iff_fetchedChild :
    (∃ r' f', HCQRSpatialGrid.flushFetchedItems rleDECodec (id : Bytes → Bytes)
        ⟨some fetchedChild, [fetchedItem]⟩ newRleDE = .ok (r', f') ∧
      (HCQRSpatialGrid.FlushedResult rleDECodec HCQRSpatialGrid.IS_PARTIAL_MATCH
          ⟨some fetchedChild, [fetchedItem]⟩ r' f' ↔
        ∀ root ∈ some fetchedChild, HCQRSpatialGrid.NoneFetched root)) ∧
    ∃ enough, ∀ rounds, enough ≤ rounds →
      (FlushedRight rleDECodec rootedPixels [fetchedItem] (some fetchedChild)
          (flushFetchedItems rleDECodec (id : Bytes → Bytes) rootedPixels.sg rounds
            ⟨fetchedChildTree, [fetchedItem]⟩ newRleDE) ↔
        [fetchedItem] = [] ∨ StopsAtFirstLeaf rleDECodec (id : Bytes → Bytes) rootedPixels.sg
          ⟨fetchedChildTree, [fetchedItem]⟩ newRleDE) := by
  obtain ⟨hmemory, hstatic⟩ :=
    flushFetchedItems_right_iff lawful_rootedPixels rleDECodec (id : Bytes → Bytes)
  refine ⟨?_, hstatic _ _ newRleDE isStatic_fetchedChildTree⟩
  have hok : (HCQRSpatialGrid.flushFetchedItems rleDECodec (id : Bytes → Bytes)
      ⟨some fetchedChild, [fetchedItem]⟩ newRleDE).isOk = true := by decide +kernel
  cases hflush : HCQRSpatialGrid.flushFetchedItems rleDECodec (id : Bytes → Bytes)
      ⟨some fetchedChild, [fetchedItem]⟩ newRleDE with
  | error fault =>
    rw [hflush] at hok
    cases hok
  | ok result => exact ⟨_, _, rfl, hmemory _ _ _ _ valid_fetchedChild hflush⟩

/-- In memory the root is fetched after the call as before, and its items cannot be read. The static
call is left by the exception for the children of a leaf. -/
theorem flushed_root_fetched :
    IsValid twoPixels (· ≤ 2) ⟨some fetchedRoot, [fetchedItem]⟩ ∧
    (∃ root f', HCQRSpatialGrid.flushFetchedItems rleDECodec (id : Bytes → Bytes)
        ⟨some fetchedRoot, [fetchedItem]⟩ newRleDE = .ok (⟨some root, []⟩, f') ∧
      root.isFetched = true ∧ (HCQRSpatialGrid.items twoPixels [] root).isOk = false ∧
      ¬ HCQRSpatialGrid.FlushedResult rleDECodec HCQRSpatialGrid.IS_PARTIAL_MATCH
        ⟨some fetchedRoot, [fetchedItem]⟩ ⟨some root, []⟩ f') ∧
    IsStatic twoPixels (· ≤ 2) ⟨fetchedTree, [fetchedItem]⟩ (some fetchedRoot) ∧
    (flushFetchedItems rleDECodec (id : Bytes → Bytes) twoPixels.sg 9
      ⟨fetchedTree, [fetchedItem]⟩ newRleDE).1 = some (.walk .outOfBounds) := by
  obtain ⟨i, f', hflush⟩ := exists_flush_fetchedRoot
  have hfetched := HCQRSpatialGrid.isFetched_fetched 0 i []
  refine ⟨valid_fetchedRoot, ⟨_, f', hflush, hfetched, ?_, fun h => ?_⟩, isStatic_fetchedTree, ?_⟩
  · rw [HCQRSpatialGrid.items, HCQRSpatialGrid.leafItems, HCQRSpatialGrid.isFullMatch_fetched,
      hfetched]
    rfl
  · have hnone := h.2 _ rfl _ (by rw [HCQRSpatialGrid.leaves]; exact List.mem_singleton_self _)
    rw [hfetched] at hnone
    cases hnone
  · decide +kernel

end StaticHCQRSpatialGrid

end Sserialize
