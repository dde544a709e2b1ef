import Sserialize.Spatial.StaticHCQRTree

namespace Sserialize

namespace SpatialGrid

theorem childPositionLoop_spec {sg : SpatialGrid} {Pixel : Nat → Prop} (hsg : sg.Lawful Pixel)
    {p c : Nat} (hp : Pixel p) {rest i : Nat} (hrest : i + rest = sg.childrenCount p)
    (hchild : ∃ j, i ≤ j ∧ j < sg.childrenCount p ∧ sg.index p j = .ok c) :
    ∃ k < sg.childrenCount p, sg.childPositionLoop p c rest i = .ok k ∧ sg.index p k = .ok c := by
  induction rest generalizing i with
  | zero =>
    obtain ⟨j, hij, hj, -⟩ := hchild
    omega
  | succ rest ih =>
    obtain ⟨j, hij, hj, hindex⟩ := hchild
    obtain ⟨x, hx, -, -, -⟩ := hsg.index_ok p hp i (by omega)
    rw [childPositionLoop, hx, ok_bind]
    by_cases heq : x = c
    · rw [if_pos heq]
      exact ⟨i, by omega, rfl, heq ▸ hx⟩
    · have hne : i ≠ j := by
        rintro rfl
        exact heq (Except.ok.inj (hx.symm.trans hindex))
      rw [if_neg heq]
      exact ih (by omega) ⟨j, by omega, hj, hindex⟩

theorem Lawful.childPosition {sg : SpatialGrid} {Pixel : Nat → Prop} (hsg : sg.Lawful Pixel)
    {p c : Nat} (hp : Pixel p) (hc : Pixel c) (hlevel : 0 < sg.level c)
    (hparent : sg.parent c = .ok p) :
    ∃ k < sg.childrenCount p, sg.childPosition p c = .ok k ∧ sg.index p k = .ok c := by
  obtain ⟨j, hj, hindex⟩ := hsg.child_index p c hc hlevel hparent
  exact childPositionLoop_spec hsg hp (Nat.zero_add _) ⟨j, Nat.zero_le _, hj, hindex⟩

end SpatialGrid

namespace StaticHCQRSpatialGrid

variable {sg : SpatialGrid} {n : TreeNode} {q : Nat} {key : Bytes}

structure TreeNode.Plain (n : TreeNode) : Prop where
  flags_lt : n.flags < 256
  noPadding : n.flags &&& HAS_PADDING = 0
  padding_eq : n.padding = 0
  next_lt : n.nextNodeOffset < 2 ^ 32
  index_lt : n.hasIndex = true → n.itemIndexId < 2 ^ 32
  noIndex : n.hasIndex = false → n.itemIndexId = npos

/-- The bytes for the pixel of a node with parent pixel `q`. -/
inductive KeyOf (sg : SpatialGrid) (n : TreeNode) (q : Nat) : Bytes → Prop where
  | root (hroot : n.isRoot = true) (hp : n.pixelId = sg.rootPixelId) : KeyOf sg n q []
  | child {k : Nat} (hroot : n.isRoot = false) (hk : k < 2 ^ 32)
      (hnumber : n.childNumber sg = .ok k) (hindex : sg.index q k = .ok n.pixelId) :
      KeyOf sg n q (pVu32 k)

def indexBytes (n : TreeNode) : Bytes := if n.hasIndex then pVu32 n.itemIndexId else []

def recordOf (n : TreeNode) (key : Bytes) : Bytes :=
  leBytes 1 n.flags ++ leBytes 4 n.nextNodeOffset ++ key ++ indexBytes n

theorem length_recordOf (n : TreeNode) (key : Bytes) :
    (recordOf n key).length = 5 + key.length + (indexBytes n).length := by
  simp only [recordOf, List.length_append, length_leBytes]

theorem KeyOf.childNumberBytes (h : KeyOf sg n q key) : n.childNumberBytes sg = .ok key := by
  cases h with
  | root hroot hp => rw [TreeNode.childNumberBytes, if_pos hroot]
  | child hroot hk hnumber hindex =>
    rw [TreeNode.childNumberBytes, hnumber, hroot]
    rfl

theorem KeyOf.childNumberSize (h : KeyOf sg n q key) : n.childNumberSize sg = .ok key.length := by
  cases h with
  | root hroot hp => rw [TreeNode.childNumberSize, if_pos hroot, List.length_nil]
  | child hroot hk hnumber hindex =>
    rw [TreeNode.childNumberSize, hnumber, hroot, length_pVu32 hk]
    rfl

theorem TreeNode.Plain.length_indexBytes (hn : n.Plain) :
    (indexBytes n).length = if n.hasIndex then psizeVu32 n.itemIndexId else 0 := by
  rw [indexBytes]
  split
  · rename_i hindex
    exact length_pVu32 (hn.index_lt hindex)
  · rfl

theorem KeyOf.minSizeInBytes (h : KeyOf sg n q key) (hn : n.Plain) :
    n.minSizeInBytes sg = .ok (recordOf n key).length := by
  rw [TreeNode.minSizeInBytes, h.childNumberSize, ok_bind, length_recordOf, hn.length_indexBytes]
  rfl

theorem KeyOf.getSizeInBytes (h : KeyOf sg n q key) (hn : n.Plain) :
    n.getSizeInBytes sg = .ok (recordOf n key).length := by
  rw [TreeNode.getSizeInBytes, h.minSizeInBytes hn, ok_bind, hn.noPadding]
  rfl

theorem and_0xEF {f : Nat} (hlt : f < 256) (hpad : f &&& HAS_PADDING = 0) : f &&& 0xEF = f := by
  have hall : ∀ x < 256, x &&& HAS_PADDING = 0 → x &&& 0xEF = x := by decide +kernel
  exact hall f hlt hpad

theorem KeyOf.update (h : KeyOf sg n q key) (hn : n.Plain) (dest : Bytes) :
    TreeNode.update sg dest n (recordOf n key).length =
      .ok (recordOf n key ++ dest.drop (recordOf n key).length) := by
  rw [TreeNode.update, h.minSizeInBytes hn, ok_bind, if_neg (Nat.lt_irrefl _),
    and_0xEF hn.flags_lt hn.noPadding, h.childNumberBytes]
  simp only [Nat.lt_irrefl, if_false, hn.noPadding, ne_eq, not_true_eq_false, List.append_nil,
    ok_bind, except_pure]
  simp only [recordOf, indexBytes, TreeNode.hasIndex, decide_eq_true_eq, ne_eq]

theorem KeyOf.readPixelId (h : KeyOf sg n q key) {data rest : Bytes}
    (hdrop : data.drop 5 = key ++ rest) :
    TreeNode.readPixelId sg data q n.flags = .ok (n.pixelId, 5 + key.length) := by
  cases h with
  | root hroot hp =>
    rw [TreeNode.readPixelId, if_pos (of_decide_eq_true hroot), hp]
    rfl
  | child hroot hk hnumber hindex =>
    rw [TreeNode.readPixelId, if_neg (of_decide_eq_false hroot),
      getVlPackedUint32At_of_drop hk hdrop, ok_bind]
    dsimp only
    rw [hindex]
    rfl

theorem TreeNode.Plain.readItemIndexId (hn : n.Plain) {data rest : Bytes} {p : Nat}
    (hdrop : data.drop p = indexBytes n ++ rest) :
    ∃ p', TreeNode.readItemIndexId data n.flags p = .ok (n.itemIndexId, p') := by
  rw [TreeNode.readItemIndexId]
  by_cases hindex : n.hasIndex = true
  · rw [indexBytes, if_pos hindex] at hdrop
    rw [if_pos (of_decide_eq_true hindex),
      getVlPackedUint32At_of_drop (hn.index_lt hindex) hdrop]
    exact ⟨_, rfl⟩
  · rw [Bool.not_eq_true] at hindex
    rw [if_neg (of_decide_eq_false hindex), hn.noIndex hindex]
    exact ⟨_, rfl⟩

theorem KeyOf.read (h : KeyOf sg n q key) (hn : n.Plain) (rest : Bytes) :
    TreeNode.read sg (recordOf n key ++ rest) q = .ok n := by
  have hdrop₀ : (recordOf n key ++ rest).drop 0 =
      leBytes 1 n.flags ++ (leBytes 4 n.nextNodeOffset ++ (key ++ (indexBytes n ++ rest))) := by
    simp only [recordOf, List.drop_zero, List.append_assoc]
  have hflags := getUint_of_drop hn.flags_lt Nat.one_pos hdrop₀
  have hdrop₁ := drop_add_of_drop hdrop₀
  rw [length_leBytes] at hdrop₁
  have hnext := getUint_of_drop hn.next_lt (by decide) hdrop₁
  have hdrop₅ : (recordOf n key ++ rest).drop 5 = key ++ (indexBytes n ++ rest) := by
    have hdrop := drop_add_of_drop hdrop₁
    rwa [length_leBytes] at hdrop
  obtain ⟨p', hindex⟩ := hn.readItemIndexId (drop_add_of_drop hdrop₅)
  have hpadding : TreeNode.readPadding (recordOf n key ++ rest) n.flags p' = .ok n.padding := by
    rw [TreeNode.readPadding, hn.noPadding, hn.padding_eq]
    rfl
  rw [TreeNode.read, hflags, ok_bind, hnext, ok_bind, h.readPixelId hdrop₅, ok_bind]
  dsimp only
  rw [hindex, ok_bind]
  dsimp only
  rw [hpadding]
  rfl

theorem length_recordOf_ge (n : TreeNode) (key : Bytes) : 5 ≤ (recordOf n key).length := by
  rw [length_recordOf]
  omega

theorem KeyOf.node (h : KeyOf sg n q key) (hn : n.Plain) {t : Tree} {d rest : Bytes}
    (hdata : t.nodeData = d ++ (recordOf n key ++ rest)) :
    t.node sg ⟨q, d.length⟩ = .ok n := by
  have hge := length_recordOf_ge n key
  have hle : d.length + 5 ≤ t.nodeData.length := by
    rw [hdata, List.length_append, List.length_append]
    omega
  rw [Tree.node, if_neg (Nat.not_lt.mpr hle), hdata]
  dsimp only
  rw [List.drop_left, h.read hn]

theorem KeyOf.nodeInfo (h : KeyOf sg n q key) (hn : n.Plain) {t : Tree} {d rest : Bytes}
    (hdata : t.nodeData = d ++ (recordOf n key ++ rest)) :
    t.nodeInfo sg ⟨q, d.length⟩ = .ok ⟨n, ⟨q, d.length⟩⟩ := by
  rw [Tree.nodeInfo, h.node hn hdata]
  rfl

def treeOf (d : Bytes) : Tree := ⟨u32 d.length, d⟩

theorem KeyOf.push (h : KeyOf sg n q key) (hn : n.Plain) {np : NodePosition} (d : Bytes)
    (hnp : (n.isRoot = true ∧ np = ⟨0, d.length⟩) ∨
      (n.isRoot = false ∧ sg.parent n.pixelId = .ok q ∧ np = ⟨q, d.length⟩)) :
    (treeOf d).push sg n = .ok (treeOf (d ++ recordOf n key), np) := by
  have hresize : UByteArrayAdapter.resize (d ++ recordOf n key)
      (d.length + (recordOf n key).length) = d ++ recordOf n key := by
    rw [UByteArrayAdapter.resize, ← List.length_append, List.take_length, Nat.sub_self,
      List.replicate_zero, List.append_nil]
  rw [Tree.push, h.minSizeInBytes hn, ok_bind, h.update hn, ok_bind, List.drop_nil,
    List.append_nil]
  simp only [treeOf, hresize, List.length_append]
  rcases hnp with ⟨hroot, rfl⟩ | ⟨hroot, hparent, rfl⟩
  · rw [if_pos hroot]
    rfl
  · rw [hroot, hparent]
    rfl

theorem KeyOf.updateTree {n' : TreeNode} (h : KeyOf sg n q key) (hn : n.Plain)
    (h' : KeyOf sg n' q key) (hn' : n'.Plain)
    (hlen : (recordOf n' key).length = (recordOf n key).length) (d rest : Bytes) :
    (treeOf (d ++ (recordOf n key ++ rest))).update sg ⟨q, d.length⟩ n' =
      .ok (treeOf (d ++ (recordOf n' key ++ rest))) := by
  rw [Tree.update]
  simp only [treeOf, List.drop_left, List.take_left, h.read hn, ok_bind, h.getSizeInBytes hn,
    ← hlen, h'.update hn', except_pure]
  rw [hlen, List.drop_left]
  simp only [List.length_append, hlen]

end StaticHCQRSpatialGrid

end Sserialize
