import Sserialize.Spatial.HCQRSpatialGridOpsCorrect
import Sserialize.Spatial.StaticHCQRTreeCreate

namespace Sserialize.StaticHCQRSpatialGrid

def SameNode (a b : NodeInfo) : Prop :=
  a.node = b.node ∧ a.position.dataOffset = b.position.dataOffset

/-- `nextNode` leads through the children of a node and from the last one back to it. -/
def NextChain (sg : SpatialGrid) (t : Tree) (ni : NodeInfo) : List NodeInfo → Prop
  | [] => True
  | [c] => ∃ x, t.nextNode sg c = .ok x ∧ SameNode x ni
  | c :: c' :: cs => t.nextNode sg c = .ok c' ∧ NextChain sg t ni (c' :: cs)

/-- The node at `ni` and all nodes below it are those of the source. -/
inductive Mirrors (sg : SpatialGrid) (t : Tree) : NodeInfo → Source → Prop where
  | leaf {ni : NodeInfo} {p f i : Nat} (hpixel : ni.node.pixelId = p)
      (hflags : ni.node.flags &&& COMPATIBLE_FLAGS = f) (hleaf : ni.node.isLeaf = true)
      (hinternal : ni.node.isInternal = false) (hindex : ni.node.itemIndexId = i) :
      Mirrors sg t ni (.node p f i [])
  | internal {ni : NodeInfo} {p f i : Nat} {cs : List Source} {infos : List NodeInfo}
      (hne : cs ≠ []) (hpixel : ni.node.pixelId = p)
      (hflags : ni.node.flags &&& COMPATIBLE_FLAGS = f) (hleaf : ni.node.isLeaf = false)
      (hinternal : ni.node.isInternal = true) (hchildren : t.children sg ni = .ok infos)
      (hlen : infos.length = cs.length) (hnext : NextChain sg t ni infos)
      (hparent : ∀ c ∈ infos, ∃ x, t.parent sg c = .ok x ∧ SameNode x ni)
      (hcs : ∀ x ∈ infos.zip cs, Mirrors sg t x.1 x.2) :
      Mirrors sg t ni (.node p f i cs)

def Traversable (sg : SpatialGrid) (t : Tree) : Option Source → Prop
  | none => t.hasNodes = false
  | some root => t.hasNodes = true ∧
      ∃ ni, t.nodeInfo sg Tree.rootNodePosition = .ok ni ∧ Mirrors sg t ni root

variable {sg : SpatialGrid} {t : Source} {q p : Nat} {l : Link} {D d rest : Bytes}

/-- What is found at children that start `dist` bytes behind their parent. -/
def childInfos (sg : SpatialGrid) (p off dist : Nat) : List Source → List NodeInfo
  | [] => []
  | c :: cs => ⟨storedNode (childLink sg dist c cs) c, ⟨p, off⟩⟩ ::
      childInfos sg p (off + size sg c) (dist + size sg c) cs

theorem length_childInfos (p off dist : Nat) (cs : List Source) :
    (childInfos sg p off dist cs).length = cs.length := by
  induction cs generalizing off dist with
  | nil => rfl
  | cons c cs ih => rw [childInfos, List.length_cons, List.length_cons, ih]

theorem length_le_sizes (sg : SpatialGrid) (cs : List Source) : cs.length ≤ sizes sg cs := by
  induction cs with
  | nil => exact Nat.le_refl 0
  | cons c cs ih =>
    have hpos := size_pos sg c
    rw [List.length_cons, sizes]
    omega

theorem Storable.nodeInfo (h : Storable sg q t) (hD : D = d ++ (bytesOf sg l t ++ rest)) :
    (treeOf D).nodeInfo sg ⟨q, d.length⟩ = .ok ⟨storedNode l t, ⟨q, d.length⟩⟩ := by
  have hdata : (treeOf D).nodeData = d ++ (recordOf (storedNode l t) (keyBytes sg t.pixelId) ++
      (childBytes sg (recordSize sg t) t.children ++ rest)) := by
    rw [treeOf, hD, bytesOf_eq, List.append_assoc]
  exact (h.key l).nodeInfo (h.kind.plain_link l) hdata

def back (sg : SpatialGrid) (D : Bytes) (p off : Nat) : Except Fault NodeInfo := do
  let grandParentPId ← sg.parent p
  (treeOf D).nodeInfo sg ⟨grandParentPId, off⟩

variable {c : Source} {cs : List Source} {dist : Nat}

theorem data_tail (hD : D = d ++ (childBytes sg dist (c :: cs) ++ rest)) :
    D = (d ++ bytesOf sg (childLink sg dist c cs) c) ++
      (childBytes sg (dist + size sg c) cs ++ rest) := by
  rw [hD, childBytes]
  simp only [List.append_assoc]

theorem data_head (hD : D = d ++ (childBytes sg dist (c :: cs) ++ rest)) :
    D = d ++ (bytesOf sg (childLink sg dist c cs) c ++
      (childBytes sg (dist + size sg c) cs ++ rest)) := by
  rw [hD, childBytes, List.append_assoc]

theorem length_child (d : Bytes) (l : Link) (c : Source) :
    (d ++ bytesOf sg l c).length = d.length + size sg c := by
  rw [List.length_append, length_bytes]

theorem length_le_data (hD : D = d ++ (childBytes sg dist cs ++ rest)) :
    d.length + sizes sg cs ≤ D.length := by
  have hlen := congrArg List.length hD
  rw [List.length_append, List.length_append, length_childBytes] at hlen
  omega

theorem hasParent_childLink (h : Storable sg p c) (dist : Nat) (cs : List Source) :
    (storedNode (childLink sg dist c cs) c).hasParent = cs.isEmpty := by
  rw [h.kind.hasParent, childLink]
  cases cs.isEmpty <;> rfl

theorem nextNode_sibling {c' : Source} (hcs : ∀ x ∈ c :: c' :: cs, Storable sg p x)
    (hD : D = d ++ (childBytes sg dist (c :: c' :: cs) ++ rest)) (hlt : D.length < 2 ^ 32)
    (hd : 0 < d.length) :
    (treeOf D).nextNode sg ⟨storedNode (childLink sg dist c (c' :: cs)) c, ⟨p, d.length⟩⟩ =
      .ok ⟨storedNode (childLink sg (dist + size sg c) c' cs) c',
        ⟨p, d.length + size sg c⟩⟩ := by
  have hc := hcs c List.mem_cons_self
  have hc' := hcs c' (List.mem_cons_of_mem c List.mem_cons_self)
  have hsize : size sg c < 2 ^ 32 := by
    have hle := length_le_data hD
    rw [sizes] at hle
    omega
  have hinfo := hc'.nodeInfo (data_head (data_tail hD))
  rw [length_child] at hinfo
  have hparent := hasParent_childLink hc dist (c' :: cs)
  rw [Tree.nextNode]
  dsimp only
  rw [if_neg (by omega), hparent]
  change (treeOf D).nodeInfo sg ⟨p, d.length + u32 (size sg c)⟩ = _
  rw [u32_of_lt hsize]
  exact hinfo

theorem nextNode_last (hc : Storable sg p c)
    (hD : D = d ++ (childBytes sg dist [c] ++ rest)) (hlt : D.length < 2 ^ 32)
    (hd : 0 < d.length) (hle : dist ≤ d.length) :
    (treeOf D).nextNode sg ⟨storedNode (childLink sg dist c []) c, ⟨p, d.length⟩⟩ =
      back sg D p (d.length - dist) := by
  have hdist : dist < 2 ^ 32 := by
    have hlen := congrArg List.length hD
    rw [List.length_append] at hlen
    omega
  have hnext : (storedNode (childLink sg dist c []) c).nextNodeOffset = dist := u32_of_lt hdist
  have hparent := hasParent_childLink hc dist []
  rw [Tree.nextNode]
  dsimp only
  rw [if_neg (by omega), hparent, hnext]
  simp only [if_pos hle]
  rfl

theorem childrenLoop_spec (hcs : ∀ x ∈ c :: cs, Storable sg p x)
    (hD : D = d ++ (childBytes sg dist (c :: cs) ++ rest)) (hlt : D.length < 2 ^ 32)
    (hd : 0 < d.length) {fuel : Nat} (hfuel : cs.length < fuel) :
    (treeOf D).childrenLoop sg fuel ⟨storedNode (childLink sg dist c cs) c, ⟨p, d.length⟩⟩ =
      .ok (childInfos sg p d.length dist (c :: cs)) := by
  induction cs generalizing c d dist fuel with
  | nil =>
    obtain ⟨fuel, rfl⟩ : ∃ k, fuel = k + 1 := ⟨fuel - 1, (Nat.succ_pred_eq_of_pos hfuel).symm⟩
    have hc := hcs c List.mem_cons_self
    have hsibling : (storedNode (childLink sg dist c []) c).hasSibling = false := by
      rw [TreeNode.hasSibling, hasParent_childLink hc]
      rfl
    rw [Tree.childrenLoop]
    dsimp only
    rw [hsibling]
    rfl
  | cons c' cs ih =>
    obtain ⟨fuel, rfl⟩ : ∃ k, fuel = k + 1 := ⟨fuel - 1, by omega⟩
    have hc := hcs c List.mem_cons_self
    have htail : ∀ x ∈ c' :: cs, Storable sg p x := fun x hx => hcs x (List.mem_cons_of_mem c hx)
    have hsibling : (storedNode (childLink sg dist c (c' :: cs)) c).hasSibling = true := by
      rw [TreeNode.hasSibling, hasParent_childLink hc, hc.kind.isRoot]
      rfl
    have hD' := data_tail hD
    have hfuel' : cs.length < fuel := Nat.lt_of_succ_lt_succ hfuel
    have hrec := ih htail hD' (by rw [length_child]; omega) hfuel'
    rw [length_child] at hrec
    rw [Tree.childrenLoop]
    dsimp only
    rw [hsibling, if_pos rfl, nextNode_sibling hcs hD hlt hd, ok_bind, hrec]
    rfl

theorem parentLoop_spec (hcs : ∀ x ∈ c :: cs, Storable sg p x)
    (hD : D = d ++ (childBytes sg dist (c :: cs) ++ rest)) (hlt : D.length < 2 ^ 32)
    (hd : 0 < d.length) (hle : dist ≤ d.length) {fuel : Nat} (hfuel : cs.length < fuel) :
    (treeOf D).parentLoop sg fuel ⟨storedNode (childLink sg dist c cs) c, ⟨p, d.length⟩⟩ =
      back sg D p (d.length - dist) := by
  induction cs generalizing c d dist fuel with
  | nil =>
    obtain ⟨fuel, rfl⟩ : ∃ k, fuel = k + 1 := ⟨fuel - 1, (Nat.succ_pred_eq_of_pos hfuel).symm⟩
    have hc := hcs c List.mem_cons_self
    rw [Tree.parentLoop]
    dsimp only
    rw [hasParent_childLink hc]
    exact nextNode_last hc hD hlt hd hle
  | cons c' cs ih =>
    obtain ⟨fuel, rfl⟩ : ∃ k, fuel = k + 1 := ⟨fuel - 1, by omega⟩
    have hc := hcs c List.mem_cons_self
    have htail : ∀ x ∈ c' :: cs, Storable sg p x := fun x hx => hcs x (List.mem_cons_of_mem c hx)
    have hD' := data_tail hD
    have hfuel' : cs.length < fuel := Nat.lt_of_succ_lt_succ hfuel
    have hrec := ih htail hD' (by rw [length_child]; omega) (by rw [length_child]; omega) hfuel'
    have hsub : d.length + size sg c - (dist + size sg c) = d.length - dist := by omega
    rw [length_child, hsub] at hrec
    rw [Tree.parentLoop]
    dsimp only
    rw [hasParent_childLink hc, List.isEmpty_cons, if_neg Bool.false_ne_true,
      nextNode_sibling hcs hD hlt hd, ok_bind]
    exact hrec

theorem parent_spec (hcs : ∀ x ∈ cs, Storable sg p x)
    (hD : D = d ++ (childBytes sg dist cs ++ rest)) (hlt : D.length < 2 ^ 32)
    (hd : 0 < d.length) (hle : dist ≤ d.length) :
    ∀ x ∈ childInfos sg p d.length dist cs,
      (treeOf D).parent sg x = back sg D p (d.length - dist) := by
  induction cs generalizing d dist with
  | nil => nofun
  | cons c cs ih =>
    have hc := hcs c List.mem_cons_self
    have htail : ∀ x ∈ cs, Storable sg p x := fun x hx => hcs x (List.mem_cons_of_mem c hx)
    have hD' := data_tail hD
    have hsub : d.length + size sg c - (dist + size sg c) = d.length - dist := by omega
    intro x hx
    rw [childInfos, List.mem_cons] at hx
    rcases hx with rfl | hx
    · rw [Tree.parent]
      dsimp only
      rw [if_neg (by omega), hasParent_childLink hc]
      cases cs with
      | nil => exact nextNode_last hc hD hlt hd hle
      | cons c' cs =>
        have hfuel : cs.length < (treeOf D).nodeData.length := by
          have hcount := length_le_sizes sg (c' :: cs)
          have hle' := length_le_data hD'
          rw [List.length_cons] at hcount
          change cs.length < D.length
          omega
        have hloop := parentLoop_spec htail hD' hlt (by rw [length_child]; omega)
          (by rw [length_child]; omega) hfuel
        rw [length_child, hsub] at hloop
        rw [List.isEmpty_cons, if_neg Bool.false_ne_true, nextNode_sibling hcs hD hlt hd, ok_bind]
        exact hloop
    · have hrec := ih htail hD' (by rw [length_child]; omega) (by rw [length_child]; omega)
      rw [length_child, hsub] at hrec
      exact hrec x hx

theorem nextChain_spec {ni y : NodeInfo} (hcs : ∀ x ∈ cs, Storable sg p x)
    (hD : D = d ++ (childBytes sg dist cs ++ rest)) (hlt : D.length < 2 ^ 32)
    (hd : 0 < d.length) (hle : dist ≤ d.length)
    (hback : back sg D p (d.length - dist) = .ok y) (hsame : SameNode y ni) :
    NextChain sg (treeOf D) ni (childInfos sg p d.length dist cs) := by
  induction cs generalizing d dist with
  | nil => trivial
  | cons c cs ih =>
    have hc := hcs c List.mem_cons_self
    cases cs with
    | nil =>
      refine ⟨y, ?_, hsame⟩
      rw [nextNode_last hc hD hlt hd hle, hback]
    | cons c' cs =>
      have hD' := data_tail hD
      have hsub : d.length + size sg c - (dist + size sg c) = d.length - dist := by omega
      have hrec := ih (fun x hx => hcs x (List.mem_cons_of_mem c hx)) hD'
        (by rw [length_child]; omega) (by rw [length_child]; omega)
        (by rw [length_child, hsub]; exact hback)
      rw [length_child] at hrec
      exact ⟨nextNode_sibling hcs hD hlt hd, hrec⟩

variable {extra next p f i : Nat}

theorem flags_stored (h : Kind t) (hextra : Extra extra) (next : Nat) :
    (stored extra next t).flags &&& COMPATIBLE_FLAGS = t.flags := by
  rw [stored_eq]
  dsimp only
  rw [hextra.and_eq t.flags (by decide) (by decide)]
  rcases h.flags with hf | hf | hf | hf <;> rw [hf] <;> rfl

theorem isInternal_stored (h : Kind t) (hextra : Extra extra) (next : Nat) :
    (stored extra next t).isInternal = t.isInternal := by
  rw [TreeNode.isInternal, stored_eq]
  dsimp only
  rw [hextra.and_eq t.flags (by decide) (by decide)]
  cases h with
  | internal => simp [HCQRSpatialGrid.TreeNode.flags, HCQRSpatialGrid.TreeNode.isInternal,
      HCQRSpatialGrid.TreeNode.children, IS_INTERNAL]
  | full => simp [HCQRSpatialGrid.TreeNode.flags, HCQRSpatialGrid.TreeNode.isInternal,
      HCQRSpatialGrid.TreeNode.children, IS_INTERNAL, IS_FULL_MATCH]
  | index hf hi =>
    rcases hf with rfl | rfl <;>
      simp [HCQRSpatialGrid.TreeNode.flags, HCQRSpatialGrid.TreeNode.isInternal,
        HCQRSpatialGrid.TreeNode.children, IS_INTERNAL, IS_PARTIAL_MATCH, IS_FETCHED]

theorem isLeaf_stored (h : Kind t) (hextra : Extra extra) (next : Nat) :
    (stored extra next t).isLeaf = t.isLeaf := by
  rw [TreeNode.isLeaf, stored_eq]
  dsimp only
  rw [hextra.and_eq t.flags (by decide) (by decide)]
  cases h with
  | internal => simp [HCQRSpatialGrid.TreeNode.flags, HCQRSpatialGrid.TreeNode.isLeaf,
      HCQRSpatialGrid.TreeNode.children, IS_INTERNAL, IS_LEAF, IS_FULL_MATCH, IS_PARTIAL_MATCH,
      IS_FETCHED]
  | full => simp [HCQRSpatialGrid.TreeNode.flags, HCQRSpatialGrid.TreeNode.isLeaf,
      HCQRSpatialGrid.TreeNode.children, IS_LEAF, IS_FULL_MATCH, IS_PARTIAL_MATCH, IS_FETCHED]
  | index hf hi =>
    rcases hf with rfl | rfl <;>
      simp [HCQRSpatialGrid.TreeNode.flags, HCQRSpatialGrid.TreeNode.isLeaf,
        HCQRSpatialGrid.TreeNode.children, IS_LEAF, IS_FULL_MATCH, IS_PARTIAL_MATCH, IS_FETCHED]

theorem itemIndexId_stored (h : Kind t) (hleaf : t.children = []) (extra next : Nat) :
    (stored extra next t).itemIndexId = t.itemIndexId := by
  rw [stored_eq]
  cases h with
  | internal => cases hleaf
  | full => simp [HCQRSpatialGrid.TreeNode.itemIndexId]
  | index hf hi =>
    rcases hf with rfl | rfl <;>
      simp [HCQRSpatialGrid.TreeNode.flags, HCQRSpatialGrid.TreeNode.itemIndexId, HAS_INDEX,
        IS_PARTIAL_MATCH, IS_FETCHED]

theorem children_spec (ni : NodeInfo) {record : Bytes} (hcs : ∀ x ∈ c :: cs, Storable sg p x)
    (hD : D = d ++ (record ++ (childBytes sg record.length (c :: cs) ++ rest)))
    (hlt : D.length < 2 ^ 32) (hrecord : 0 < record.length)
    (hoffset : ni.position.dataOffset = d.length) (hpixel : ni.node.pixelId = p)
    (hinternal : ni.node.isInternal = true)
    (hsize : ni.node.getSizeInBytes sg = .ok record.length) :
    (treeOf D).children sg ni =
      .ok (childInfos sg p (d.length + record.length) record.length (c :: cs)) := by
  have hD' : D = (d ++ record) ++ (childBytes sg record.length (c :: cs) ++ rest) := by
    rw [hD, List.append_assoc]
  have hlen : (d ++ record).length = d.length + record.length := List.length_append
  have hfirst := (hcs c List.mem_cons_self).nodeInfo (data_head hD')
  have hfuel : cs.length < (treeOf D).nodeData.length := by
    have hcount := length_le_sizes sg (c :: cs)
    have hle := length_le_data hD'
    rw [List.length_cons] at hcount
    change cs.length < D.length
    omega
  have hloop := childrenLoop_spec hcs hD' hlt (by omega) hfuel
  rw [hlen] at hfirst hloop
  rw [Tree.children, Tree.firstChild, if_pos hinternal, hsize, ok_bind, hoffset, hpixel, hfirst,
    ok_bind, hloop]

theorem mirrors_childInfos
    (ih : ∀ c ∈ cs, ∀ l d rest, D = d ++ (bytesOf sg l c ++ rest) → 0 < d.length →
      Mirrors sg (treeOf D) ⟨storedNode l c, ⟨p, d.length⟩⟩ c)
    (hD : D = d ++ (childBytes sg dist cs ++ rest)) (hd : 0 < d.length) :
    ∀ x ∈ (childInfos sg p d.length dist cs).zip cs, Mirrors sg (treeOf D) x.1 x.2 := by
  induction cs generalizing d dist with
  | nil => nofun
  | cons c cs ihcs =>
    intro x hx
    rw [childInfos, List.zip_cons_cons, List.mem_cons] at hx
    rcases hx with rfl | hx
    · exact ih c List.mem_cons_self _ _ _ (data_head hD) hd
    · have htail := ihcs (fun c' hc' => ih c' (List.mem_cons_of_mem c hc')) (data_tail hD)
        (by rw [length_child]; omega)
      rw [length_child] at htail
      exact htail x hx

/-- A node that leads to its children, and back from them, mirrors the source if its children
do. -/
theorem mirrors_node (hkind : Kind (.node p f i cs)) (hextra : Extra extra)
    {position : NodePosition} {record : Bytes} {y : NodeInfo}
    (hD : D = d ++ (record ++ (childBytes sg record.length cs ++ rest)))
    (hlt : D.length < 2 ^ 32) (hrecord : 0 < record.length)
    (hoffset : position.dataOffset = d.length)
    (hsize : (stored extra next (.node p f i cs)).getSizeInBytes sg = .ok record.length)
    (hback : cs ≠ [] → back sg D p d.length = .ok y)
    (hsame : SameNode y ⟨stored extra next (.node p f i cs), position⟩)
    (hcs : ∀ c ∈ cs, Storable sg p c)
    (ih : ∀ c ∈ cs, ∀ l d rest, D = d ++ (bytesOf sg l c ++ rest) → 0 < d.length →
      Mirrors sg (treeOf D) ⟨storedNode l c, ⟨p, d.length⟩⟩ c) :
    Mirrors sg (treeOf D) ⟨stored extra next (.node p f i cs), position⟩ (.node p f i cs) := by
  have hflags := flags_stored hkind hextra next
  have hinternal := isInternal_stored hkind hextra next
  have hleaf := isLeaf_stored hkind hextra next
  have hpixel : (stored extra next (.node p f i cs)).pixelId = p := by
    rw [stored_eq]
    rfl
  cases cs with
  | nil =>
    exact .leaf hpixel hflags hleaf hinternal (itemIndexId_stored hkind rfl extra next)
  | cons c cs =>
    have hD' : D = (d ++ record) ++ (childBytes sg record.length (c :: cs) ++ rest) := by
      rw [hD, List.append_assoc]
    have hlen : (d ++ record).length = d.length + record.length := List.length_append
    have hsub : (d ++ record).length - record.length = d.length := by omega
    have hback' : back sg D p ((d ++ record).length - record.length) = .ok y := by
      rw [hsub]
      exact hback (List.cons_ne_nil c cs)
    have hchildren := children_spec ⟨stored extra next (.node p f i (c :: cs)), position⟩ hcs hD hlt
      hrecord hoffset hpixel hinternal hsize
    rw [← hlen] at hchildren
    refine .internal (List.cons_ne_nil c cs) hpixel hflags hleaf hinternal hchildren
      (length_childInfos _ _ _ _) ?_ ?_ ?_
    · exact nextChain_spec hcs hD' hlt (by omega) (by omega) hback' hsame
    · intro x hx
      exact ⟨y, (parent_spec hcs hD' hlt (by omega) (by omega) x hx).trans hback', hsame⟩
    · exact mirrors_childInfos ih hD' (by omega)

theorem Storable.mirrors (t : Source) : ∀ {q l d rest}, Storable sg q t →
    D = d ++ (bytesOf sg l t ++ rest) → D.length < 2 ^ 32 → 0 < d.length →
    Mirrors sg (treeOf D) ⟨storedNode l t, ⟨q, d.length⟩⟩ t := by
  induction t using HCQRSpatialGrid.TreeNode.induct with
  | h p f i cs ih =>
    intro q l d rest h hD hlt _
    have hrecord : (recordOf (storedNode l (.node p f i cs)) (keyBytes sg p)).length =
        recordSize sg (.node p f i cs) := length_record l _
    have hpos := length_recordOf_ge (storedNode l (.node p f i cs)) (keyBytes sg p)
    have hinfo := h.nodeInfo hD
    have hback : back sg D p d.length =
        .ok ⟨storedNode l (.node p f i cs), ⟨q, d.length⟩⟩ := by
      have hparent : sg.parent p = .ok q := h.parent
      rw [back, hparent, ok_bind, hinfo]
    have hsize := (h.key l).getSizeInBytes (h.kind.plain_link l)
    have hD' : D = d ++ (recordOf (storedNode l (.node p f i cs)) (keyBytes sg p) ++
        (childBytes sg (recordOf (storedNode l (.node p f i cs)) (keyBytes sg p)).length cs ++
          rest)) := by
      rw [hD, bytesOf, hrecord, List.append_assoc]
    refine mirrors_node h.kind l.extra hD' hlt (by omega) rfl hsize (fun _ => hback) ⟨rfl, rfl⟩
      h.children ?_
    intro c hc l' d' rest' hD'' hd'
    exact ih c hc (h.children c hc) hD'' hlt hd'

theorem StorableRoot.nodeInfo (h : StorableRoot sg t) (q : Nat) :
    (treeOf (rootBytes sg t)).nodeInfo sg ⟨q, 0⟩ = .ok ⟨rootNode t, ⟨q, 0⟩⟩ := by
  have hdata : (treeOf (rootBytes sg t)).nodeData = [] ++ (recordOf (rootNode t) [] ++
      childBytes sg (recordOf (rootNode t) []).length t.children) := rfl
  exact (h.key q).nodeInfo h.kind.plain_root hdata

theorem StorableRoot.mirrors (h : StorableRoot sg t) (hlt : (rootBytes sg t).length < 2 ^ 32)
    (hback : t.children ≠ [] → ∃ q, sg.parent t.pixelId = .ok q) :
    Mirrors sg (treeOf (rootBytes sg t)) ⟨rootNode t, Tree.rootNodePosition⟩ t := by
  obtain ⟨p, f, i, cs⟩ := t
  have hpos := length_recordOf_ge (rootNode (.node p f i cs)) []
  have hD : rootBytes sg (.node p f i cs) = [] ++ (recordOf (rootNode (.node p f i cs)) [] ++
      (childBytes sg (recordOf (rootNode (.node p f i cs)) []).length cs ++ [])) := by
    rw [List.append_nil]
    rfl
  have hsize := (h.key 0).getSizeInBytes h.kind.plain_root
  have hchildren : ∀ c ∈ cs, ∀ l d rest,
      rootBytes sg (.node p f i cs) = d ++ (bytesOf sg l c ++ rest) → 0 < d.length →
      Mirrors sg (treeOf (rootBytes sg (.node p f i cs))) ⟨storedNode l c, ⟨p, d.length⟩⟩ c :=
    fun c hc l d rest hD' hd => Storable.mirrors c (h.children c hc) hD' hlt hd
  by_cases hnil : cs = []
  · refine mirrors_node (y := ⟨rootNode (.node p f i cs), ⟨0, 0⟩⟩) h.kind extra_root hD hlt
      (by omega) rfl hsize (fun hne => absurd hnil hne) ⟨rfl, rfl⟩ h.children hchildren
  · obtain ⟨q, hq⟩ := hback hnil
    have hparent : sg.parent p = .ok q := hq
    have hroot : back sg (rootBytes sg (.node p f i cs)) p 0 =
        .ok ⟨rootNode (.node p f i cs), ⟨q, 0⟩⟩ := by
      rw [back, hparent, ok_bind]
      exact h.nodeInfo q
    exact mirrors_node h.kind extra_root hD hlt (by omega) rfl hsize (fun _ => hroot) ⟨rfl, rfl⟩
      h.children hchildren

theorem StorableRoot.exists_parent (h : StorableRoot sg t)
    (hlt : (rootBytes sg t).length < 2 ^ 32) {ni : NodeInfo}
    (hni : (treeOf (rootBytes sg t)).nodeInfo sg Tree.rootNodePosition = .ok ni)
    (hm : Mirrors sg (treeOf (rootBytes sg t)) ni t) (hne : t.children ≠ []) :
    ∃ q, sg.parent t.pixelId = .ok q := by
  have heq := Except.ok.inj ((h.nodeInfo 0).symm.trans hni)
  obtain ⟨p, f, i, cs⟩ := t
  have hpos := length_recordOf_ge (rootNode (.node p f i cs)) []
  cases cs with
  | nil => exact absurd rfl hne
  | cons c cs =>
    have hD : rootBytes sg (.node p f i (c :: cs)) =
        recordOf (rootNode (.node p f i (c :: cs))) [] ++
          (childBytes sg (recordOf (rootNode (.node p f i (c :: cs))) []).length (c :: cs) ++
            []) := by
      rw [List.append_nil]
      rfl
    have hsize := (h.key 0).getSizeInBytes h.kind.plain_root
    have hpixel : (rootNode (.node p f i (c :: cs))).pixelId = p := by
      rw [rootNode, stored_eq]
      rfl
    have hinternal := isInternal_stored h.kind extra_root (2 ^ 32 - 1)
    have hchildren := children_spec (d := []) ⟨rootNode (.node p f i (c :: cs)), ⟨0, 0⟩⟩
      h.children hD hlt (by omega) rfl hpixel hinternal hsize
    cases hm with
    | internal _ _ _ _ _ hinfos _ _ hparent _ =>
      rw [← heq] at hinfos
      have hsame := Except.ok.inj (hchildren.symm.trans hinfos)
      rw [List.length_nil, Nat.zero_add] at hsame
      have hfirst := parent_spec h.children hD hlt (by omega) (Nat.le_refl _) _
        List.mem_cons_self
      rw [← hsame] at hparent
      obtain ⟨x, hx, -⟩ := hparent _ List.mem_cons_self
      rw [hfirst] at hx
      obtain ⟨q, hq, -⟩ := bind_eq_ok hx
      exact ⟨q, hq⟩

/-- The written tree is right as long as its size fits into the header and the way back to the root
exists. -/
theorem StorableRoot.create_iff (h : StorableRoot sg t) :
    (∃ tree, Tree.create sg (some t) = .ok tree ∧ tree.getSizeInBytes = tree.data.length ∧
      Traversable sg tree (some t)) ↔
      dataSizeOf sg t < 2 ^ 32 ∧ (t.children = [] ∨ ∃ q, sg.parent sg.rootPixelId = .ok q) := by
  have hsize : (treeOf (rootBytes sg t)).getSizeInBytes = u32 (dataSizeOf sg t) + 4 := by
    rw [← length_rootBytes]
    rfl
  have hdata : (treeOf (rootBytes sg t)).data.length = 4 + dataSizeOf sg t := by
    rw [Tree.data, List.length_append, length_leBytes, ← length_rootBytes]
    rfl
  constructor
  · rintro ⟨tree, htree, hbytes, -, ni, hni, hm⟩
    obtain rfl := Except.ok.inj (h.create.symm.trans htree)
    rw [hsize, hdata] at hbytes
    have hlt : dataSizeOf sg t < 2 ^ 32 := by
      have hu32 := u32_lt (dataSizeOf sg t)
      omega
    refine ⟨hlt, ?_⟩
    by_cases hnil : t.children = []
    · exact .inl hnil
    · rw [← h.pixel]
      exact .inr (h.exists_parent (by rwa [length_rootBytes]) hni hm hnil)
  · rintro ⟨hlt, hback⟩
    have hpos : 0 < dataSizeOf sg t := by
      have hge := length_recordOf_ge (rootNode t) []
      rw [dataSizeOf]
      omega
    refine ⟨_, h.create, ?_, ?_, _, h.nodeInfo 0, ?_⟩
    · rw [hsize, hdata, u32_of_lt hlt, Nat.add_comm]
    · have hne : u32 (rootBytes sg t).length ≠ 0 := by
        rw [length_rootBytes, u32_of_lt hlt]
        exact Nat.ne_of_gt hpos
      exact decide_eq_true hne
    · refine h.mirrors (by rwa [length_rootBytes]) fun hne => ?_
      rw [h.pixel]
      exact hback.resolve_left hne

open HCQRSpatialGrid (Space Valid IsValid LeafOk leaves leaves_internal Shaped twoPixels storedAtOne
  isValid_storedAtOne lawful_twoPixels)

/-- The index ids are values of `uint32_t`. -/
def Ids32 (t : Source) : Prop := ∀ leaf ∈ leaves t, leaf.itemIndexId < 2 ^ 32

variable {sp : Space} {Pixel : Nat → Prop} {F : List ItemIndex}

theorem kind_of_valid (h : Valid sp Pixel F t) (hids : Ids32 t) : Kind t := by
  obtain ⟨hshaped, hleaf⟩ := h
  cases hshaped with
  | @leaf p f i hp =>
    have hmem : HCQRSpatialGrid.TreeNode.node p f i [] ∈ leaves (.node p f i []) := by
      rw [leaves]
      exact List.mem_singleton_self _
    have hid := hids _ hmem
    cases hleaf _ hmem with
    | full => exact .full
    | fetched hi hitems => exact .index (.inr rfl) hid
    | partialMatch hi hpos hitems => exact .index (.inl rfl) hid
  | @internal p i cs hp hne hparent hsorted hcs =>
    cases cs with
    | nil => exact absurd rfl hne
    | cons c cs => exact .internal

theorem Ids32.child {c : Source} (hids : Ids32 t) (hc : c ∈ t.children) : Ids32 c := by
  obtain ⟨p, f, i, cs⟩ := t
  intro leaf hleaf
  have hne : cs ≠ [] := List.ne_nil_of_mem hc
  refine hids leaf ?_
  rw [leaves_internal hne]
  exact List.mem_flatMap.mpr ⟨c, hc, hleaf⟩

theorem Valid.pixel (h : Valid sp Pixel F t) : Pixel t.pixelId := by
  cases h.shaped with
  | leaf hp => exact hp
  | internal hp => exact hp

theorem storable_of_valid (hsp : sp.Lawful Pixel) (hcount : ∀ p, sp.sg.childrenCount p < 2 ^ 32)
    (t : Source) : ∀ {q}, Valid sp Pixel F t → Ids32 t → 0 < sp.sg.level t.pixelId →
    sp.sg.parent t.pixelId = .ok q → Storable sp.sg q t := by
  induction t using HCQRSpatialGrid.TreeNode.induct with
  | h p f i cs ih =>
    intro q h hids hlevel hparent
    have hp : Pixel p := Valid.pixel h
    have hq := (hsp.grid.level_parent hp hlevel hparent).1
    obtain ⟨k, hk, hpos, hindex⟩ := hsp.grid.childPosition hq hp hlevel hparent
    refine .node (kind_of_valid h hids) hparent (Nat.lt_trans hk (hcount q)) hpos hindex ?_
    intro c hc
    obtain ⟨⟨hclevel, hcparent⟩, hcvalid⟩ := h.children.1 c hc
    exact ih c hc hcvalid (hids.child hc) hclevel hcparent

theorem storableRoot_of_valid (hsp : sp.Lawful Pixel)
    (hcount : ∀ p, sp.sg.childrenCount p < 2 ^ 32) (hpixel : t.pixelId = sp.sg.rootPixelId)
    (h : Valid sp Pixel F t) (hids : Ids32 t) : StorableRoot sp.sg t where
  kind := kind_of_valid h hids
  pixel := hpixel
  children c hc := by
    obtain ⟨⟨hclevel, hcparent⟩, hcvalid⟩ := h.children.1 c hc
    exact storable_of_valid hsp hcount c hcvalid (hids.child hc) hclevel hcparent

/-- `create` writes a tree that can be traversed, and whose size is the number of written bytes,
just when the nodes need less than 4 GiB and the root is a leaf or its pixel has a parent. -/
theorem create_traversable_iff (hsp : sp.Lawful Pixel)
    (hcount : ∀ p, sp.sg.childrenCount p < 2 ^ 32) {src : HCQRSpatialGrid}
    (hsrc : IsValid sp Pixel src) (hids : ∀ root, src.root = some root → Ids32 root) :
    (∃ tree, Tree.create sp.sg src.root = .ok tree ∧ tree.getSizeInBytes = tree.data.length ∧
      Traversable sp.sg tree src.root) ↔
      ∀ root, src.root = some root → dataSizeOf sp.sg root < 2 ^ 32 ∧
        (root.children = [] ∨ ∃ p, sp.sg.parent sp.sg.rootPixelId = .ok p) := by
  cases hroot : src.root with
  | none => exact iff_of_true ⟨⟨0, []⟩, rfl, rfl, rfl⟩ nofun
  | some root =>
    obtain ⟨hpixel, hvalid⟩ := hsrc root hroot
    have hstorable := storableRoot_of_valid hsp hcount hpixel hvalid (hids root hroot)
    rw [hstorable.create_iff]
    constructor
    · intro h root' hroot'
      obtain rfl := Option.some.inj hroot'
      exact h
    · intro h
      exact h root rfl

theorem childrenCount_twoPixels (p : Nat) : twoPixels.sg.childrenCount p < 2 ^ 32 := by
  change (if p = 0 then 2 else 0) < 2 ^ 32
  split
  · decide
  · decide

theorem ids32_storedAtOne : ∀ root, storedAtOne.root = some root → Ids32 root := by
  intro root hroot leaf hleaf
  obtain rfl := Option.some.inj hroot
  obtain rfl := List.mem_singleton.mp (by simpa [leaves, HCQRSpatialGrid.leavesOfList] using hleaf)
  decide

theorem create_traversable_iff_storedAtOne :
    (∃ tree, Tree.create twoPixels.sg storedAtOne.root = .ok tree ∧
      tree.getSizeInBytes = tree.data.length ∧
      Traversable twoPixels.sg tree storedAtOne.root) ↔
      ∀ root, storedAtOne.root = some root → dataSizeOf twoPixels.sg root < 2 ^ 32 ∧
        (root.children = [] ∨ ∃ p, twoPixels.sg.parent twoPixels.sg.rootPixelId = .ok p) :=
  create_traversable_iff lawful_twoPixels childrenCount_twoPixels isValid_storedAtOne
    ids32_storedAtOne

/-- The only child of the root does not lead back to it: its pixel has no parent. -/
theorem not_traversable_storedAtOne :
    IsValid twoPixels (· ≤ 2) storedAtOne ∧
      ¬ ∃ tree, Tree.create twoPixels.sg storedAtOne.root = .ok tree ∧
        tree.getSizeInBytes = tree.data.length ∧
        Traversable twoPixels.sg tree storedAtOne.root := by
  refine ⟨isValid_storedAtOne, fun htree => ?_⟩
  obtain ⟨hpixel, hvalid⟩ := isValid_storedAtOne _ rfl
  have hstorable := storableRoot_of_valid lawful_twoPixels childrenCount_twoPixels hpixel hvalid
    (ids32_storedAtOne _ rfl)
  obtain ⟨-, hback⟩ := hstorable.create_iff.mp htree
  rcases hback with hnil | ⟨q, hq⟩
  · exact List.cons_ne_nil _ _ hnil
  · cases hq

end Sserialize.StaticHCQRSpatialGrid
