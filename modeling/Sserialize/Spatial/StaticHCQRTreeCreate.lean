import Sserialize.Spatial.StaticHCQRTreeRecord

namespace Sserialize.StaticHCQRSpatialGrid

/-- The kinds of nodes of a valid result. -/
inductive Kind : Source → Prop where
  | internal {p i : Nat} {c : Source} {cs : List Source} : Kind (.node p IS_INTERNAL i (c :: cs))
  | full {p : Nat} : Kind (.node p IS_FULL_MATCH npos [])
  | index {p f i : Nat} (hf : f = IS_PARTIAL_MATCH ∨ f = IS_FETCHED) (hi : i < 2 ^ 32) :
      Kind (.node p f i [])

/-- The nodes below the pixel `q` and the positions of their pixels among the children of a
pixel. -/
inductive Storable (sg : SpatialGrid) : Nat → Source → Prop where
  | node {q p f i k : Nat} {cs : List Source} (hkind : Kind (.node p f i cs))
      (hparent : sg.parent p = .ok q) (hk : k < 2 ^ 32) (hpos : sg.childPosition q p = .ok k)
      (hindex : sg.index q k = .ok p) (hcs : ∀ c ∈ cs, Storable sg p c) :
      Storable sg q (.node p f i cs)

structure Link where
  isParent : Bool
  next : Nat

def Link.flags (l : Link) : Nat := if l.isParent then NEXT_NODE_IS_PARENT else 0

def Link.pending : Link := ⟨false, 2 ^ 32 - 1⟩

def stored (extra next : Nat) (t : Source) : TreeNode :=
  { Recurser.convert t with flags := t.flags ||| extra, nextNodeOffset := next }

def storedNode (l : Link) (t : Source) : TreeNode := stored l.flags (u32 l.next) t

def rootNode (t : Source) : TreeNode := stored IS_ROOT_NODE (2 ^ 32 - 1) t

/-- The bytes for the position of the pixel `p` among the children of its parent. -/
def keyBytes (sg : SpatialGrid) (p : Nat) : Bytes :=
  match (do let q ← sg.parent p; sg.childPosition q p : Except Fault Nat) with
  | .ok k => pVu32 k
  | .error _ => []

def recordSize (sg : SpatialGrid) (t : Source) : Nat :=
  (recordOf (storedNode .pending t) (keyBytes sg t.pixelId)).length

mutual

def size (sg : SpatialGrid) : Source → Nat
  | .node p f i cs => recordSize sg (.node p f i cs) + sizes sg cs

def sizes (sg : SpatialGrid) : List Source → Nat
  | [] => 0
  | c :: cs => size sg c + sizes sg cs

end

/-- The link of a child that starts `dist` bytes behind its parent, before the children `cs`. -/
def childLink (sg : SpatialGrid) (dist : Nat) (c : Source) (cs : List Source) : Link :=
  if cs.isEmpty then ⟨true, dist⟩ else ⟨false, size sg c⟩

mutual

def bytesOf (sg : SpatialGrid) (l : Link) : Source → Bytes
  | .node p f i cs =>
    recordOf (storedNode l (.node p f i cs)) (keyBytes sg p) ++
      childBytes sg (recordSize sg (.node p f i cs)) cs

/-- The bytes of children, `dist` bytes behind their parent. -/
def childBytes (sg : SpatialGrid) (dist : Nat) : List Source → Bytes
  | [] => []
  | c :: cs => bytesOf sg (childLink sg dist c cs) c ++ childBytes sg (dist + size sg c) cs

end

def rootBytes (sg : SpatialGrid) (t : Source) : Bytes :=
  recordOf (rootNode t) [] ++ childBytes sg (recordOf (rootNode t) []).length t.children

def dataSizeOf (sg : SpatialGrid) (t : Source) : Nat :=
  (recordOf (rootNode t) []).length + sizes sg t.children

variable {sg : SpatialGrid} {t : Source} {q : Nat} {l : Link}

def Extra (extra : Nat) : Prop := extra = 0 ∨ extra = NEXT_NODE_IS_PARENT ∨ extra = IS_ROOT_NODE

theorem Link.extra (l : Link) : Extra l.flags := by
  rw [Link.flags]
  split
  · exact .inr (.inl rfl)
  · exact .inl rfl

theorem extra_root : Extra IS_ROOT_NODE := Or.inr (.inr rfl)

theorem Extra.and_eq {extra : Nat} (h : Extra extra) (f : Nat) {mask : Nat}
    (hmask : NEXT_NODE_IS_PARENT &&& mask = 0) (hmask' : IS_ROOT_NODE &&& mask = 0) :
    (f ||| extra) &&& mask = f &&& mask := by
  have hextra : extra &&& mask = 0 := by
    rcases h with rfl | rfl | rfl
    · exact Nat.zero_and mask
    · exact hmask
    · exact hmask'
  rw [Nat.and_or_distrib_right, hextra, Nat.or_zero]

theorem convert_eq (t : Source) : Recurser.convert t =
    ⟨t.pixelId, if t.flags &&& HAS_INDEX ≠ 0 then t.itemIndexId else npos, 2 ^ 32 - 1, t.flags,
      0⟩ := by
  rw [Recurser.convert]
  split <;> rfl

theorem stored_eq (extra next : Nat) (t : Source) : stored extra next t =
    ⟨t.pixelId, if t.flags &&& HAS_INDEX ≠ 0 then t.itemIndexId else npos, next,
      t.flags ||| extra, 0⟩ := by
  rw [stored, convert_eq]

theorem convert_eq_storedNode (t : Source) : Recurser.convert t = storedNode .pending t := by
  have hflags : t.flags ||| Link.pending.flags = t.flags := Nat.or_zero _
  rw [storedNode, stored_eq, convert_eq, hflags]
  rfl

@[simp] theorem pixelId_storedNode (l : Link) (t : Source) :
    (storedNode l t).pixelId = t.pixelId := by
  rw [storedNode, stored_eq]

theorem hasIndex_stored {extra : Nat} (h : Extra extra) (next : Nat) (t : Source) :
    (stored extra next t).hasIndex = decide (t.flags &&& HAS_INDEX ≠ 0) := by
  rw [TreeNode.hasIndex, stored_eq]
  dsimp only
  rw [h.and_eq t.flags (by decide) (by decide)]

theorem indexBytes_stored {extra : Nat} (h : Extra extra) (next : Nat) (t : Source) :
    indexBytes (stored extra next t) =
      if t.flags &&& HAS_INDEX ≠ 0 then pVu32 t.itemIndexId else [] := by
  rw [indexBytes, hasIndex_stored h, stored_eq]
  by_cases hindex : t.flags &&& HAS_INDEX = 0
  · simp [hindex]
  · simp [hindex]

theorem length_record (l : Link) (t : Source) :
    (recordOf (storedNode l t) (keyBytes sg t.pixelId)).length = recordSize sg t := by
  rw [recordSize, length_recordOf, length_recordOf, storedNode, storedNode,
    indexBytes_stored l.extra, indexBytes_stored Link.pending.extra]

theorem Kind.flags (h : Kind t) : t.flags = IS_INTERNAL ∨ t.flags = IS_PARTIAL_MATCH ∨
    t.flags = IS_FULL_MATCH ∨ t.flags = IS_FETCHED := by
  cases h with
  | internal => exact .inl rfl
  | full => exact .inr (.inr (.inl rfl))
  | index hf hi =>
    rcases hf with rfl | rfl
    · exact .inr (.inl rfl)
    · exact .inr (.inr (.inr rfl))

theorem Kind.and_eq_zero (h : Kind t) {mask : Nat}
    (hmask : mask = HAS_PADDING ∨ mask = NEXT_NODE_IS_PARENT ∨ mask = IS_ROOT_NODE) :
    t.flags &&& mask = 0 := by
  rcases h.flags with hf | hf | hf | hf <;> rcases hmask with rfl | rfl | rfl <;> rw [hf] <;> rfl

theorem Kind.index_lt (h : Kind t) (hindex : t.flags &&& HAS_INDEX ≠ 0) :
    t.itemIndexId < 2 ^ 32 := by
  cases h with
  | internal => exact absurd (rfl : IS_INTERNAL &&& HAS_INDEX = 0) hindex
  | full => exact absurd (rfl : IS_FULL_MATCH &&& HAS_INDEX = 0) hindex
  | index hf hi => exact hi

theorem Kind.plain (h : Kind t) {extra next : Nat} (hextra : Extra extra) (hnext : next < 2 ^ 32) :
    (stored extra next t).Plain := by
  have hindex := hasIndex_stored hextra next t
  refine ⟨?_, ?_, ?_, ?_, fun hhas => ?_, fun hhas => ?_⟩
  · rw [stored_eq]
    change t.flags ||| extra < 256
    rcases h.flags with hf | hf | hf | hf <;> rcases hextra with rfl | rfl | rfl <;> rw [hf] <;>
      decide
  · rw [stored_eq]
    change (t.flags ||| extra) &&& HAS_PADDING = 0
    rw [hextra.and_eq t.flags (by decide) (by decide), h.and_eq_zero (.inl rfl)]
  · rw [stored_eq]
  · exact hnext
  · have hne := of_decide_eq_true (hindex.symm.trans hhas)
    rw [stored_eq]
    dsimp only
    rw [if_pos hne]
    exact h.index_lt hne
  · have heq := of_decide_eq_false (hindex.symm.trans hhas)
    rw [stored_eq]
    dsimp only
    rw [if_neg heq]

theorem Kind.plain_link (h : Kind t) (l : Link) : (storedNode l t).Plain :=
  h.plain l.extra (u32_lt _)

theorem Kind.plain_root (h : Kind t) : (rootNode t).Plain := h.plain extra_root (by decide)

theorem Kind.isRoot (h : Kind t) (l : Link) : (storedNode l t).isRoot = false := by
  have hl : l.flags &&& IS_ROOT_NODE = 0 := by
    rw [Link.flags]
    split <;> rfl
  rw [TreeNode.isRoot, storedNode, stored_eq]
  dsimp only
  rw [Nat.and_or_distrib_right, hl, h.and_eq_zero (.inr (.inr rfl))]
  rfl

theorem Kind.hasParent (h : Kind t) (l : Link) : (storedNode l t).hasParent = l.isParent := by
  rw [TreeNode.hasParent, storedNode, stored_eq]
  dsimp only
  rw [Nat.and_or_distrib_right, h.and_eq_zero (.inr (.inl rfl)), Nat.zero_or, Link.flags]
  cases l.isParent <;> rfl

theorem Storable.kind (h : Storable sg q t) : Kind t := by
  cases h
  assumption

theorem Storable.parent (h : Storable sg q t) : sg.parent t.pixelId = .ok q := by
  cases h
  assumption

variable {cs : List Source}

theorem Storable.children {p f i : Nat} (h : Storable sg q (.node p f i cs)) :
    ∀ c ∈ cs, Storable sg p c := by
  cases h
  assumption

theorem Storable.key (h : Storable sg q t) (l : Link) :
    KeyOf sg (storedNode l t) q (keyBytes sg t.pixelId) := by
  have hroot := h.kind.isRoot l
  cases h with
  | node hkind hparent hk hpos hindex hcs =>
    rename_i p f i k cs
    have hnumber : (storedNode l (.node p f i cs)).childNumber sg = .ok k := by
      rw [TreeNode.childNumber, pixelId_storedNode]
      change (sg.parent p >>= fun parent => sg.childPosition parent p) = _
      rw [hparent, ok_bind, hpos]
    have hkey : keyBytes sg (HCQRSpatialGrid.TreeNode.node p f i cs).pixelId = pVu32 k := by
      rw [keyBytes]
      change (match (sg.parent p >>= fun q => sg.childPosition q p) with
        | .ok k => pVu32 k
        | .error _ => []) = _
      rw [hparent, ok_bind, hpos]
    rw [hkey]
    refine .child hroot hk hnumber ?_
    rw [pixelId_storedNode]
    exact hindex

theorem length_bytes (t : Source) : ∀ l, (bytesOf sg l t).length = size sg t := by
  induction t using HCQRSpatialGrid.TreeNode.induct with
  | h p f i cs ih =>
    have hchildren : ∀ dist, (childBytes sg dist cs).length = sizes sg cs := by
      induction cs with
      | nil => intro dist; rfl
      | cons c cs ihcs =>
        intro dist
        have htail : ∀ c' ∈ cs, ∀ l, (bytesOf sg l c').length = size sg c' :=
          fun c' hc' => ih c' (List.mem_cons_of_mem c hc')
        rw [childBytes, sizes, List.length_append, ih c List.mem_cons_self, ihcs htail]
    intro l
    have hrecord : (recordOf (storedNode l (.node p f i cs)) (keyBytes sg p)).length =
        recordSize sg (.node p f i cs) := length_record l _
    rw [bytesOf, size, List.length_append, hrecord, hchildren]

theorem length_childBytes (cs : List Source) (dist : Nat) :
    (childBytes sg dist cs).length = sizes sg cs := by
  induction cs generalizing dist with
  | nil => rfl
  | cons c cs ih => rw [childBytes, sizes, List.length_append, length_bytes, ih]

theorem length_rootBytes (t : Source) : (rootBytes sg t).length = dataSizeOf sg t := by
  rw [rootBytes, dataSizeOf, List.length_append, length_childBytes]

theorem size_pos (sg : SpatialGrid) (t : Source) : 0 < size sg t := by
  cases t with
  | node p f i cs =>
    have hge := length_recordOf_ge (storedNode .pending (.node p f i cs)) (keyBytes sg p)
    rw [size, recordSize]
    change 0 < (recordOf _ (keyBytes sg p)).length + _
    omega

theorem bytesOf_eq (l : Link) (t : Source) :
    bytesOf sg l t = recordOf (storedNode l t) (keyBytes sg t.pixelId) ++
      childBytes sg (recordSize sg t) t.children := by
  cases t
  rw [bytesOf]
  rfl

theorem Storable.push (h : Storable sg q t) (d : Bytes) :
    (treeOf d).push sg (Recurser.convert t) =
      .ok (treeOf (d ++ recordOf (storedNode .pending t) (keyBytes sg t.pixelId)),
        ⟨q, d.length⟩) := by
  have hparent := h.parent
  rw [← pixelId_storedNode .pending] at hparent
  rw [convert_eq_storedNode]
  exact (h.key .pending).push (h.kind.plain_link .pending) d
    (.inr ⟨h.kind.isRoot .pending, hparent, rfl⟩)

def linkTo (target next : Nat) : Link :=
  if next < target then ⟨true, target - next⟩ else ⟨false, next - target⟩

theorem Storable.updateNextNode (h : Storable sg q t) (d rest : Bytes) (np : NodePosition) :
    (treeOf (d ++ (bytesOf sg .pending t ++ rest))).updateNextNode sg ⟨q, d.length⟩ np =
      .ok (treeOf (d ++ (bytesOf sg (linkTo d.length np.dataOffset) t ++ rest))) := by
  have hnode : (treeOf (d ++ (bytesOf sg .pending t ++ rest))).node sg ⟨q, d.length⟩ =
      .ok (storedNode .pending t) := by
    have hdata : (treeOf (d ++ (bytesOf sg .pending t ++ rest))).nodeData =
        d ++ (recordOf (storedNode .pending t) (keyBytes sg t.pixelId) ++
          (childBytes sg (recordSize sg t) t.children ++ rest)) := by
      rw [treeOf, bytesOf_eq, List.append_assoc]
    exact (h.key .pending).node (h.kind.plain_link .pending) hdata
  have hflags : t.flags ||| Link.pending.flags = t.flags := Nat.or_zero _
  have hnew : (if np.dataOffset < d.length then
      { storedNode .pending t with
        flags := (storedNode .pending t).flags ||| NEXT_NODE_IS_PARENT
        nextNodeOffset := u32 (d.length - np.dataOffset) }
      else { storedNode .pending t with
        nextNodeOffset := u32 (np.dataOffset - d.length) }) =
      storedNode (linkTo d.length np.dataOffset) t := by
    rw [linkTo]
    split
    · simp only [storedNode, stored_eq, hflags]
      rfl
    · rfl
  rw [Tree.updateNextNode, hnode, ok_bind]
  dsimp only
  rw [hnew, bytesOf_eq, bytesOf_eq, List.append_assoc, List.append_assoc]
  refine (h.key .pending).updateTree (h.kind.plain_link .pending) (h.key _)
    (h.kind.plain_link _) ?_ d _
  rw [length_record, length_record]

def RecWrites (sg : SpatialGrid) (q : Nat) (t : Source) : Prop :=
  ∀ d, Recurser.recurse sg (treeOf d) t =
    .ok (treeOf (d ++ bytesOf sg .pending t), ⟨q, d.length⟩)

theorem processSiblings_spec {c : Source} (hc : Storable sg q c)
    (hcs : ∀ c' ∈ cs, Storable sg q c' ∧ RecWrites sg q c') (d : Bytes) {dist : Nat}
    (hdist : 0 < dist) (hle : dist ≤ d.length) {np : NodePosition}
    (hnp : np.dataOffset = d.length - dist) :
    (Recurser.processSiblings sg (treeOf (d ++ bytesOf sg .pending c)) ⟨q, d.length⟩ cs >>=
      fun (t, last) => t.updateNextNode sg last np) =
      .ok (treeOf (d ++ childBytes sg dist (c :: cs))) := by
  induction cs generalizing c d dist with
  | nil =>
    have hlink : linkTo d.length np.dataOffset = childLink sg dist c [] := by
      have hsub : d.length - np.dataOffset = dist := by omega
      rw [linkTo, if_pos (by omega), hsub]
      rfl
    have hupdate := hc.updateNextNode d [] np
    rw [List.append_nil, List.append_nil, hlink] at hupdate
    rw [Recurser.processSiblings, ok_bind, childBytes, childBytes, List.append_nil]
    exact hupdate
  | cons c' cs ih =>
    obtain ⟨hc', hrec⟩ := hcs c' List.mem_cons_self
    have htail : ∀ x ∈ cs, Storable sg q x ∧ RecWrites sg q x :=
      fun x hx => hcs x (List.mem_cons_of_mem c' hx)
    have hlink : linkTo d.length (d ++ bytesOf sg .pending c).length =
        childLink sg dist c (c' :: cs) := by
      have hsub : d.length + size sg c - d.length = size sg c := Nat.add_sub_cancel_left _ _
      rw [List.length_append, length_bytes, linkTo, if_neg (by omega), hsub]
      rfl
    have hupdate := hc.updateNextNode d (bytesOf sg .pending c')
      ⟨q, (d ++ bytesOf sg .pending c).length⟩
    rw [hlink] at hupdate
    have hlen : (d ++ bytesOf sg .pending c).length =
        (d ++ bytesOf sg (childLink sg dist c (c' :: cs)) c).length := by
      rw [List.length_append, List.length_append, length_bytes, length_bytes]
    have hlen' : (d ++ bytesOf sg (childLink sg dist c (c' :: cs)) c).length =
        d.length + size sg c := by
      rw [List.length_append, length_bytes]
    rw [Recurser.processSiblings, hrec, ok_bind]
    dsimp only
    rw [List.append_assoc, hupdate, ok_bind, hlen, ← List.append_assoc]
    have hbytes : childBytes sg dist (c :: c' :: cs) =
        bytesOf sg (childLink sg dist c (c' :: cs)) c ++
          childBytes sg (dist + size sg c) (c' :: cs) := by
      rw [childBytes]
    rw [ih hc' htail _ (by omega : 0 < dist + size sg c) (by omega) (by omega), hbytes,
      List.append_assoc]

theorem processChildren_spec (hne : cs ≠ []) (hcs : ∀ c ∈ cs, Storable sg q c ∧ RecWrites sg q c)
    (d : Bytes) {dist : Nat} (hdist : 0 < dist) (hle : dist ≤ d.length) {np : NodePosition}
    (hnp : np.dataOffset = d.length - dist) :
    (Recurser.processChildren sg (treeOf d) cs >>=
      fun (t, last) => t.updateNextNode sg last np) =
      .ok (treeOf (d ++ childBytes sg dist cs)) := by
  cases cs with
  | nil => exact absurd rfl hne
  | cons c cs =>
    obtain ⟨hc, hrec⟩ := hcs c List.mem_cons_self
    rw [Recurser.processChildren, hrec, ok_bind]
    exact processSiblings_spec hc (fun x hx => hcs x (List.mem_cons_of_mem c hx)) d hdist hle hnp

theorem Storable.recWrites (t : Source) : ∀ {q}, Storable sg q t → RecWrites sg q t := by
  induction t using HCQRSpatialGrid.TreeNode.induct with
  | h p f i cs ih =>
    intro q h d
    have hcs : ∀ c ∈ cs, Storable sg p c ∧ RecWrites sg p c :=
      fun c hc => ⟨h.children c hc, ih c hc (h.children c hc)⟩
    rw [Recurser.recurse, h.push, ok_bind]
    dsimp only
    by_cases hnil : cs = []
    · rw [hnil]
      rw [bytesOf, childBytes, List.append_nil]
      rfl
    · have hempty : cs.isEmpty = false := by
        rw [List.isEmpty_eq_false_iff]
        exact hnil
      have hrecord : (recordOf (storedNode .pending (.node p f i cs)) (keyBytes sg p)).length =
          recordSize sg (.node p f i cs) := length_record .pending _
      have hpos : 0 < recordSize sg (.node p f i cs) :=
        Nat.lt_of_lt_of_le (by decide) (length_recordOf_ge _ _)
      have hlen : (d ++ recordOf (storedNode .pending (.node p f i cs)) (keyBytes sg p)).length =
          d.length + recordSize sg (.node p f i cs) := by
        rw [List.length_append, hrecord]
      have hchildren : (Recurser.processChildren sg
          (treeOf (d ++ recordOf (storedNode .pending (.node p f i cs)) (keyBytes sg p))) cs >>=
          fun (t, last) => t.updateNextNode sg last ⟨q, d.length⟩) =
          .ok (treeOf (d ++ bytesOf sg .pending (.node p f i cs))) := by
        rw [bytesOf, ← List.append_assoc]
        exact processChildren_spec hnil hcs _ hpos (by omega) (by dsimp only; omega)
      obtain ⟨⟨t', last⟩, hprocess, hupdate⟩ := bind_eq_ok hchildren
      rw [hempty]
      change (Recurser.processChildren sg (treeOf (d ++ recordOf _ (keyBytes sg p))) cs >>= _) = _
      rw [hprocess, ok_bind]
      dsimp only at hupdate ⊢
      rw [hupdate]
      rfl

/-- What is promised about the root: its pixel and the nodes below it. -/
structure StorableRoot (sg : SpatialGrid) (t : Source) : Prop where
  kind : Kind t
  pixel : t.pixelId = sg.rootPixelId
  children : ∀ c ∈ t.children, Storable sg t.pixelId c

theorem Kind.isRoot_rootNode (h : Kind t) : (rootNode t).isRoot = true := by
  rw [TreeNode.isRoot, rootNode, stored_eq]
  dsimp only
  rw [Nat.and_or_distrib_right, h.and_eq_zero (.inr (.inr rfl))]
  rfl

theorem StorableRoot.key (h : StorableRoot sg t) (q : Nat) : KeyOf sg (rootNode t) q [] := by
  refine .root h.kind.isRoot_rootNode ?_
  rw [rootNode, stored_eq]
  exact h.pixel

theorem StorableRoot.create (h : StorableRoot sg t) :
    Tree.create sg (some t) = .ok (treeOf (rootBytes sg t)) := by
  have hroot : { Recurser.convert t with flags := (Recurser.convert t).flags ||| IS_ROOT_NODE } =
      rootNode t := by
    rw [rootNode, stored_eq, convert_eq]
  have hpush := (h.key 0).push h.kind.plain_root [] (.inl ⟨h.kind.isRoot_rootNode, rfl⟩)
  rw [List.nil_append] at hpush
  have hge := length_recordOf_ge (rootNode t) []
  rw [Tree.create, Recurser.run, hroot]
  change ((treeOf []).push sg (rootNode t) >>= _) = _
  rw [hpush, ok_bind]
  dsimp only
  by_cases hnil : t.children = []
  · rw [HCQRSpatialGrid.TreeNode.isLeaf, rootBytes, hnil, childBytes, List.append_nil]
    rfl
  · have hleaf : t.isLeaf = false := by
      rw [HCQRSpatialGrid.TreeNode.isLeaf, List.isEmpty_eq_false_iff]
      exact hnil
    rw [hleaf]
    exact processChildren_spec hnil (fun c hc => ⟨h.children c hc, (h.children c hc).recWrites⟩) _
      (by omega) (Nat.le_refl _) (Nat.sub_self _).symm

end Sserialize.StaticHCQRSpatialGrid
