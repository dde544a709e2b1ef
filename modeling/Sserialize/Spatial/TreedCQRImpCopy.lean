import Sserialize.Spatial.TreedCQRImpLayout

namespace Sserialize.TreedCQRImp

theorem slice_eq {trees front block back : List FlatNode} {first last : Nat}
    (htrees : trees = front ++ block ++ back) (hfirst : first = front.length)
    (hlast : last = front.length + block.length) : slice trees first last = .ok block := by
  subst htrees hfirst hlast
  rw [slice, if_pos ⟨Nat.le_add_right _ _, by simp⟩, List.append_assoc, List.take_append,
    List.take_of_length_le (Nat.le_add_right _ _), Nat.add_sub_cancel_left, List.drop_left,
    List.take_left]

theorem copyIndices_spec {stored : Nat} {src : List ItemIndex} {nodes : List FlatNode}
    (h : ∀ n ∈ nodes, n.Valid stored src.length) (dest : List ItemIndex) :
    ∃ nodes' added, copyIndices src dest nodes = .ok (nodes', dest ++ added) ∧
      nodes'.map FlatNode.shape = nodes.map FlatNode.shape ∧
      ∀ n ∈ nodes', n.Valid stored (dest.length + added.length) := by
  induction nodes generalizing dest with
  | nil => exact ⟨[], [], by rw [copyIndices, List.append_nil], rfl, by simp⟩
  | cons n nodes ih =>
    obtain ⟨hn, hnodes⟩ := List.forall_mem_cons.mp h
    by_cases hfetched : ∃ id, n = .fetchedLeaf id
    · obtain ⟨id, rfl⟩ := hfetched
      have hid : id < src.length := hn
      obtain ⟨nodes', added, hcopy, hshape, hvalid⟩ := ih hnodes (dest ++ [src[id]])
      refine ⟨.fetchedLeaf dest.length :: nodes', src[id] :: added, ?_, ?_, ?_⟩
      · simp only [copyIndices, List.getElem?_eq_getElem hid, hcopy, ok_bind, except_pure,
          List.append_assoc, List.singleton_append]
      · rw [List.map_cons, List.map_cons, hshape]
        rfl
      · refine List.forall_mem_cons.mpr ⟨?_, fun m hm => (hvalid m hm).mono ?_⟩
        · show dest.length < dest.length + (src[id] :: added).length
          simp
        · simp only [List.length_append, List.length_cons, List.length_nil]
          omega
    · have hne : ∀ id, n ≠ .fetchedLeaf id := fun id heq => hfetched ⟨id, heq⟩
      obtain ⟨nodes', added, hcopy, hshape, hvalid⟩ := ih hnodes dest
      refine ⟨n :: nodes', added, ?_, ?_, ?_⟩
      · rw [copyIndices.eq_3 _ _ _ _ hne, hcopy]
        rfl
      · rw [List.map_cons, List.map_cons, hshape]
      · refine List.forall_mem_cons.mpr ⟨?_, hvalid⟩
        cases n with
        | fetchedLeaf id => exact absurd rfl (hne id)
        | _ => exact hn

theorem length_copyIndices {src dest dest' : List ItemIndex} {nodes nodes' : List FlatNode}
    (h : copyIndices src dest nodes = .ok (nodes', dest')) : nodes'.length = nodes.length := by
  induction nodes generalizing dest nodes' with
  | nil =>
    rw [copyIndices] at h
    cases h
    rfl
  | cons n nodes ih =>
    by_cases hfetched : ∃ id, n = .fetchedLeaf id
    · obtain ⟨id, rfl⟩ := hfetched
      rw [copyIndices] at h
      split at h
      next => cases h
      next idx _ =>
        obtain ⟨⟨us, dest₂⟩, hus, heq⟩ := bind_eq_ok h
        cases heq
        rw [List.length_cons, List.length_cons, ih hus]
    · rw [copyIndices.eq_3 _ _ _ _ fun id heq => hfetched ⟨id, heq⟩] at h
      obtain ⟨⟨us, dest₂⟩, hus, heq⟩ := bind_eq_ok h
      cases heq
      rw [List.length_cons, List.length_cons, ih hus]

/-- A step of an operator adds nodes, and at most one cell, which has this id. -/
structure Grows (cellId : Nat) (r r' : TreedCQRImp) : Prop where
  space : r'.space = r.space
  trees : r.trees.length ≤ r'.trees.length
  desc : r'.desc = r.desc ∨ ∃ cd : CellDesc, r'.desc = r.desc ++ [cd] ∧ cd.cellId = cellId

structure GrowsTrees (r r' : TreedCQRImp) : Prop where
  space : r'.space = r.space
  trees : r.trees.length ≤ r'.trees.length
  desc : r'.desc = r.desc

theorem GrowsTrees.trans {r r' r'' : TreedCQRImp} (h : GrowsTrees r r') (h' : GrowsTrees r' r'') :
    GrowsTrees r r'' where
  space := h'.space.trans h.space
  trees := Nat.le_trans h.trees h'.trees
  desc := h'.desc.trans h.desc

theorem GrowsTrees.push {r r' : TreedCQRImp} (h : GrowsTrees r r') (cd : CellDesc) :
    Grows cd.cellId r (r'.pushCell cd) where
  space := h.space
  trees := h.trees
  desc := Or.inr ⟨cd, by rw [← h.desc]; rfl, rfl⟩

theorem growsTrees_append (r : TreedCQRImp) (nodes : List FlatNode) :
    GrowsTrees r { r with trees := r.trees ++ nodes } where
  space := rfl
  trees := by simp
  desc := rfl

variable {src dest r r' : TreedCQRImp} {cd srcCD : CellDesc}

theorem copyTree_grows (h : copyTree src cd dest = .ok r') : GrowsTrees dest r' := by
  obtain ⟨tree, -, h⟩ := bind_eq_ok h
  split at h
  next =>
    obtain ⟨⟨nodes, fetchedIdx⟩, hnodes, h⟩ := bind_eq_ok h
    cases h
    have hlength := length_copyIndices hnodes
    refine ⟨rfl, ?_, rfl⟩
    simp only [List.length_append, List.length_take, List.length_drop] at hlength ⊢
    omega
  next =>
    cases h
    exact growsTrees_append _ _

theorem operand_grows (h : operand src cd dest = .ok r') : GrowsTrees dest r' := by
  rw [operand] at h
  split at h
  next => exact copyTree_grows h
  next =>
    cases h
    exact growsTrees_append _ _

theorem pushTree_grows (h : pushTree src srcCD cd r = .ok r') : Grows cd.cellId r r' := by
  obtain ⟨r₁, hcopy, h⟩ := bind_eq_ok h
  cases h
  exact (copyTree_grows hcopy).push { cd with
    treeBegin := u32 r.trees.length, treeEnd := u32 r₁.trees.length }

theorem copyCell_grows (h : copyCell src cd r = .ok r') : Grows cd.cellId r r' := by
  rw [copyCell] at h
  split at h
  next => exact pushTree_grows h
  next =>
    cases h
    exact GrowsTrees.push ⟨rfl, Nat.le_refl _, rfl⟩ cd

theorem pushOp_grows {type : OpType} {my o : TreedCQRImp} {myCD oCD : CellDesc}
    {hasFetchedNode : Bool} (h : pushOp type my o myCD oCD hasFetchedNode r = .ok r') :
    Grows myCD.cellId r r' := by
  obtain ⟨r₂, hmy, h⟩ := bind_eq_ok h
  obtain ⟨r₃, ho, h⟩ := bind_eq_ok h
  cases h
  have hgrows := (growsTrees_append r _).trans ((operand_grows hmy).trans (operand_grows ho))
  exact hgrows.push
    ⟨false, hasFetchedNode, myCD.cellId, 0, u32 r.trees.length, u32 r₃.trees.length⟩

structure Inv (sp : CellSpace) (r : TreedCQRImp) : Prop where
  space : r.space = sp
  layout : Layout sp.idxStore.size r.fetchedIdx.length 0 r.desc r.trees
  small : r.trees.length < 2 ^ 32

structure Copied (sp : CellSpace) (src : TreedCQRImp) (cd : CellDesc) (dest r' : TreedCQRImp)
    (block : List FlatNode) (added : List ItemIndex) : Prop where
  eq : r' = { dest with
    trees := dest.trees ++ block, fetchedIdx := dest.fetchedIdx ++ added }
  tree : IsTree block
  valid : ∀ n ∈ block, n.Valid sp.idxStore.size (dest.fetchedIdx ++ added).length
  hasFetchedNode : ∀ id, .fetchedLeaf id ∈ block →
    cd.hasTree = true ∧ cd.hasFetchedNode = true

variable {sp : CellSpace}

theorem copyTree_spec (hsrc : Inv sp src) (hcd : cd ∈ src.desc) (htree : cd.hasTree = true)
    (hdest : dest.trees.length < 2 ^ 32) (h : copyTree src cd dest = .ok r') :
    ∃ block added, Copied sp src cd dest r' block added ∧ block.length = cd.treeSize := by
  obtain ⟨front, block, back, htrees, hblock⟩ := hsrc.layout.block_of_mem hcd htree
  rw [Nat.zero_add] at hblock
  have hslice : slice src.trees cd.treeBegin cd.treeEnd = .ok block :=
    slice_eq htrees hblock.treeBegin hblock.treeEnd
  rw [copyTree, hslice, ok_bind, u32_of_lt hdest] at h
  cases hfetched : cd.hasFetchedNode with
  | true =>
    obtain ⟨nodes, added, hcopy, hshape, hvalid⟩ :=
      copyIndices_spec hblock.valid dest.fetchedIdx
    simp only [hfetched, if_true, List.drop_left, List.take_left, hcopy, ok_bind,
      except_pure] at h
    cases h
    refine ⟨nodes, added, ⟨rfl, hblock.tree.of_shape hshape, ?_,
      fun _ _ => ⟨htree, hfetched⟩⟩, ?_⟩
    · rwa [List.length_append]
    · rw [hblock.treeSize]
      simpa using congrArg List.length hshape
  | false =>
    simp only [hfetched, Bool.false_eq_true, if_false, except_pure] at h
    cases h
    have hnone : ∀ id, .fetchedLeaf id ∉ block := by
      intro id hid
      have htrue := hblock.hasFetchedNode id hid
      rw [hfetched] at htrue
      cases htrue
    refine ⟨block, [], ⟨by simp, hblock.tree, fun n hn => ?_, ?_⟩, hblock.treeSize.symm⟩
    · have hn' := hblock.valid n hn
      cases n with
      | fetchedLeaf id => exact absurd hn (hnone id)
      | _ => exact hn'
    · exact fun id hid => absurd hid (hnone id)

theorem operand_spec (hsrc : Inv sp src) (hcd : cd ∈ src.desc)
    (hdest : dest.trees.length < 2 ^ 32) (h : operand src cd dest = .ok r') :
    ∃ block added, Copied sp src cd dest r' block added ∧
      block.length = if cd.hasTree then cd.treeSize else 1 := by
  rw [operand] at h
  split at h
  next htree =>
    rw [if_pos htree]
    exact copyTree_spec hsrc hcd htree hdest h
  next htree =>
    have hplain := hsrc.layout.plain_of_mem hcd (by simpa using htree)
    cases h
    rw [if_neg htree]
    refine ⟨[cd.leaf], [], ⟨by simp, .leaf ?_, ?_, ?_⟩, rfl⟩
    · unfold CellDesc.leaf
      split <;> rfl
    · intro n hn
      obtain rfl := List.mem_singleton.mp hn
      unfold CellDesc.leaf
      split
      next => trivial
      next hfull => exact hplain.stored (by simpa using hfull)
    · intro id hid
      have heq := List.mem_singleton.mp hid
      unfold CellDesc.leaf at heq
      split at heq <;> cases heq

end Sserialize.TreedCQRImp
