import Sserialize.Spatial.TreedCQRImpCopy

namespace Sserialize

open KeyedPairs

namespace TreedCQRImp

variable {sp : CellSpace} {my o src r r' : TreedCQRImp} {myCD oCD cd srcCD : CellDesc}

theorem Inv.pushPlain (h : Inv sp r) (hcd : Plain sp.idxStore.size cd) :
    Inv sp (r.pushCell cd) where
  space := h.space
  layout := by
    have happend := h.layout.append (.plain hcd (.nil _))
    rwa [List.append_nil] at happend
  small := h.small

theorem Inv.pushBlock (h : Inv sp r) {block : List FlatNode} {added : List ItemIndex}
    (hblock : Block sp.idxStore.size (r.fetchedIdx ++ added).length r.trees.length cd block) :
    Inv sp (pushCell cd { r with
      trees := r.trees ++ block, fetchedIdx := r.fetchedIdx ++ added }) where
  space := h.space
  layout := by
    have hmono : Layout sp.idxStore.size (r.fetchedIdx ++ added).length 0 r.desc r.trees :=
      h.layout.mono (by simp)
    have hblock' : Block sp.idxStore.size (r.fetchedIdx ++ added).length (0 + r.trees.length) cd
        block := by rwa [Nat.zero_add]
    have happend := hmono.append (.tree hblock' (.nil _))
    rwa [List.append_nil] at happend
  small := by
    show (r.trees ++ block).length < 2 ^ 32
    rw [List.length_append]
    exact hblock.small

theorem plain_plain (stored : Nat) (fullMatch : Bool) (cellId pmIdxId : Nat)
    (h : fullMatch = false → pmIdxId < stored) :
    Plain stored (.plain fullMatch cellId pmIdxId) where
  noTree := by
    have hsize : (CellDesc.plain fullMatch cellId pmIdxId).treeSize = 0 := by
      show sub32 notree notree = 0
      rw [sub32_of_le (Nat.le_refl _) (by decide), Nat.sub_self]
    rw [CellDesc.hasTree, hsize]
    rfl
  stored := h

theorem noTree_of_full (h : Inv sp src) (hcd : cd ∈ src.desc) (hfull : cd.fullMatch = true) :
    cd.hasTree = false := by
  by_contra htree
  obtain ⟨_, _, _, -, hblock⟩ := h.layout.block_of_mem hcd (by simpa using htree)
  rw [hblock.notFull] at hfull
  cases hfull

theorem pushTree_inv (hsrc : Inv sp src) (hcd : srcCD ∈ src.desc) (htree : srcCD.hasTree = true)
    (hfull : cd.fullMatch = false)
    (hfetched : srcCD.hasFetchedNode = true → cd.hasFetchedNode = true) (hr : Inv sp r)
    (h : pushTree src srcCD cd r = .ok r') (hsmall : r'.trees.length < 2 ^ 32) : Inv sp r' := by
  obtain ⟨r₁, hcopy, h⟩ := bind_eq_ok h
  cases h
  obtain ⟨block, added, hcopied, -⟩ := copyTree_spec hsrc hcd htree hr.small hcopy
  obtain rfl := hcopied.eq
  have hlength : (r.trees ++ block).length < 2 ^ 32 := hsmall
  refine hr.pushBlock ?_
  refine ⟨hcopied.tree, hcopied.valid, fun id hid => hfetched (hcopied.hasFetchedNode id hid).2,
    hfull, u32_of_lt hr.small, ?_, ?_⟩
  · show u32 (r.trees ++ block).length = r.trees.length + block.length
    rw [u32_of_lt hlength, List.length_append]
  · rwa [List.length_append] at hlength

theorem copyCell_inv (hsrc : Inv sp src) (hcd : cd ∈ src.desc) (hr : Inv sp r)
    (h : copyCell src cd r = .ok r') (hsmall : r'.trees.length < 2 ^ 32) : Inv sp r' := by
  rw [copyCell] at h
  split at h
  next htree =>
    obtain ⟨_, _, _, -, hblock⟩ := hsrc.layout.block_of_mem hcd htree
    exact pushTree_inv hsrc hcd htree hblock.notFull (fun hf => hf) hr h hsmall
  next htree =>
    cases h
    exact hr.pushPlain (hsrc.layout.plain_of_mem hcd (by simpa using htree))

theorem pushOp_inv {type : OpType} {hasFetchedNode : Bool} (hmy : Inv sp my) (ho : Inv sp o)
    (hmyCD : myCD ∈ my.desc) (hoCD : oCD ∈ o.desc)
    (hmyFetched : myCD.hasTree = true → myCD.hasFetchedNode = true → hasFetchedNode = true)
    (hoFetched : oCD.hasTree = true → oCD.hasFetchedNode = true → hasFetchedNode = true)
    (hr : Inv sp r) (h : pushOp type my o myCD oCD hasFetchedNode r = .ok r')
    (hsmall : r'.trees.length < 2 ^ 32) : Inv sp r' := by
  obtain ⟨r₂, hfirst, h⟩ := bind_eq_ok h
  obtain ⟨r₃, hsecond, h⟩ := bind_eq_ok h
  cases h
  have hsmall₃ : r₃.trees.length < 2 ^ 32 := hsmall
  have hle₂ := (operand_grows hfirst).trees
  have hle₃ := (operand_grows hsecond).trees
  obtain ⟨a, addedA, hcopiedA, hlengthA⟩ := operand_spec hmy hmyCD (by omega) hfirst
  obtain rfl := hcopiedA.eq
  obtain ⟨b, addedB, hcopiedB, -⟩ := operand_spec ho hoCD (by omega) hsecond
  obtain rfl := hcopiedB.eq
  have hlength : r.trees.length + (1 + a.length + b.length) < 2 ^ 32 := by
    simp only [List.length_append, List.length_singleton] at hsmall₃
    omega
  have hchildB : (if myCD.hasTree then u32 (1 + myCD.treeSize) else 2) = 1 + a.length := by
    split
    next htree =>
      rw [if_pos htree] at hlengthA
      rw [← hlengthA, u32_of_lt (by omega)]
    next htree =>
      rw [if_neg htree] at hlengthA
      omega
  have hblock : Block sp.idxStore.size (r.fetchedIdx ++ (addedA ++ addedB)).length r.trees.length
      ⟨false, hasFetchedNode, myCD.cellId, 0, u32 r.trees.length,
        u32 (r.trees.length + (1 + a.length + b.length))⟩
      (.opNode type (1 + a.length) :: (a ++ b)) := by
    refine ⟨.opNode type hcopiedA.tree hcopiedB.tree, ?_, ?_, rfl, u32_of_lt hr.small, ?_, ?_⟩
    · refine List.forall_mem_cons.mpr ⟨trivial, fun n hn => ?_⟩
      rw [← List.append_assoc]
      rcases List.mem_append.mp hn with hn | hn
      · exact (hcopiedA.valid n hn).mono (by simp)
      · exact hcopiedB.valid n hn
    · intro id hid
      rcases List.mem_cons.mp hid with heq | hid
      · cases heq
      · rcases List.mem_append.mp hid with hid | hid
        · exact hmyFetched (hcopiedA.hasFetchedNode id hid).1 (hcopiedA.hasFetchedNode id hid).2
        · exact hoFetched (hcopiedB.hasFetchedNode id hid).1 (hcopiedB.hasFetchedNode id hid).2
    · rw [List.length_cons, List.length_append]
      dsimp only
      rw [u32_of_lt hlength]
      omega
    · rw [List.length_cons, List.length_append]
      omega
  have hpush := hr.pushBlock hblock
  have htrees : r.trees ++ [.opNode type (1 + a.length)] ++ a ++ b =
      r.trees ++ .opNode type (1 + a.length) :: (a ++ b) := by simp
  have hend : (r.trees ++ .opNode type (1 + a.length) :: (a ++ b)).length =
      r.trees.length + (1 + a.length + b.length) := by
    simp only [List.length_append, List.length_cons]
    omega
  rw [hchildB]
  simp only [htrees, hend]
  rwa [← List.append_assoc] at hpush

structure CellStep (sp : CellSpace) (my o : TreedCQRImp)
    (cell : CellDesc → CellDesc → TreedCQRImp → Except Fault TreedCQRImp) : Prop where
  grows : ∀ {myCD oCD r r'}, myCD.cellId = oCD.cellId → cell myCD oCD r = .ok r' →
    Grows myCD.cellId r r'
  inv : ∀ {myCD oCD r r'}, myCD ∈ my.desc → oCD ∈ o.desc → Inv sp r →
    cell myCD oCD r = .ok r' → r'.trees.length < 2 ^ 32 → Inv sp r'

theorem grows_pushCell (cd : CellDesc) (r : TreedCQRImp) : Grows cd.cellId r (r.pushCell cd) :=
  GrowsTrees.push ⟨rfl, Nat.le_refl _, rfl⟩ cd

theorem grows_self (cellId : Nat) (r : TreedCQRImp) : Grows cellId r r :=
  ⟨rfl, Nat.le_refl _, .inl rfl⟩

theorem intersectCell_step (hmy : Inv sp my) (ho : Inv sp o) :
    CellStep sp my o (intersectCell my o) where
  grows := by
    intro myCD oCD r r' hid h
    unfold intersectCell at h
    split at h
    next =>
      split at h
      next => exact pushOp_grows h
      next =>
        cases h
        rw [hid]
        exact grows_pushCell oCD r
      next =>
        cases h
        exact grows_pushCell myCD r
      next =>
        cases h
        exact grows_pushCell (.plain true myCD.cellId 0) r
    next =>
      dsimp only at h
      split at h
      next =>
        have hgrows := pushTree_grows h
        exact hgrows
      next =>
        split at h
        next =>
          have hgrows := pushTree_grows h
          rwa [hid]
        next => exact pushOp_grows h
  inv := by
    intro myCD oCD r r' hmyCD hoCD hr h hsmall
    unfold intersectCell at h
    split at h
    next hnone =>
      obtain ⟨hmyNone, hoNone⟩ : myCD.hasTree = false ∧ oCD.hasTree = false := by
        simpa using hnone
      split at h
      next =>
        refine pushOp_inv hmy ho hmyCD hoCD ?_ ?_ hr h hsmall
        · intro htree
          rw [hmyNone] at htree
          cases htree
        · intro htree
          rw [hoNone] at htree
          cases htree
      next =>
        cases h
        exact hr.pushPlain (ho.layout.plain_of_mem hoCD hoNone)
      next =>
        cases h
        exact hr.pushPlain (hmy.layout.plain_of_mem hmyCD hmyNone)
      next =>
        cases h
        exact hr.pushPlain (plain_plain _ _ _ _ (by simp))
    next hsome =>
      split at h
      next hfull =>
        have hoTree : oCD.hasTree = true := by
          have hnone := noTree_of_full hmy hmyCD hfull
          simpa [hnone] using hsome
        exact pushTree_inv ho hoCD hoTree rfl (fun hf => by simp [hf]) hr h hsmall
      next =>
        split at h
        next hfull =>
          have hmyTree : myCD.hasTree = true := by
            have hnone := noTree_of_full ho hoCD hfull
            simpa [hnone] using hsome
          exact pushTree_inv hmy hmyCD hmyTree rfl (fun hf => by simp [hf]) hr h hsmall
        next =>
          exact pushOp_inv hmy ho hmyCD hoCD (fun _ hf => by simp [hf]) (fun _ hf => by simp [hf])
            hr h hsmall

theorem uniteCell_step (hmy : Inv sp my) (ho : Inv sp o) :
    CellStep sp my o (uniteCell my o) where
  grows := by
    intro myCD oCD r r' _ h
    unfold uniteCell at h
    split at h
    next =>
      cases h
      exact grows_pushCell (.plain true myCD.cellId 0) r
    next => exact pushOp_grows h
  inv := by
    intro myCD oCD r r' hmyCD hoCD hr h hsmall
    unfold uniteCell at h
    split at h
    next =>
      cases h
      exact hr.pushPlain (plain_plain _ _ _ _ (by simp))
    next =>
      exact pushOp_inv hmy ho hmyCD hoCD (fun _ hf => by simp [hf]) (fun _ hf => by simp [hf])
        hr h hsmall

theorem diffCell_step (hmy : Inv sp my) (ho : Inv sp o) : CellStep sp my o (diffCell my o) where
  grows := by
    intro myCD oCD r r' _ h
    unfold diffCell at h
    split at h
    next => exact pushOp_grows h
    next =>
      cases h
      exact grows_self _ r
  inv := by
    intro myCD oCD r r' hmyCD hoCD hr h hsmall
    unfold diffCell at h
    split at h
    next =>
      exact pushOp_inv hmy ho hmyCD hoCD (fun _ hf => by simp [hf]) (fun _ hf => by simp [hf])
        hr h hsmall
    next =>
      cases h
      exact hr

theorem symDiffCell_step (hmy : Inv sp my) (ho : Inv sp o) :
    CellStep sp my o (symDiffCell my o) where
  grows := by
    intro myCD oCD r r' _ h
    unfold symDiffCell at h
    split at h
    next => exact pushOp_grows h
    next =>
      cases h
      exact grows_self _ r
  inv := by
    intro myCD oCD r r' hmyCD hoCD hr h hsmall
    unfold symDiffCell at h
    split at h
    next =>
      exact pushOp_inv hmy ho hmyCD hoCD (fun _ hf => by simp [hf]) (fun _ hf => by simp [hf])
        hr h hsmall
    next =>
      cases h
      exact hr

end TreedCQRImp

end Sserialize
