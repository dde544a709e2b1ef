import Sserialize.Spatial.TreedCQRImpSteps
import Sserialize.Spatial.CellQueryResultDiff

namespace Sserialize

open KeyedPairs

namespace TreedCQRImp

variable {sp : CellSpace} {my o src r r' : TreedCQRImp}

theorem sorted_of_map_eq {xs ys : List CellDesc} (h : Sorted CellDesc.cellId xs)
    (hmap : ys.map CellDesc.cellId = xs.map CellDesc.cellId) : Sorted CellDesc.cellId ys :=
  List.pairwise_map.mp (hmap ▸ List.pairwise_map.mpr h)

theorem Grows.sorted {x : CellDesc} {xs ys : List CellDesc} (h : Grows x.cellId r r')
    (hxs : Sorted CellDesc.cellId (r.desc ++ x :: xs))
    (hys : Sorted CellDesc.cellId (r.desc ++ ys)) (hlt : ∀ y ∈ ys, x.cellId < y.cellId) :
    Sorted CellDesc.cellId (r'.desc ++ xs) ∧ Sorted CellDesc.cellId (r'.desc ++ ys) := by
  rcases h.desc with hdesc | ⟨cd, hdesc, hid⟩
  · rw [hdesc]
    exact ⟨List.Pairwise.sublist (List.Sublist.append_left (List.sublist_cons_self x xs) _) hxs,
      hys⟩
  · rw [hdesc]
    refine ⟨sorted_of_map_eq hxs (by simp [hid]), ?_⟩
    obtain ⟨hdone, hys', hbefore⟩ := List.pairwise_append.mp hys
    obtain ⟨-, -, hbeforeX⟩ := List.pairwise_append.mp hxs
    have hpush : Sorted CellDesc.cellId (r.desc ++ [cd]) := by
      refine List.pairwise_append.mpr ⟨hdone, List.pairwise_singleton _ _, fun c hc d hd => ?_⟩
      obtain rfl := List.mem_singleton.mp hd
      rw [hid]
      exact hbeforeX c hc x (by simp)
    refine List.pairwise_append.mpr ⟨hpush, hys', fun c hc y hy => ?_⟩
    rcases List.mem_append.mp hc with hc | hc
    · exact hbefore c hc y hy
    · obtain rfl := List.mem_singleton.mp hc
      rw [hid]
      exact hlt y hy

structure WalkSpec (sp : CellSpace) (myDesc oDesc : List CellDesc) (r : TreedCQRImp)
    (r' : TreedCQRImp) (myDesc' oDesc' : List CellDesc) : Prop where
  space : r'.space = r.space
  trees : r.trees.length ≤ r'.trees.length
  inv : Inv sp r → r'.trees.length < 2 ^ 32 → Inv sp r'
  my : myDesc' <:+ myDesc
  o : oDesc' <:+ oDesc
  done : myDesc' = [] ∨ oDesc' = []
  sorted : Sorted CellDesc.cellId (r.desc ++ myDesc) → Sorted CellDesc.cellId (r.desc ++ oDesc) →
    Sorted CellDesc.cellId (r'.desc ++ myDesc') ∧ Sorted CellDesc.cellId (r'.desc ++ oDesc')

theorem WalkSpec.round {cellId : Nat} {myDesc oDesc myDesc' oDesc' myDesc'' oDesc'' : List CellDesc}
    {r₁ : TreedCQRImp} (hgrows : Grows cellId r r₁)
    (hinv : Inv sp r → r₁.trees.length < 2 ^ 32 → Inv sp r₁)
    (hmy : myDesc' <:+ myDesc) (ho : oDesc' <:+ oDesc)
    (hsorted : Sorted CellDesc.cellId (r.desc ++ myDesc) →
      Sorted CellDesc.cellId (r.desc ++ oDesc) →
      Sorted CellDesc.cellId (r₁.desc ++ myDesc') ∧ Sorted CellDesc.cellId (r₁.desc ++ oDesc'))
    (h : WalkSpec sp myDesc' oDesc' r₁ r' myDesc'' oDesc'') :
    WalkSpec sp myDesc oDesc r r' myDesc'' oDesc'' where
  space := h.space.trans hgrows.space
  trees := Nat.le_trans hgrows.trees h.trees
  inv hr hsmall := h.inv (hinv hr (Nat.lt_of_le_of_lt h.trees hsmall)) hsmall
  my := h.my.trans hmy
  o := h.o.trans ho
  done := h.done
  sorted hm hs :=
    have hnext := hsorted hm hs
    h.sorted hnext.1 hnext.2

variable {cd : CellDesc}

theorem keep_grows {keep : Bool} (h : (if keep then copyCell src cd r else .ok r) = .ok r') :
    Grows cd.cellId r r' := by
  cases keep with
  | true => exact copyCell_grows h
  | false =>
    cases h
    exact grows_self _ r

theorem keep_inv {keep : Bool} (hsrc : Inv sp src) (hcd : cd ∈ src.desc)
    (h : (if keep then copyCell src cd r else .ok r) = .ok r') (hr : Inv sp r)
    (hsmall : r'.trees.length < 2 ^ 32) : Inv sp r' := by
  cases keep with
  | true => exact copyCell_inv hsrc hcd hr h hsmall
  | false =>
    cases h
    exact hr

theorem lt_of_sorted {x : CellDesc} {desc xs : List CellDesc}
    (h : Sorted CellDesc.cellId (desc ++ x :: xs)) : ∀ y ∈ xs, x.cellId < y.cellId :=
  (List.pairwise_cons.mp (List.pairwise_append.mp h).2.1).1

theorem walk_eq (keepMy keepO : Bool) (my o : TreedCQRImp)
    (cell : CellDesc → CellDesc → TreedCQRImp → Except Fault TreedCQRImp) (myCD oCD : CellDesc)
    (myDesc oDesc : List CellDesc) (r : TreedCQRImp) :
    walk keepMy keepO my o cell (myCD :: myDesc) (oCD :: oDesc) r =
      if myCD.cellId < oCD.cellId then
        (if keepMy then copyCell my myCD r else .ok r) >>=
          walk keepMy keepO my o cell myDesc (oCD :: oDesc)
      else if oCD.cellId < myCD.cellId then
        (if keepO then copyCell o oCD r else .ok r) >>=
          walk keepMy keepO my o cell (myCD :: myDesc) oDesc
      else cell myCD oCD r >>= walk keepMy keepO my o cell myDesc oDesc := by
  rw [walk]
  cases keepMy <;> cases keepO <;> rfl

theorem walk_spec {keepMy keepO : Bool}
    {cell : CellDesc → CellDesc → TreedCQRImp → Except Fault TreedCQRImp} (hmy : Inv sp my)
    (ho : Inv sp o) (hcell : CellStep sp my o cell) {myDesc oDesc myDesc' oDesc' : List CellDesc}
    (hmyDesc : ∀ cd ∈ myDesc, cd ∈ my.desc) (hoDesc : ∀ cd ∈ oDesc, cd ∈ o.desc)
    (h : walk keepMy keepO my o cell myDesc oDesc r = .ok (r', myDesc', oDesc')) :
    WalkSpec sp myDesc oDesc r r' myDesc' oDesc' := by
  have hskip : ∀ (cd : CellDesc) (desc : List CellDesc), desc <:+ cd :: desc :=
    fun cd desc => ⟨[cd], rfl⟩
  generalize hn : myDesc.length + oDesc.length = n
  induction n using Nat.strong_induction_on generalizing myDesc oDesc r with
  | _ n ih =>
    match myDesc, oDesc with
    | [], oDesc =>
      rw [walk] at h
      cases h
      exact ⟨rfl, Nat.le_refl _, fun hr _ => hr, List.suffix_rfl, List.suffix_rfl, .inl rfl,
        fun hm hs => ⟨hm, hs⟩⟩
    | myCD :: myDesc, [] =>
      rw [walk] at h
      cases h
      exact ⟨rfl, Nat.le_refl _, fun hr _ => hr, List.suffix_rfl, List.suffix_rfl, .inr rfl,
        fun hm hs => ⟨hm, hs⟩⟩
    | myCD :: myDesc, oCD :: oDesc =>
      obtain ⟨hmyCD, hmyDesc'⟩ := List.forall_mem_cons.mp hmyDesc
      obtain ⟨hoCD, hoDesc'⟩ := List.forall_mem_cons.mp hoDesc
      simp only [List.length_cons] at hn
      rw [walk_eq] at h
      split at h
      next hlt =>
        obtain ⟨r₁, hkeep, h⟩ := bind_eq_ok h
        refine WalkSpec.round (keep_grows hkeep) (keep_inv hmy hmyCD hkeep) (hskip _ _)
          List.suffix_rfl (fun hm hs => ?_) (ih _ (by simp only [List.length_cons]; omega)
            hmyDesc' hoDesc h rfl)
        refine (keep_grows hkeep).sorted hm hs (List.forall_mem_cons.mpr ⟨hlt, fun y hy => ?_⟩)
        exact lt_trans hlt (lt_of_sorted hs y hy)
      next hnlt =>
        split at h
        next hlt =>
          obtain ⟨r₁, hkeep, h⟩ := bind_eq_ok h
          refine WalkSpec.round (keep_grows hkeep) (keep_inv ho hoCD hkeep) List.suffix_rfl
            (hskip _ _) (fun hm hs => ?_) (ih _ (by simp only [List.length_cons]; omega)
              hmyDesc hoDesc' h rfl)
          refine ((keep_grows hkeep).sorted hs hm
            (List.forall_mem_cons.mpr ⟨hlt, fun y hy => ?_⟩)).symm
          exact lt_trans hlt (lt_of_sorted hm y hy)
        next hnlt' =>
          have hid : myCD.cellId = oCD.cellId := by omega
          obtain ⟨r₁, hboth, h⟩ := bind_eq_ok h
          refine WalkSpec.round (hcell.grows hid hboth)
            (fun hr => hcell.inv hmyCD hoCD hr hboth) (hskip _ _) (hskip _ _) (fun hm hs => ?_)
            (ih _ (by omega) hmyDesc' hoDesc' h rfl)
          have hs' : Sorted CellDesc.cellId (r.desc ++ oDesc) :=
            List.Pairwise.sublist (List.Sublist.append_left (List.sublist_cons_self _ _) _) hs
          exact (hcell.grows hid hboth).sorted hm hs' (by rw [hid]; exact lt_of_sorted hs)

theorem length_slice {trees block : List FlatNode} {first last : Nat}
    (h : slice trees first last = .ok block) :
    first + block.length = last ∧ last ≤ trees.length := by
  rw [slice] at h
  split at h
  next hle =>
    cases h
    rw [List.length_drop, List.length_take]
    omega
  next => cases h

theorem copyFetchedIndices_grows {dest : TreedCQRImp}
    (h : copyFetchedIndices src dest cd = .ok r') :
    r'.space = dest.space ∧ r'.desc = dest.desc ∧ r'.trees.length = dest.trees.length := by
  unfold copyFetchedIndices at h
  split at h
  next =>
    cases h
    exact ⟨rfl, rfl, rfl⟩
  next =>
    obtain ⟨tree, hslice, h⟩ := bind_eq_ok h
    obtain ⟨⟨nodes, fetchedIdx⟩, hcopy, h⟩ := bind_eq_ok h
    cases h
    obtain ⟨hlength, hle⟩ := length_slice hslice
    have hnodes := length_copyIndices hcopy
    refine ⟨rfl, rfl, ?_⟩
    simp only [List.length_append, List.length_take, List.length_drop]
    omega

variable {desc : List CellDesc}

theorem adjustCells_grows {lastTreeBegin rTreesBegin : Nat}
    (h : adjustCells src lastTreeBegin rTreesBegin desc r = .ok r') :
    r'.space = r.space ∧
      r'.desc.map CellDesc.cellId = (r.desc ++ desc).map CellDesc.cellId ∧
      r'.trees.length = r.trees.length := by
  induction desc generalizing r with
  | nil =>
    rw [adjustCells] at h
    cases h
    exact ⟨rfl, by simp, rfl⟩
  | cons cd desc ih =>
    rw [adjustCells] at h
    split at h
    next =>
      obtain ⟨r₁, hcopy, h⟩ := bind_eq_ok h
      obtain ⟨hspace, hdesc, htrees⟩ := copyFetchedIndices_grows hcopy
      obtain ⟨hspace', hdesc', htrees'⟩ := ih h
      refine ⟨hspace'.trans hspace, ?_, htrees'.trans htrees⟩
      rw [hdesc']
      simp [pushCell, hdesc]
    next =>
      obtain ⟨hspace, hdesc, htrees⟩ := ih h
      refine ⟨hspace, ?_, htrees⟩
      rw [hdesc]
      simp [pushCell]

theorem movePos_eq {lastTreeBegin rTreesBegin pos pos' : Nat}
    (h : pos + rTreesBegin = pos' + lastTreeBegin) (hpos' : pos' < 2 ^ 32) :
    movePos lastTreeBegin rTreesBegin pos = pos' := by
  have hmove : (pos : Int) - ((lastTreeBegin : Int) - rTreesBegin) = pos' := by omega
  rw [movePos, hmove]
  omega

theorem copyFetchedIndices_spec {stored pos : Nat} {dest : TreedCQRImp} {cd cd' : CellDesc}
    {front block back : List FlatNode} (hblock : Block stored src.fetchedIdx.length pos cd block)
    (h : copyFetchedIndices src dest cd' = .ok r')
    (htrees : dest.trees = front ++ block ++ back) (hsmall : dest.trees.length < 2 ^ 32)
    (hfetched : cd'.hasFetchedNode = cd.hasFetchedNode) (hfull : cd'.fullMatch = cd.fullMatch)
    (hbegin : cd'.treeBegin = front.length) (hend : cd'.treeEnd = front.length + block.length) :
    ∃ nodes added, r' = { dest with
        trees := front ++ nodes ++ back, fetchedIdx := dest.fetchedIdx ++ added } ∧
      Block stored r'.fetchedIdx.length front.length cd' nodes := by
  have hlength : front.length + block.length < 2 ^ 32 := by
    rw [htrees, List.length_append, List.length_append] at hsmall
    omega
  unfold copyFetchedIndices at h
  split at h
  next hnone =>
    cases h
    have hnone' : cd.hasFetchedNode = false := by simpa [hfetched] using hnone
    have hleaf : ∀ id, .fetchedLeaf id ∉ block := by
      intro id hid
      have htrue := hblock.hasFetchedNode id hid
      rw [hnone'] at htrue
      cases htrue
    refine ⟨block, [], by rw [← htrees, List.append_nil], hblock.tree, fun n hn => ?_,
      fun id hid => absurd hid (hleaf id), hfull.trans hblock.notFull, hbegin, hend, hlength⟩
    have hn' := hblock.valid n hn
    cases n with
    | fetchedLeaf id => exact absurd hn (hleaf id)
    | _ => exact hn'
  next hsome =>
    have hsome' : cd'.hasFetchedNode = true := by simpa using hsome
    rw [slice_eq htrees hbegin hend, ok_bind] at h
    obtain ⟨nodes, added, hcopy, hshape, hvalid⟩ := copyIndices_spec hblock.valid dest.fetchedIdx
    have hnodes : nodes.length = block.length := by simpa using congrArg List.length hshape
    rw [hcopy] at h
    cases h
    refine ⟨nodes, added, ?_, ?_⟩
    · have hfront : dest.trees.take cd'.treeBegin = front := by
        rw [htrees, hbegin, List.append_assoc, List.take_left]
      have hback : dest.trees.drop cd'.treeEnd = back := by
        rw [htrees, hend, ← List.length_append, List.drop_left]
      rw [hfront, hback]
    · refine ⟨hblock.tree.of_shape hshape, ?_, fun _ _ => hsome', hfull.trans hblock.notFull,
        hbegin, by rw [hend, hnodes], by rw [hnodes]; exact hlength⟩
      rwa [List.length_append]

/-- The loop over the moved cells: the nodes of the cells in front are those of the result, the
other nodes are still those of the source. -/
theorem adjustCells_spec {stored lastTreeBegin rTreesBegin pos : Nat} {front back : List FlatNode}
    (htrees : r.trees = front ++ back) (hfront : Layout stored r.fetchedIdx.length 0 r.desc front)
    (hback : Layout stored src.fetchedIdx.length pos desc back)
    (hpos : pos + rTreesBegin = front.length + lastTreeBegin) (hsmall : r.trees.length < 2 ^ 32)
    (h : adjustCells src lastTreeBegin rTreesBegin desc r = .ok r') :
    Layout stored r'.fetchedIdx.length 0 r'.desc r'.trees := by
  induction desc generalizing r front back pos with
  | nil =>
    cases hback
    rw [adjustCells] at h
    cases h
    rwa [htrees, List.append_nil]
  | cons cd desc ih =>
    rw [adjustCells] at h
    cases hback with
    | plain hplain hrest =>
      rw [hplain.noTree] at h
      have hpush : Layout stored r.fetchedIdx.length 0 (r.desc ++ [cd]) front := by
        have happend := hfront.append (.plain hplain (.nil _))
        rwa [List.append_nil] at happend
      exact ih (r := r.pushCell cd) htrees hpush hrest hpos hsmall h
    | @tree _ _ _ block back hblock hrest =>
      rw [if_pos hblock.hasTree] at h
      obtain ⟨r₁, hcopy, h⟩ := bind_eq_ok h
      have htrees' : r.trees = front ++ block ++ back := by rw [htrees, List.append_assoc]
      have hlength : front.length + block.length < 2 ^ 32 := by
        rw [htrees', List.length_append, List.length_append] at hsmall
        omega
      have hbegin : movePos lastTreeBegin rTreesBegin cd.treeBegin = front.length := by
        rw [hblock.treeBegin]
        exact movePos_eq hpos (by omega)
      have hend : movePos lastTreeBegin rTreesBegin cd.treeEnd = front.length + block.length := by
        rw [hblock.treeEnd]
        exact movePos_eq (by omega) hlength
      obtain ⟨nodes, added, rfl, hnodes⟩ :=
        copyFetchedIndices_spec hblock hcopy htrees' hsmall rfl rfl hbegin hend
      have hsize : nodes.length = block.length := by
        have hkept := (copyFetchedIndices_grows hcopy).2.2
        rw [htrees'] at hkept
        simp only [List.length_append] at hkept
        omega
      have hmono : Layout stored (r.fetchedIdx ++ added).length 0 r.desc front :=
        hfront.mono (by simp)
      have hnodes' := hnodes
      rw [← Nat.zero_add front.length] at hnodes'
      have happend := hmono.append (.tree hnodes' (.nil _))
      rw [List.append_nil] at happend
      have hsplit : front ++ nodes ++ back = (front ++ nodes) ++ back := rfl
      refine ih hsplit happend hrest ?_ ?_ h
      · rw [List.length_append, hsize]
        omega
      · show (front ++ nodes ++ back).length < 2 ^ 32
        rw [htrees'] at hsmall
        simp only [List.length_append] at hsmall ⊢
        omega

theorem copyRest_grows (h : copyRest src desc r = .ok r') :
    r'.space = r.space ∧
      r'.desc.map CellDesc.cellId = (r.desc ++ desc).map CellDesc.cellId ∧
      r.trees.length ≤ r'.trees.length := by
  induction desc generalizing r with
  | nil =>
    rw [copyRest] at h
    cases h
    exact ⟨rfl, by simp, Nat.le_refl _⟩
  | cons cd desc ih =>
    rw [copyRest] at h
    split at h
    next =>
      obtain ⟨hspace, hdesc, htrees⟩ := ih h
      refine ⟨hspace, ?_, htrees⟩
      rw [hdesc]
      simp [pushCell]
    next =>
      obtain ⟨trees, -, h⟩ := bind_eq_ok h
      obtain ⟨hspace, hdesc, htrees⟩ := adjustCells_grows h
      refine ⟨hspace, hdesc, ?_⟩
      rw [htrees]
      simp

theorem copyRest_inv {front back : List FlatNode} (htrees : src.trees = front ++ back)
    (hlayout : Layout sp.idxStore.size src.fetchedIdx.length front.length desc back)
    (hr : Inv sp r) (h : copyRest src desc r = .ok r') (hsmall : r'.trees.length < 2 ^ 32) :
    Inv sp r' := by
  induction desc generalizing r with
  | nil =>
    rw [copyRest] at h
    cases h
    exact hr
  | cons cd desc ih =>
    rw [copyRest] at h
    cases hlayout with
    | plain hplain hrest =>
      rw [hplain.noTree] at h
      exact ih hrest (hr.pushPlain hplain) h
    | @tree _ _ _ block back hblock hrest =>
      rw [hblock.hasTree] at h
      simp only [Bool.not_true, Bool.false_eq_true, if_false] at h
      obtain ⟨trees, hslice, h⟩ := bind_eq_ok h
      have hslice' : slice src.trees cd.treeBegin src.trees.length = .ok (block ++ back) := by
        have hsplit : src.trees = front ++ (block ++ back) ++ [] := by
          rw [htrees, List.append_nil]
        refine slice_eq hsplit hblock.treeBegin ?_
        rw [htrees, List.length_append]
      rw [hslice'] at hslice
      cases hslice
      obtain ⟨hspace, -, hlength⟩ := adjustCells_grows h
      have hsmall' : (r.trees ++ (block ++ back)).length < 2 ^ 32 := hlength ▸ hsmall
      have hlayout := adjustCells_spec
        (r := { r with trees := r.trees ++ (block ++ back) }) rfl hr.layout (.tree hblock hrest)
        (by rw [hblock.treeBegin]; omega) hsmall' h
      exact ⟨hspace.trans hr.space, hlayout, hsmall⟩

end TreedCQRImp

end Sserialize
