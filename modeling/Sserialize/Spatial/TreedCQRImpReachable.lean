import Sserialize.Spatial.TreedCQRImpRun
import Sserialize.Spatial.CellQueryResultSlots

namespace Sserialize

open KeyedPairs

namespace TreedCQRImp

variable {sp : CellSpace} {my o r r' : TreedCQRImp}

structure Good (sp : CellSpace) (r : TreedCQRImp) : Prop where
  inv : Inv sp r
  sorted : Sorted CellDesc.cellId r.desc

theorem inv_empty (sp : CellSpace) : Inv sp (empty sp) where
  space := rfl
  layout := .nil 0
  small := by
    show 0 < 2 ^ 32
    decide

theorem sorted_front {xs ys : List CellDesc} (h : Sorted CellDesc.cellId (xs ++ ys)) :
    Sorted CellDesc.cellId xs :=
  (List.pairwise_append.mp h).1

variable {cell : CellDesc → CellDesc → TreedCQRImp → Except Fault TreedCQRImp}
  {myDesc oDesc : List CellDesc}

theorem walk_good {keepMy keepO : Bool} (hmy : Good sp my) (ho : Good sp o)
    (hcell : CellStep sp my o cell)
    (h : walk keepMy keepO my o cell my.desc o.desc (empty my.space) = .ok (r, myDesc, oDesc)) :
    WalkSpec sp my.desc o.desc (empty sp) r myDesc oDesc ∧
      Sorted CellDesc.cellId (r.desc ++ myDesc) ∧ Sorted CellDesc.cellId (r.desc ++ oDesc) := by
  rw [hmy.inv.space] at h
  have hspec := walk_spec hmy.inv ho.inv hcell (fun _ hcd => hcd) (fun _ hcd => hcd) h
  exact ⟨hspec, hspec.sorted hmy.sorted ho.sorted⟩

variable {desc : List CellDesc}

theorem copyRest_good {src : TreedCQRImp} (hsrc : Good sp src) (hsuffix : desc <:+ src.desc)
    (hr : r.trees.length < 2 ^ 32 → Inv sp r) (hsorted : Sorted CellDesc.cellId (r.desc ++ desc))
    (h : copyRest src desc r = .ok r') (hsmall : r'.trees.length < 2 ^ 32) : Good sp r' := by
  obtain ⟨before, hdesc⟩ := hsuffix
  have hlayout := hsrc.inv.layout
  rw [← hdesc] at hlayout
  obtain ⟨front, back, htrees, hback⟩ := hlayout.of_append
  rw [Nat.zero_add] at hback
  obtain ⟨-, hids, hle⟩ := copyRest_grows h
  exact ⟨copyRest_inv htrees hback (hr (Nat.lt_of_le_of_lt hle hsmall)) h hsmall,
    sorted_of_map_eq hsorted hids⟩

theorem intersect_good (hmy : Good sp my) (ho : Good sp o) (h : my.intersect o = .ok r)
    (hsmall : r.trees.length < 2 ^ 32) : Good sp r := by
  obtain ⟨⟨r₁, myDesc, oDesc⟩, hwalk, h⟩ := bind_eq_ok h
  cases h
  obtain ⟨hspec, hsorted, -⟩ := walk_good hmy ho (intersectCell_step hmy.inv ho.inv) hwalk
  exact ⟨hspec.inv (inv_empty sp) hsmall, sorted_front hsorted⟩

theorem diff_good (hmy : Good sp my) (ho : Good sp o) (h : my.diff o = .ok r)
    (hsmall : r.trees.length < 2 ^ 32) : Good sp r := by
  obtain ⟨⟨r₁, myDesc, oDesc⟩, hwalk, h⟩ := bind_eq_ok h
  obtain ⟨hspec, hsorted, -⟩ := walk_good hmy ho (diffCell_step hmy.inv ho.inv) hwalk
  exact copyRest_good hmy hspec.my (hspec.inv (inv_empty sp)) hsorted h hsmall

theorem bothRests_good (hmy : Good sp my) (ho : Good sp o) (hcell : CellStep sp my o cell)
    (hwalk : walk true true my o cell my.desc o.desc (empty my.space) = .ok (r, myDesc, oDesc))
    (h : (if myDesc ≠ [] then copyRest my myDesc r else copyRest o oDesc r) = .ok r')
    (hsmall : r'.trees.length < 2 ^ 32) : Good sp r' := by
  obtain ⟨hspec, hsortedMy, hsortedO⟩ := walk_good hmy ho hcell hwalk
  split at h
  next => exact copyRest_good hmy hspec.my (hspec.inv (inv_empty sp)) hsortedMy h hsmall
  next => exact copyRest_good ho hspec.o (hspec.inv (inv_empty sp)) hsortedO h hsmall

theorem unite_good (hmy : Good sp my) (ho : Good sp o) (h : my.unite o = .ok r)
    (hsmall : r.trees.length < 2 ^ 32) : Good sp r := by
  obtain ⟨⟨r₁, myDesc, oDesc⟩, hwalk, h⟩ := bind_eq_ok h
  exact bothRests_good hmy ho (uniteCell_step hmy.inv ho.inv) hwalk h hsmall

theorem symDiff_good (hmy : Good sp my) (ho : Good sp o) (h : my.symDiff o = .ok r)
    (hsmall : r.trees.length < 2 ^ 32) : Good sp r := by
  obtain ⟨⟨r₁, myDesc, oDesc⟩, hwalk, h⟩ := bind_eq_ok h
  exact bothRests_good hmy ho (symDiffCell_step hmy.inv ho.inv) hwalk h hsmall

theorem allToFullLoop_grows (h : allToFullLoop my desc r = .ok r') :
    r'.desc.map CellDesc.cellId = (r.desc ++ desc).map CellDesc.cellId ∧
      r.trees.length ≤ r'.trees.length := by
  induction desc generalizing r with
  | nil =>
    rw [allToFullLoop] at h
    cases h
    exact ⟨by simp, Nat.le_refl _⟩
  | cons cd desc ih =>
    rw [allToFullLoop] at h
    split at h
    next =>
      obtain ⟨r₁, hcopy, h⟩ := bind_eq_ok h
      obtain ⟨hids, hle⟩ := ih h
      have hgrows := (growsTrees_append r [.toFm]).trans (copyTree_grows hcopy)
      refine ⟨?_, Nat.le_trans hgrows.trees hle⟩
      rw [hids]
      simp [pushCell, hgrows.desc]
    next =>
      obtain ⟨hids, hle⟩ := ih h
      refine ⟨?_, hle⟩
      rw [hids]
      simp [pushCell, CellDesc.plain]

theorem allToFullLoop_inv (hmy : Inv sp my) (hdesc : ∀ cd ∈ desc, cd ∈ my.desc) (hr : Inv sp r)
    (h : allToFullLoop my desc r = .ok r') (hsmall : r'.trees.length < 2 ^ 32) : Inv sp r' := by
  induction desc generalizing r with
  | nil =>
    rw [allToFullLoop] at h
    cases h
    exact hr
  | cons cd desc ih =>
    obtain ⟨hcd, hdesc'⟩ := List.forall_mem_cons.mp hdesc
    rw [allToFullLoop] at h
    split at h
    next htree =>
      obtain ⟨r₁, hcopy, h⟩ := bind_eq_ok h
      have hle := (allToFullLoop_grows h).2
      have hsmall₁ : r₁.trees.length < 2 ^ 32 := Nat.lt_of_le_of_lt hle hsmall
      have hle₁ := (copyTree_grows hcopy).trees
      obtain ⟨block, added, hcopied, -⟩ :=
        copyTree_spec hmy hcd htree (Nat.lt_of_le_of_lt hle₁ hsmall₁) hcopy
      obtain rfl := hcopied.eq
      have hlength : (r.trees ++ [FlatNode.toFm] ++ block).length < 2 ^ 32 := hsmall₁
      have hend : (r.trees ++ [FlatNode.toFm] ++ block).length =
          r.trees.length + (FlatNode.toFm :: block).length := by
        simp only [List.length_append, List.length_cons, List.length_nil]
        omega
      have hblock : Block sp.idxStore.size (r.fetchedIdx ++ added).length r.trees.length
          ⟨false, cd.hasFetchedNode, cd.cellId, 0, u32 r.trees.length,
            u32 (r.trees ++ [FlatNode.toFm] ++ block).length⟩ (.toFm :: block) := by
        refine ⟨.toFm hcopied.tree, List.forall_mem_cons.mpr ⟨trivial, hcopied.valid⟩,
          fun id hid => ?_, rfl, u32_of_lt hr.small, ?_, hend ▸ hlength⟩
        · rcases List.mem_cons.mp hid with heq | hid
          · cases heq
          · exact (hcopied.hasFetchedNode id hid).2
        · rw [← hend]
          exact u32_of_lt hlength
      have hpush := hr.pushBlock hblock
      rw [show r.trees ++ .toFm :: block = r.trees ++ [.toFm] ++ block by simp] at hpush
      exact ih hdesc' hpush h
    next => exact ih hdesc' (hr.pushPlain (plain_plain _ _ _ _ (by simp))) h

theorem allToFull_good (hmy : Good sp my) (h : my.allToFull = .ok r)
    (hsmall : r.trees.length < 2 ^ 32) : Good sp r := by
  rw [allToFull, hmy.inv.space] at h
  exact ⟨allToFullLoop_inv hmy.inv (fun _ hcd => hcd) (inv_empty sp) h hsmall,
    sorted_of_map_eq hmy.sorted (allToFullLoop_grows h).1⟩

def IdStored (sp : CellSpace) (c : Cell) : Prop :=
  c.fetched = false → c.fullMatch = false → ∃ id, c.slot = .idxPtr id ∧ id < sp.idxStore.size

theorem ofCell_grows {c : Cell} (h : ofCell c r = .ok r') :
    r'.desc.map CellDesc.cellId = r.desc.map CellDesc.cellId ++ [c.cellId] ∧
      r.trees.length ≤ r'.trees.length := by
  unfold ofCell at h
  split at h
  next =>
    obtain ⟨idx, -, h⟩ := bind_eq_ok h
    cases h
    exact ⟨by simp [CellDesc.plain], by simp⟩
  next =>
    split at h
    next =>
      cases h
      exact ⟨by simp [pushCell, CellDesc.plain], Nat.le_refl _⟩
    next =>
      obtain ⟨id, -, h⟩ := bind_eq_ok h
      cases h
      exact ⟨by simp [pushCell, CellDesc.plain], Nat.le_refl _⟩

theorem ofCell_inv {c : Cell} (hc : IdStored sp c) (hr : Inv sp r) (h : ofCell c r = .ok r')
    (hsmall : r'.trees.length < 2 ^ 32) : Inv sp r' := by
  unfold ofCell at h
  split at h
  next =>
    obtain ⟨idx, -, h⟩ := bind_eq_ok h
    cases h
    have hlength : r.trees.length + 1 < 2 ^ 32 := by
      have hle : (r.trees ++ [FlatNode.fetchedLeaf r.fetchedIdx.length]).length < 2 ^ 32 := hsmall
      simpa using hle
    have hblock : Block sp.idxStore.size (r.fetchedIdx ++ [idx]).length r.trees.length
        { CellDesc.plain false c.cellId 0 with
          hasFetchedNode := true, treeBegin := u32 r.trees.length,
          treeEnd := u32 (r.trees.length + 1) } [.fetchedLeaf r.fetchedIdx.length] := by
      refine ⟨.leaf rfl, fun n hn => ?_, fun _ _ => rfl, rfl, u32_of_lt hr.small, u32_of_lt hlength,
        hlength⟩
      obtain rfl := List.mem_singleton.mp hn
      show r.fetchedIdx.length < (r.fetchedIdx ++ [idx]).length
      simp
    exact hr.pushBlock hblock
  next hfetched =>
    split at h
    next =>
      cases h
      exact hr.pushPlain (plain_plain _ _ _ _ (by simp))
    next hfull =>
      obtain ⟨id, hslot, hid⟩ := hc (by simpa using hfetched) (by simpa using hfull)
      obtain ⟨id', hptr, h⟩ := bind_eq_ok h
      rw [Cell.idxPtr, hslot] at hptr
      cases hptr
      cases h
      exact hr.pushPlain (plain_plain _ _ _ _ fun _ => hid)

theorem ofCells_grows {cells : List Cell} (h : ofCells cells r = .ok r') :
    r'.desc.map CellDesc.cellId = r.desc.map CellDesc.cellId ++ cells.map Cell.cellId ∧
      r.trees.length ≤ r'.trees.length := by
  induction cells generalizing r with
  | nil =>
    rw [ofCells] at h
    cases h
    exact ⟨by simp, Nat.le_refl _⟩
  | cons c cells ih =>
    obtain ⟨r₁, hcell, h⟩ := bind_eq_ok h
    obtain ⟨hids, hle⟩ := ofCell_grows hcell
    obtain ⟨hids', hle'⟩ := ih h
    refine ⟨?_, Nat.le_trans hle hle'⟩
    rw [hids', hids, List.map_cons, List.append_assoc, List.singleton_append]

theorem ofCells_inv {cells : List Cell} (hcells : ∀ c ∈ cells, IdStored sp c) (hr : Inv sp r)
    (h : ofCells cells r = .ok r') (hsmall : r'.trees.length < 2 ^ 32) : Inv sp r' := by
  induction cells generalizing r with
  | nil =>
    rw [ofCells] at h
    cases h
    exact hr
  | cons c cells ih =>
    obtain ⟨hc, hcells'⟩ := List.forall_mem_cons.mp hcells
    obtain ⟨r₁, hcell, h⟩ := bind_eq_ok h
    have hsmall₁ := Nat.lt_of_le_of_lt (ofCells_grows h).2 hsmall
    exact ih hcells' (ofCell_inv hc hr hcell hsmall₁) h

theorem ofCellQueryResult_good {q : CellQueryResult} (hq : q.Wf)
    (hstored : ∀ c ∈ q.cells, IdStored q.space c) (h : ofCellQueryResult q = .ok r)
    (hsmall : r.trees.length < 2 ^ 32) : Good q.space r where
  inv := ofCells_inv hstored (inv_empty q.space) h hsmall
  sorted := by
    have hids : r.desc.map CellDesc.cellId = q.cells.map Cell.cellId := (ofCells_grows h).1
    exact List.pairwise_map.mp (hids ▸ List.pairwise_map.mpr hq.sorted)

/-- Roots are in the array, children in the block of their cell, the blocks of the cells are apart
and in the order of the cells, and leaves refer to indices of the store or to fetched ones. -/
structure WellFormed (r : TreedCQRImp) : Prop where
  roots : ∀ cd ∈ r.desc, cd.hasTree = true →
    cd.treeBegin < cd.treeEnd ∧ cd.treeEnd ≤ r.trees.length
  children : ∀ cd ∈ r.desc, cd.hasTree = true → ∀ i n, cd.treeBegin ≤ i → i < cd.treeEnd →
    r.trees[i]? = some n → n.ChildrenIn i cd.treeEnd
  cells : r.desc.Pairwise fun c d =>
    c.cellId < d.cellId ∧ (c.hasTree = true → d.hasTree = true → c.treeEnd ≤ d.treeBegin)
  leaves : ∀ cd ∈ r.desc, cd.hasTree = true → ∀ i n, cd.treeBegin ≤ i → i < cd.treeEnd →
    r.trees[i]? = some n → n.Valid r.space.idxStore.size r.fetchedIdx.length

theorem Layout.le_treeBegin {stored fetched pos : Nat} {trees : List FlatNode}
    (h : Layout stored fetched pos desc trees) {cd : CellDesc} (hcd : cd ∈ desc)
    (htree : cd.hasTree = true) : pos ≤ cd.treeBegin := by
  obtain ⟨front, block, back, -, hblock⟩ := h.block_of_mem hcd htree
  rw [hblock.treeBegin]
  exact Nat.le_add_right _ _

theorem Layout.pairwise {stored fetched pos : Nat} {trees : List FlatNode}
    (h : Layout stored fetched pos desc trees) :
    desc.Pairwise fun c d => c.hasTree = true → d.hasTree = true → c.treeEnd ≤ d.treeBegin := by
  induction h with
  | nil _ => exact .nil
  | plain hplain _ ih =>
    refine List.pairwise_cons.mpr ⟨fun d _ hc => ?_, ih⟩
    rw [hplain.noTree] at hc
    cases hc
  | tree hblock hrest ih =>
    refine List.pairwise_cons.mpr ⟨fun d hd _ htree => ?_, ih⟩
    rw [hblock.treeEnd]
    exact hrest.le_treeBegin hd htree

theorem Block.node {stored fetched : Nat} {cd : CellDesc} {front block back : List FlatNode}
    (h : Block stored fetched (0 + front.length) cd block) {i : Nat} {n : FlatNode}
    (hfirst : cd.treeBegin ≤ i) (hlast : i < cd.treeEnd)
    (hn : (front ++ block ++ back)[i]? = some n) :
    n ∈ block ∧ n.ChildrenIn i cd.treeEnd := by
  rw [h.treeBegin] at hfirst
  rw [h.treeEnd] at hlast
  have hn' : block[i - front.length]? = some n := by
    rw [List.append_assoc, List.getElem?_append_right (by omega),
      List.getElem?_append_left (by omega)] at hn
    exact hn
  refine ⟨List.mem_of_getElem? hn', ?_⟩
  have hchildren := (h.tree.childrenIn hn').shift front.length
  rwa [show front.length + (i - front.length) = i by omega, ← Nat.zero_add front.length,
    ← h.treeEnd] at hchildren

theorem Good.wellFormed (h : Good sp r) : r.WellFormed where
  roots cd hcd htree := by
    obtain ⟨front, block, back, htrees, hblock⟩ := h.inv.layout.block_of_mem hcd htree
    have hpos := hblock.tree.length_pos
    rw [hblock.treeBegin, hblock.treeEnd, htrees]
    simp only [List.length_append]
    omega
  children cd hcd htree i n hfirst hlast hn := by
    obtain ⟨front, block, back, htrees, hblock⟩ := h.inv.layout.block_of_mem hcd htree
    rw [htrees] at hn
    exact (hblock.node hfirst hlast hn).2
  cells := h.sorted.and h.inv.layout.pairwise
  leaves cd hcd htree i n hfirst hlast hn := by
    obtain ⟨front, block, back, htrees, hblock⟩ := h.inv.layout.block_of_mem hcd htree
    rw [htrees] at hn
    rw [h.inv.space]
    exact hblock.valid n (hblock.node hfirst hlast hn).1

/-- The results of operator sequences over well formed cell query results. All results of the
sequence meet `ok`. -/
inductive Reachable (sp : CellSpace) (ok : TreedCQRImp → Prop) : TreedCQRImp → Prop
  | ofCellQueryResult {q : CellQueryResult} {r : TreedCQRImp} (hq : q.Wf) (hspace : q.space = sp)
      (hstored : ∀ c ∈ q.cells, IdStored q.space c) (h : ofCellQueryResult q = .ok r) (hok : ok r) :
      Reachable sp ok r
  | intersect {a b r : TreedCQRImp} (ha : Reachable sp ok a) (hb : Reachable sp ok b)
      (h : a.intersect b = .ok r) (hok : ok r) : Reachable sp ok r
  | unite {a b r : TreedCQRImp} (ha : Reachable sp ok a) (hb : Reachable sp ok b)
      (h : a.unite b = .ok r) (hok : ok r) : Reachable sp ok r
  | diff {a b r : TreedCQRImp} (ha : Reachable sp ok a) (hb : Reachable sp ok b)
      (h : a.diff b = .ok r) (hok : ok r) : Reachable sp ok r
  | symDiff {a b r : TreedCQRImp} (ha : Reachable sp ok a) (hb : Reachable sp ok b)
      (h : a.symDiff b = .ok r) (hok : ok r) : Reachable sp ok r
  | allToFull {a r : TreedCQRImp} (ha : Reachable sp ok a) (h : a.allToFull = .ok r)
      (hok : ok r) : Reachable sp ok r

/-- All positions are `uint32_t` values. -/
def Fits (r : TreedCQRImp) : Prop := r.trees.length < 2 ^ 32

theorem Reachable.good (h : Reachable sp Fits r) : Good sp r := by
  induction h with
  | ofCellQueryResult hq hspace hstored h hok =>
    exact hspace ▸ ofCellQueryResult_good hq hstored h hok
  | intersect _ _ h hok iha ihb => exact intersect_good iha ihb h hok
  | unite _ _ h hok iha ihb => exact unite_good iha ihb h hok
  | diff _ _ h hok iha ihb => exact diff_good iha ihb h hok
  | symDiff _ _ h hok iha ihb => exact symDiff_good iha ihb h hok
  | allToFull _ h hok iha => exact allToFull_good iha h hok

/-- The array of every reachable result is well formed, as long as positions in the arrays are
`uint32_t` values. -/
theorem reachable_wellFormed (h : Reachable sp Fits r) : r.WellFormed :=
  h.good.wellFormed

def onePartial : TreedCQRImp where
  space := CellQueryResult.oneCell
  desc := [.plain false 0 1]
  trees := []
  fetchedIdx := []

def oneTree (t : List FlatNode) : TreedCQRImp where
  space := CellQueryResult.oneCell
  desc := [⟨false, false, 0, 0, 0, u32 t.length⟩]
  trees := t
  fetchedIdx := []

theorem reachable_onePartial {ok : TreedCQRImp → Prop} (hok : ok onePartial) :
    Reachable CellQueryResult.oneCell ok onePartial := by
  refine .ofCellQueryResult (q := .ofCell (fun _ => 0) CellQueryResult.oneCell false 0 1)
    (CellQueryResult.wf_ofCell CellQueryResult.wf_oneCell _ (by decide) fun _ => by decide) rfl
    ?_ rfl hok
  intro c hc _ _
  obtain rfl := List.mem_singleton.mp hc
  exact ⟨1, rfl, by decide⟩

variable {myCD oCD : CellDesc}

theorem walk_single {keepMy keepO : Bool}
    (cell : CellDesc → CellDesc → TreedCQRImp → Except Fault TreedCQRImp)
    (hid : myCD.cellId = oCD.cellId) :
    walk keepMy keepO my o cell [myCD] [oCD] r =
      (cell myCD oCD r).map fun r' => (r', [], []) := by
  rw [walk_eq, if_neg (by omega), if_neg (by omega)]
  cases cell myCD oCD r with
  | error e => rfl
  | ok r' =>
    rw [ok_bind, walk]
    rfl

theorem intersect_single (hmy : my.desc = [myCD]) (ho : o.desc = [oCD])
    (hid : myCD.cellId = oCD.cellId) :
    my.intersect o = intersectCell my o myCD oCD (empty my.space) := by
  rw [intersect, hmy, ho, walk_single _ hid]
  cases intersectCell my o myCD oCD (empty my.space) <;> rfl

theorem operand_onePartial (dest : TreedCQRImp) :
    operand onePartial (.plain false 0 1) dest =
      .ok { dest with trees := dest.trees ++ [.pmLeaf 1] } := by
  rw [operand, (plain_plain 2 false 0 1 fun _ => by decide).noTree]
  rfl

variable {t : List FlatNode}

theorem treeSize_oneTree (ht : t.length < 2 ^ 32) :
    CellDesc.treeSize ⟨false, false, 0, 0, 0, u32 t.length⟩ = t.length := by
  rw [CellDesc.treeSize, sub32_of_le (Nat.zero_le _) (u32_lt _), u32_of_lt ht, Nat.sub_zero]

theorem hasTree_oneTree (hpos : 0 < t.length) (ht : t.length < 2 ^ 32) :
    CellDesc.hasTree ⟨false, false, 0, 0, 0, u32 t.length⟩ = true := by
  rw [CellDesc.hasTree, treeSize_oneTree ht]
  exact decide_eq_true (by omega)

theorem operand_oneTree (hpos : 0 < t.length) (ht : t.length < 2 ^ 32) (dest : TreedCQRImp) :
    operand (oneTree t) ⟨false, false, 0, 0, 0, u32 t.length⟩ dest =
      .ok { dest with trees := dest.trees ++ t } := by
  have hsplit : (oneTree t).trees = [] ++ t ++ [] := by
    rw [List.nil_append, List.append_nil]
    rfl
  have hslice : slice (oneTree t).trees 0 (u32 t.length) = .ok t :=
    slice_eq hsplit rfl (by rw [u32_of_lt ht, List.length_nil, Nat.zero_add])
  rw [operand, if_pos (hasTree_oneTree hpos ht), copyTree]
  simp only [hslice, ok_bind, Bool.false_eq_true, if_false, except_pure]

/-- A partial cell without fetched indices, with the nodes that are read for it. -/
structure Reads (my : TreedCQRImp) (myCD : CellDesc) (a : List FlatNode) : Prop where
  space : my.space = CellQueryResult.oneCell
  desc : my.desc = [myCD]
  cellId : myCD.cellId = 0
  notFull : myCD.fullMatch = false
  notFetched : myCD.hasFetchedNode = false
  childB : (if myCD.hasTree then u32 (1 + myCD.treeSize) else 2) = u32 (1 + a.length)
  operand : ∀ dest, operand my myCD dest = .ok { dest with trees := dest.trees ++ a }

theorem reads_onePartial : Reads onePartial (.plain false 0 1) [.pmLeaf 1] := by
  refine ⟨rfl, rfl, rfl, rfl, rfl, ?_, operand_onePartial⟩
  rw [(plain_plain 2 false 0 1 fun _ => by decide).noTree]
  rfl

theorem reads_oneTree (hpos : 0 < t.length) (ht : t.length < 2 ^ 32) :
    Reads (oneTree t) ⟨false, false, 0, 0, 0, u32 t.length⟩ t := by
  refine ⟨rfl, rfl, rfl, rfl, rfl, ?_, operand_oneTree hpos ht⟩
  rw [if_pos (hasTree_oneTree hpos ht), treeSize_oneTree ht]

theorem intersect_reads {a b : List FlatNode} (hmy : Reads my myCD a) (ho : Reads o oCD b) :
    my.intersect o = .ok (oneTree (.opNode .intersect (u32 (1 + a.length)) :: (a ++ b))) := by
  have hpush : pushOp .intersect my o myCD oCD false (empty my.space) =
      .ok (oneTree (.opNode .intersect (u32 (1 + a.length)) :: (a ++ b))) := by
    rw [pushOp, hmy.operand, ok_bind, ho.operand, ok_bind, hmy.childB, hmy.cellId, hmy.space]
    simp [empty, pushCell, oneTree]
    rfl
  rw [intersect_single hmy.desc ho.desc (hmy.cellId.trans ho.cellId.symm)]
  unfold intersectCell
  rw [hmy.notFull, ho.notFull, hmy.notFetched, ho.notFetched]
  split
  next => exact hpush
  next => exact hpush

theorem reachable_oneTree (n : Nat) (hn : n < 31) : ∃ t : List FlatNode,
    t.length = 2 ^ (n + 2) - 1 ∧
      Reachable CellQueryResult.oneCell (fun _ => True) (oneTree t) := by
  induction n with
  | zero =>
    have hstart : Reachable CellQueryResult.oneCell (fun _ => True) onePartial :=
      reachable_onePartial trivial
    exact ⟨_, rfl, .intersect hstart hstart (intersect_reads reads_onePartial reads_onePartial)
      trivial⟩
  | succ n ih =>
    obtain ⟨t, hlength, hreach⟩ := ih (by omega)
    have hpow : 2 ^ (n + 2) ≤ 2 ^ 31 := Nat.pow_le_pow_right (by decide) (by omega)
    have hpos : 0 < 2 ^ (n + 2) := Nat.two_pow_pos _
    have hreads : Reads (oneTree t) ⟨false, false, 0, 0, 0, u32 t.length⟩ t := by
      have hthree : 2 ^ 2 ≤ 2 ^ (n + 2) := Nat.pow_le_pow_right (by decide) (by omega)
      exact reads_oneTree (by omega) (by omega)
    refine ⟨.opNode .intersect (u32 (1 + t.length)) :: (t ++ t), ?_,
      .intersect hreach hreach (intersect_reads hreads hreads) trivial⟩
    have hdouble : 2 ^ (n + 1 + 2) = 2 * 2 ^ (n + 2) := by ring
    rw [List.length_cons, List.length_append, hlength, hdouble]
    omega

theorem reachable_wellFormed_intersect : WellFormed
    (oneTree [.opNode .intersect (u32 (1 + 1)), .pmLeaf 1, .pmLeaf 1]) := by
  have hstart : Reachable CellQueryResult.oneCell Fits onePartial :=
    reachable_onePartial (show 0 < 2 ^ 32 by decide)
  exact reachable_wellFormed (.intersect hstart hstart
    (intersect_reads reads_onePartial reads_onePartial) (show 3 < 2 ^ 32 by decide))

/-- A tree with `2 ^ 32 - 1` nodes is intersected with one more cell: the end of the new tree is
stored as `1`, in front of the children of its root. -/
theorem not_reachable_wellFormed :
    ¬ ∀ (sp : CellSpace) (r : TreedCQRImp), Reachable sp (fun _ => True) r → r.WellFormed := by
  intro hall
  obtain ⟨t, hlength, hreach⟩ := reachable_oneTree 30 (by decide)
  have hreads := reads_oneTree (t := t) (by omega) (by omega)
  have hwf := hall _ _ (.intersect hreach (reachable_onePartial trivial)
    (intersect_reads hreads reads_onePartial) trivial)
  have hend : u32 (FlatNode.opNode .intersect (u32 (1 + t.length)) :: (t ++ [.pmLeaf 1])).length =
      1 := by
    rw [List.length_cons, List.length_append, hlength]
    rfl
  have htree : CellDesc.hasTree ⟨false, false, 0, 0, 0, u32
      (FlatNode.opNode .intersect (u32 (1 + t.length)) :: (t ++ [.pmLeaf 1])).length⟩ = true := by
    rw [hend]
    rfl
  have hchildren := hwf.children _ (List.mem_singleton_self _) htree 0 _ (Nat.le_refl _)
    (by rw [hend]; decide) rfl
  have hone : 1 < u32 (1 + t.length) := hchildren.1
  have hlt : 0 + u32 (1 + t.length) <
      u32 (FlatNode.opNode .intersect (u32 (1 + t.length)) :: (t ++ [.pmLeaf 1])).length :=
    hchildren.2
  rw [hend] at hlt
  omega

end TreedCQRImp

end Sserialize
