import Sserialize.Spatial.TreedCQRImp

namespace Sserialize.TreedCQRImp

namespace FlatNode

def Valid (stored fetched : Nat) : FlatNode → Prop
  | .pmLeaf pmIdxId => pmIdxId < stored
  | .fetchedLeaf internalIdxId => internalIdxId < fetched
  | _ => True

variable {n : FlatNode}

theorem Valid.mono {stored fetched fetched' : Nat} (h : n.Valid stored fetched)
    (hle : fetched ≤ fetched') : n.Valid stored fetched' := by
  cases n with
  | fetchedLeaf id => exact Nat.lt_of_lt_of_le h hle
  | _ => exact h

def isLeaf : FlatNode → Bool
  | .pmLeaf _ | .fmLeaf | .fetchedLeaf _ => true
  | .toFm | .opNode _ _ => false

def shape : FlatNode → FlatNode
  | .fetchedLeaf _ => .fetchedLeaf 0
  | n => n

theorem isLeaf_of_shape {m n : FlatNode} (h : m.shape = n.shape) (hn : n.isLeaf = true) :
    m.isLeaf = true := by
  cases n <;> cases m <;> simp_all [shape, isLeaf]

theorem eq_toFm_of_shape (h : n.shape = .toFm) : n = .toFm := by
  cases n <;> simp_all [shape]

theorem eq_opNode_of_shape {type : OpType} {childB : Nat} (h : n.shape = .opNode type childB) :
    n = .opNode type childB := by
  cases n <;> simp_all [shape]

def ChildrenIn (pos last : Nat) : FlatNode → Prop
  | .opNode _ childB => 1 < childB ∧ pos + childB < last
  | .toFm => pos + 1 < last
  | _ => True

theorem ChildrenIn.mono {pos last last' : Nat} (h : n.ChildrenIn pos last) (hle : last ≤ last') :
    n.ChildrenIn pos last' := by
  cases n with
  | opNode type childB => exact ⟨h.1, Nat.lt_of_lt_of_le h.2 hle⟩
  | toFm => exact Nat.lt_of_lt_of_le h hle
  | _ => trivial

theorem ChildrenIn.shift {pos last : Nat} (h : n.ChildrenIn pos last) (k : Nat) :
    n.ChildrenIn (k + pos) (k + last) := by
  cases n with
  | opNode type childB => exact ⟨h.1, by have := h.2; omega⟩
  | toFm =>
    have hlt : pos + 1 < last := h
    show k + pos + 1 < k + last
    omega
  | _ => trivial

end FlatNode

/-- The nodes of one tree. -/
inductive IsTree : List FlatNode → Prop
  | leaf {n : FlatNode} (h : n.isLeaf = true) : IsTree [n]
  | toFm {t : List FlatNode} (h : IsTree t) : IsTree (.toFm :: t)
  | opNode {a b : List FlatNode} (type : OpType) (ha : IsTree a) (hb : IsTree b) :
      IsTree (.opNode type (1 + a.length) :: (a ++ b))

namespace IsTree

theorem length_pos {t : List FlatNode} (h : IsTree t) : 0 < t.length := by
  cases h <;> simp

theorem of_shape {t t' : List FlatNode} (h : IsTree t)
    (hshape : t'.map FlatNode.shape = t.map FlatNode.shape) : IsTree t' := by
  induction h generalizing t' with
  | @leaf n hn =>
    obtain ⟨m, rfl, hm⟩ := List.map_eq_singleton_iff.mp hshape
    exact .leaf (FlatNode.isLeaf_of_shape hm hn)
  | toFm _ ih =>
    obtain ⟨m, us, rfl, hm, hus⟩ := List.map_eq_cons_iff.mp hshape
    rw [FlatNode.eq_toFm_of_shape hm]
    exact .toFm (ih hus)
  | @opNode a b type _ _ iha ihb =>
    obtain ⟨m, us, rfl, hm, hus⟩ := List.map_eq_cons_iff.mp hshape
    rw [List.map_append] at hus
    obtain ⟨a', b', rfl, ha', hb'⟩ := List.map_eq_append_iff.mp hus
    have hlength : a'.length = a.length := by simpa using congrArg List.length ha'
    rw [FlatNode.eq_opNode_of_shape hm, ← hlength]
    exact .opNode type (iha ha') (ihb hb')

theorem childrenIn {t : List FlatNode} (h : IsTree t) {i : Nat} {n : FlatNode}
    (hn : t[i]? = some n) : n.ChildrenIn i t.length := by
  induction h generalizing i with
  | @leaf m hm =>
    obtain ⟨-, rfl⟩ : i = 0 ∧ m = n := by simpa [List.getElem?_singleton] using hn
    cases m <;> simp_all [FlatNode.isLeaf, FlatNode.ChildrenIn]
  | @toFm t ht ih =>
    cases i with
    | zero =>
      obtain rfl : FlatNode.toFm = n := by simpa using hn
      have hpos := ht.length_pos
      show 0 + 1 < (FlatNode.toFm :: t).length
      rw [List.length_cons]
      omega
    | succ i =>
      rw [List.getElem?_cons_succ] at hn
      rw [List.length_cons, Nat.add_comm i, Nat.add_comm t.length]
      exact (ih hn).shift 1
  | @opNode a b type ha hb iha ihb =>
    have hapos := ha.length_pos
    have hbpos := hb.length_pos
    cases i with
    | zero =>
      obtain rfl : FlatNode.opNode type (1 + a.length) = n := by simpa using hn
      refine ⟨by omega, ?_⟩
      rw [List.length_cons, List.length_append]
      omega
    | succ i =>
      rw [List.getElem?_cons_succ, List.getElem?_append] at hn
      rw [List.length_cons, List.length_append, Nat.add_comm i, Nat.add_comm (a.length + b.length)]
      split at hn
      next hlt => exact ((iha hn).mono (Nat.le_add_right _ _)).shift 1
      next hge =>
        have hsum := (ihb hn).shift (1 + a.length)
        rwa [show 1 + a.length + (i - a.length) = 1 + i by omega, Nat.add_assoc] at hsum

end IsTree

structure Block (stored fetched pos : Nat) (cd : CellDesc) (block : List FlatNode) : Prop where
  tree : IsTree block
  valid : ∀ n ∈ block, n.Valid stored fetched
  hasFetchedNode : ∀ id, .fetchedLeaf id ∈ block → cd.hasFetchedNode = true
  notFull : cd.fullMatch = false
  treeBegin : cd.treeBegin = pos
  treeEnd : cd.treeEnd = pos + block.length
  small : pos + block.length < 2 ^ 32

variable {block : List FlatNode} {cd : CellDesc}

theorem Block.treeSize {stored fetched pos : Nat} (h : Block stored fetched pos cd block) :
    cd.treeSize = block.length := by
  have hsmall := h.small
  rw [CellDesc.treeSize, h.treeBegin, h.treeEnd, sub32_of_le (by omega) hsmall]
  omega

theorem Block.hasTree {stored fetched pos : Nat} (h : Block stored fetched pos cd block) :
    cd.hasTree = true := by
  have hpos := h.tree.length_pos
  rw [CellDesc.hasTree, h.treeSize]
  exact decide_eq_true (by omega)

theorem Block.mono {stored fetched fetched' pos : Nat} (h : Block stored fetched pos cd block)
    (hle : fetched ≤ fetched') : Block stored fetched' pos cd block :=
  { h with valid := fun n hn => (h.valid n hn).mono hle }

structure Plain (stored : Nat) (cd : CellDesc) : Prop where
  noTree : cd.hasTree = false
  stored : cd.fullMatch = false → cd.pmIdxId < stored

/-- The cells from this position on, with their nodes. -/
inductive Layout (stored fetched : Nat) : Nat → List CellDesc → List FlatNode → Prop
  | nil (pos : Nat) : Layout stored fetched pos [] []
  | plain {pos : Nat} {cd : CellDesc} {desc : List CellDesc} {trees : List FlatNode}
      (h : Plain stored cd) (hrest : Layout stored fetched pos desc trees) :
      Layout stored fetched pos (cd :: desc) trees
  | tree {pos : Nat} {cd : CellDesc} {desc : List CellDesc} {block trees : List FlatNode}
      (h : Block stored fetched pos cd block)
      (hrest : Layout stored fetched (pos + block.length) desc trees) :
      Layout stored fetched pos (cd :: desc) (block ++ trees)

namespace Layout

variable {stored fetched pos : Nat} {desc desc' : List CellDesc} {trees trees' : List FlatNode}

theorem mono {fetched' : Nat} (h : Layout stored fetched pos desc trees)
    (hle : fetched ≤ fetched') : Layout stored fetched' pos desc trees := by
  induction h with
  | nil pos => exact .nil pos
  | plain h _ ih => exact .plain h ih
  | tree h _ ih => exact .tree (h.mono hle) ih

theorem append (h : Layout stored fetched pos desc trees)
    (h' : Layout stored fetched (pos + trees.length) desc' trees') :
    Layout stored fetched pos (desc ++ desc') (trees ++ trees') := by
  induction h with
  | nil pos => simpa using h'
  | plain h _ ih => exact .plain h (ih h')
  | tree h _ ih =>
    rw [List.append_assoc]
    refine .tree h (ih ?_)
    rwa [Nat.add_assoc, ← List.length_append]

theorem of_append (h : Layout stored fetched pos (desc ++ desc') trees) :
    ∃ front back, trees = front ++ back ∧
      Layout stored fetched (pos + front.length) desc' back := by
  induction desc generalizing pos trees with
  | nil => exact ⟨[], trees, rfl, by simpa using h⟩
  | cons cd desc ih =>
    cases h with
    | plain _ hrest => exact ih hrest
    | @tree _ _ _ block trees _ hrest =>
      obtain ⟨front, back, rfl, hback⟩ := ih hrest
      refine ⟨block ++ front, back, by rw [List.append_assoc], ?_⟩
      rwa [List.length_append, ← Nat.add_assoc]

theorem plain_of_mem (h : Layout stored fetched pos desc trees) {cd : CellDesc} (hcd : cd ∈ desc)
    (htree : cd.hasTree = false) : Plain stored cd := by
  induction h with
  | nil _ => cases hcd
  | plain hplain _ ih =>
    rcases List.mem_cons.mp hcd with rfl | hcd
    · exact hplain
    · exact ih hcd
  | tree hblock _ ih =>
    rcases List.mem_cons.mp hcd with rfl | hcd
    · rw [hblock.hasTree] at htree
      cases htree
    · exact ih hcd

theorem block_of_mem (h : Layout stored fetched pos desc trees) {cd : CellDesc} (hcd : cd ∈ desc)
    (htree : cd.hasTree = true) :
    ∃ front block back, trees = front ++ block ++ back ∧
      Block stored fetched (pos + front.length) cd block := by
  obtain ⟨before, after, rfl⟩ := List.append_of_mem hcd
  obtain ⟨front, back, rfl, hback⟩ := h.of_append
  cases hback with
  | plain hplain _ =>
    rw [hplain.noTree] at htree
    cases htree
  | @tree _ _ _ block trees hblock _ => exact ⟨front, block, trees, by simp, hblock⟩

end Layout

end Sserialize.TreedCQRImp
