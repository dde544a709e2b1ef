import Mathlib.Data.Finset.SymmDiff
import Sserialize.Spatial.TreedCQRImpLayout

namespace Sserialize.TreedCQRImp

inductive Tree where
  | pm (pmIdxId : Nat)
  | fm
  | fetched (internalIdxId : Nat)
  | toFm (a : Tree)
  | op (type : OpType) (a b : Tree)
  deriving DecidableEq

/-- The items of the indices that leaves refer to, and of the whole cell. -/
structure Items where
  stored : Nat → Finset Nat
  fetched : Nat → Finset Nat
  all : Finset Nat

def Items.of (e : Items) (m : WithTop (Finset Nat)) : Finset Nat := m.untopD e.all

namespace Tree

def nodes : Tree → List FlatNode
  | pm pmIdxId => [.pmLeaf pmIdxId]
  | fm => [.fmLeaf]
  | fetched internalIdxId => [.fetchedLeaf internalIdxId]
  | toFm a => .toFm :: a.nodes
  | op type a b => .opNode type (1 + a.nodes.length) :: (a.nodes ++ b.nodes)

mutual

/-- The match of a tree. An index of the store is full as such for `toFm`. -/
def found (e : Items) : Tree → WithTop (Finset Nat)
  | pm pmIdxId => ↑(e.stored pmIdxId)
  | fm => ⊤
  | fetched internalIdxId => ↑(e.fetched internalIdxId)
  | toFm a => if isStored e a ∨ found e a ≠ ⊥ then ⊤ else ⊥
  | op .intersect a b => found e a ⊓ found e b
  | op .unite a b => found e a ⊔ found e b
  | op .diff a b => if found e b = ⊤ then ⊥ else ↑(e.of (found e a) \ e.of (found e b))
  | op .symDiff a b => ↑(symmDiff (e.of (found e a)) (e.of (found e b)))

def isStored (e : Items) : Tree → Bool
  | pm _ => true
  | op .intersect a b =>
    (isStored e a && decide (found e b = ⊤)) || (decide (found e a = ⊤) && isStored e b)
  | _ => false

end

def Overlooked (e : Items) : Tree → Prop
  | pm pmIdxId => e.stored pmIdxId = ∅
  | fm => False
  | fetched internalIdxId => e.fetched internalIdxId = ∅
  | toFm a => a.Overlooked e ∧ a.isStored e = false
  | op .intersect a b =>
    (a.Overlooked e ∧ b.found e = ⊤) ∨ (a.found e = ⊤ ∧ b.Overlooked e)
  | op .unite a b => a.found e = ⊥ ∧ b.found e = ⊥
  | op .diff _ _ | op .symDiff _ _ => False

def Nice : Tree → Prop
  | pm _ | fm | fetched _ => True
  | op .intersect a b => a.Nice ∧ b.Nice
  | _ => False

def leafs : Tree → List FlatNode
  | pm pmIdxId => [.pmLeaf pmIdxId]
  | fm => []
  | fetched internalIdxId => [.fetchedLeaf internalIdxId]
  | toFm a => a.leafs
  | op _ a b => a.leafs ++ b.leafs

end Tree

def Items.leaf (e : Items) : FlatNode → Finset Nat
  | .pmLeaf pmIdxId => e.stored pmIdxId
  | .fetchedLeaf internalIdxId => e.fetched internalIdxId
  | _ => e.all

theorem IsTree.exists_tree {l : List FlatNode} (h : IsTree l) : ∃ t : Tree, t.nodes = l := by
  induction h with
  | @leaf n hn =>
    cases n with
    | pmLeaf id => exact ⟨.pm id, rfl⟩
    | fmLeaf => exact ⟨.fm, rfl⟩
    | fetchedLeaf id => exact ⟨.fetched id, rfl⟩
    | toFm => cases hn
    | opNode type childB => cases hn
  | toFm _ ih =>
    obtain ⟨a, rfl⟩ := ih
    exact ⟨.toFm a, rfl⟩
  | opNode type _ _ iha ihb =>
    obtain ⟨a, rfl⟩ := iha
    obtain ⟨b, rfl⟩ := ihb
    exact ⟨.op type a b, rfl⟩

namespace Tree

theorem append_nodes_inj {t t' : Tree} {l l' : List FlatNode}
    (h : t.nodes ++ l = t'.nodes ++ l') : t = t' ∧ l = l' := by
  induction t generalizing t' l l' with
  | pm id | fm | fetched id => cases t' <;> simp_all [nodes]
  | toFm a ih =>
    cases t' with
    | toFm a' =>
      obtain ⟨rfl, hl⟩ := ih (List.cons.inj h).2
      exact ⟨rfl, hl⟩
    | _ => simp [nodes] at h
  | op type a b iha ihb =>
    cases t' with
    | op type' a' b' =>
      simp only [nodes, List.cons_append, List.append_assoc, List.cons.injEq,
        FlatNode.opNode.injEq] at h
      obtain ⟨rfl, hrest⟩ := iha h.2
      obtain ⟨rfl, hl⟩ := ihb hrest
      exact ⟨by rw [h.1.1], hl⟩
    | _ => simp [nodes] at h

theorem nodes_inj {t t' : Tree} (h : t.nodes = t'.nodes) : t = t' := by
  have happend : t.nodes ++ [] = t'.nodes ++ [] := by rw [h]
  exact (append_nodes_inj happend).1

section

variable (e : Items) (a b : Tree)

theorem found_pm (pmIdxId : Nat) : (pm pmIdxId).found e = ↑(e.stored pmIdxId) := rfl

theorem found_fm : fm.found e = ⊤ := rfl

theorem found_fetched (internalIdxId : Nat) :
    (fetched internalIdxId).found e = ↑(e.fetched internalIdxId) := rfl

theorem found_toFm :
    (toFm a).found e = if a.isStored e ∨ a.found e ≠ ⊥ then ⊤ else ⊥ := rfl

theorem found_intersect : (op .intersect a b).found e = a.found e ⊓ b.found e := rfl

theorem found_unite : (op .unite a b).found e = a.found e ⊔ b.found e := rfl

theorem found_diff : (op .diff a b).found e =
    if b.found e = ⊤ then ⊥ else ↑(e.of (a.found e) \ e.of (b.found e)) := rfl

theorem found_symDiff :
    (op .symDiff a b).found e = ↑(symmDiff (e.of (a.found e)) (e.of (b.found e))) := rfl

theorem overlooked_intersect : (op .intersect a b).Overlooked e ↔
    (a.Overlooked e ∧ b.found e = ⊤) ∨ (a.found e = ⊤ ∧ b.Overlooked e) := Iff.rfl

theorem isStored_intersect : (op .intersect a b).isStored e =
    ((a.isStored e && decide (b.found e = ⊤)) || (decide (a.found e = ⊤) && b.isStored e)) := rfl

end

variable {e : Items} {a b t : Tree}

theorem found_of_isStored (h : t.isStored e = true) : ∃ id, t.found e = ↑(e.stored id) := by
  induction t with
  | pm id => exact ⟨id, by rw [found_pm]⟩
  | op type a b iha ihb =>
    cases type with
    | intersect =>
      rw [isStored_intersect, Bool.or_eq_true, Bool.and_eq_true, Bool.and_eq_true] at h
      rcases h with ⟨ha, hb⟩ | ⟨ha, hb⟩
      · obtain ⟨id, hid⟩ := iha ha
        exact ⟨id, by rw [found_intersect, hid, of_decide_eq_true hb, inf_top_eq]⟩
      · obtain ⟨id, hid⟩ := ihb hb
        exact ⟨id, by rw [found_intersect, hid, of_decide_eq_true ha, top_inf_eq]⟩
    | _ => simp [isStored] at h
  | _ => simp [isStored] at h

theorem found_ne_top_of_isStored (h : t.isStored e = true) : t.found e ≠ ⊤ := by
  obtain ⟨id, hid⟩ := found_of_isStored h
  rw [hid]
  exact WithTop.coe_ne_top

theorem Overlooked.found_eq_bot (h : t.Overlooked e) : t.found e = ⊥ := by
  induction t with
  | pm id =>
    rw [found_pm, show e.stored id = ∅ from h]
    rfl
  | fm => cases h
  | fetched id =>
    rw [found_fetched, show e.fetched id = ∅ from h]
    rfl
  | toFm a ih =>
    rw [found_toFm, if_neg]
    simp [h.2, ih h.1]
  | op type a b iha ihb =>
    cases type with
    | intersect =>
      rw [found_intersect]
      rcases h with ⟨ha, -⟩ | ⟨-, hb⟩
      · rw [iha ha, bot_inf_eq]
      · rw [ihb hb, inf_bot_eq]
    | unite => rw [found_unite, h.1, h.2, bot_sup_eq]
    | diff => cases h
    | symDiff => cases h

theorem overlooked_of_isStored (h : t.isStored e = true) (hfound : t.found e = ⊥) :
    t.Overlooked e := by
  induction t with
  | pm id =>
    rw [found_pm] at hfound
    exact WithTop.coe_injective hfound
  | op type a b iha ihb =>
    cases type with
    | intersect =>
      rw [isStored_intersect, Bool.or_eq_true, Bool.and_eq_true, Bool.and_eq_true] at h
      rw [found_intersect] at hfound
      rcases h with ⟨ha, hb⟩ | ⟨ha, hb⟩
      · rw [of_decide_eq_true hb, inf_top_eq] at hfound
        exact .inl ⟨iha ha hfound, of_decide_eq_true hb⟩
      · rw [of_decide_eq_true ha, top_inf_eq] at hfound
        exact .inr ⟨of_decide_eq_true ha, ihb hb hfound⟩
    | _ => simp [isStored] at h
  | _ => simp [isStored] at h

theorem Nice.mem_found (h : t.Nice) (id : Nat) :
    (↑({id} : Finset Nat) : WithTop (Finset Nat)) ≤ t.found e ↔ ∀ n ∈ t.leafs, id ∈ e.leaf n := by
  induction t with
  | pm pmIdxId => simp [found_pm, leafs, Items.leaf]
  | fm => simp [found_fm, leafs]
  | fetched internalIdxId => simp [found_fetched, leafs, Items.leaf]
  | toFm a => cases h
  | op type a b iha ihb =>
    cases type with
    | intersect => rw [found_intersect, le_inf_iff, iha h.1, ihb h.2, leafs, List.forall_mem_append]
    | _ => cases h

theorem Nice.found_eq_top (h : t.Nice) (hleafs : t.leafs = []) : t.found e = ⊤ := by
  induction t with
  | pm id | fetched id => simp [leafs] at hleafs
  | fm => rw [found_fm]
  | toFm a => cases h
  | op type a b iha ihb =>
    cases type with
    | intersect =>
      obtain ⟨ha, hb⟩ := List.append_eq_nil_iff.mp hleafs
      rw [found_intersect, iha h.1 ha, ihb h.2 hb, inf_top_eq]
    | _ => cases h

theorem Nice.overlooked_of_single (h : t.Nice) {n : FlatNode} (hleafs : t.leafs = [n])
    (hfound : t.found e = ⊥) : t.Overlooked e := by
  induction t with
  | pm id =>
    rw [found_pm] at hfound
    exact WithTop.coe_injective hfound
  | fm => simp [leafs] at hleafs
  | fetched id =>
    rw [found_fetched] at hfound
    exact WithTop.coe_injective hfound
  | toFm a => cases h
  | op type a b iha ihb =>
    cases type with
    | intersect =>
      rw [found_intersect] at hfound
      rcases List.append_eq_singleton_iff.mp hleafs with ⟨ha, hb⟩ | ⟨ha, hb⟩
      · have htop := h.1.found_eq_top (e := e) ha
        rw [htop, top_inf_eq] at hfound
        exact .inr ⟨htop, ihb h.2 hb hfound⟩
      · have htop := h.2.found_eq_top (e := e) hb
        rw [htop, inf_top_eq] at hfound
        exact .inl ⟨iha h.1 ha hfound, htop⟩
    | _ => cases h

theorem Nice.leafs_eq_nil (h : t.Nice) (hfound : t.found e = ⊤) : t.leafs = [] := by
  induction t with
  | pm id => simp [found_pm] at hfound
  | fm => rfl
  | fetched id => simp [found_fetched] at hfound
  | toFm a => cases h
  | op type a b iha ihb =>
    cases type with
    | intersect =>
      rw [found_intersect, inf_eq_top_iff] at hfound
      rw [leafs, iha h.1 hfound.1, ihb h.2 hfound.2, List.append_nil]
    | _ => cases h

theorem Nice.length_leafs_of_overlooked (h : t.Nice) (hover : t.Overlooked e) :
    t.leafs.length = 1 := by
  induction t with
  | pm id => rfl
  | fm => cases hover
  | fetched id => rfl
  | toFm a => cases h
  | op type a b iha ihb =>
    cases type with
    | intersect =>
      rw [leafs, List.length_append]
      rcases hover with ⟨ha, hb⟩ | ⟨ha, hb⟩
      · rw [iha h.1 ha, h.2.leafs_eq_nil hb, List.length_nil]
      · rw [ihb h.2 hb, h.1.leafs_eq_nil ha, List.length_nil]
    | _ => cases h

end Tree

end Sserialize.TreedCQRImp
