import Mathlib.Data.List.OfFn
import Sserialize.Storage.Bytes

/-!
# `reorder`

The elements are swapped in place. Two tables, which are inverse to each other, say where an element
is and which element is at a position.
-/

namespace Sserialize.Reorder

variable {α : Type}

def read (v : List α) (pos : Nat) : Except Fault α :=
  match v[pos]? with
  | some x => .ok x
  | none => .error .undefinedBehaviour

def write (v : List α) (pos : Nat) (x : α) : Except Fault (List α) :=
  if pos < v.length then .ok (v.set pos x) else .error .undefinedBehaviour

def swap (v : List α) (i j : Nat) : Except Fault (List α) := do
  let a ← read v i
  let b ← read v j
  let v ← write v i b
  write v j a

structure State (α : Type) where
  srcDest : List α
  itemToCurPos : List Nat
  posToItem : List Nat

/-- The body of the second loop; positions have `digits` bits. -/
def step (digits : Nat) (reorderMap : Nat → Nat) (s : State α) (i : Nat) :
    Except Fault (State α) := do
  let initialItemPos := reorderMap i % 2 ^ digits
  let realSrcItemPos ← read s.itemToCurPos initialItemPos
  let itemInCurDest ← read s.posToItem i
  let srcDest ← swap s.srcDest i realSrcItemPos
  let itemToCurPos ← write s.itemToCurPos initialItemPos i
  let posToItem ← write s.posToItem i initialItemPos
  let itemToCurPos ← write itemToCurPos itemInCurDest realSrcItemPos
  let posToItem ← write posToItem realSrcItemPos itemInCurDest
  return ⟨srcDest, itemToCurPos, posToItem⟩

/-- `detail::reorder`. -/
def reorderWith (digits : Nat) (srcDest : List α) (reorderMap : Nat → Nat) :
    Except Fault (List α) := do
  let s := srcDest.length % 2 ^ digits
  let state ← (List.range s).foldlM (step digits reorderMap) ⟨srcDest, List.range s, List.range s⟩
  return state.srcDest

/-- `reorder`. The width of the positions depends on the size of the container. -/
def reorder (srcDest : List α) (reorderMap : Nat → Nat) : Except Fault (List α) :=
  if srcDest.length < 2 ^ 16 - 1 then reorderWith 16 srcDest reorderMap
  else if srcDest.length < 2 ^ 32 - 1 then reorderWith 32 srcDest reorderMap
  else reorderWith 64 srcDest reorderMap

/-- The map is a permutation of the positions of a container with `n` elements. -/
structure Permutes (reorderMap : Nat → Nat) (n : Nat) : Prop where
  lt : ∀ i < n, reorderMap i < n
  injective : ∀ i < n, ∀ j < n, reorderMap i = reorderMap j → i = j

/-! ## Tables as functions -/

variable {n : Nat}

variable (f : Fin n → α)

theorem read_ofFn (i : Fin n) : read (List.ofFn f) i = .ok (f i) := by
  rw [read, List.getElem?_ofFn, dif_pos i.isLt]

theorem write_ofFn (i : Fin n) (x : α) :
    write (List.ofFn f) i x = .ok (List.ofFn (Function.update f i x)) := by
  rw [write, if_pos (by rw [List.length_ofFn]; exact i.isLt)]
  apply congrArg
  apply List.ext_getElem
  · simp
  · intro k hk hk'
    rw [List.length_ofFn] at hk'
    rw [List.getElem_set, List.getElem_ofFn, List.getElem_ofFn, Function.update_apply]
    simp only [Fin.ext_iff, eq_comm]

theorem swap_ofFn (i j : Fin n) : swap (List.ofFn f) i j = .ok (List.ofFn (f ∘ Equiv.swap i j)) := by
  rw [swap, read_ofFn, ok_bind, read_ofFn, ok_bind, write_ofFn, ok_bind, write_ofFn,
    Equiv.swap_comm, Equiv.comp_swap_eq_update]

theorem range_eq_ofFn (n : Nat) : List.range n = List.ofFn fun i : Fin n => (i : Nat) := by
  apply List.ext_getElem
  · simp
  · intro k hk hk'
    rw [List.getElem_range, List.getElem_ofFn]

/-! ## The invariant -/

/-- The element that is at position `pos` was at `item pos` before. -/
def stateOf (src : Fin n → α) (item : Equiv.Perm (Fin n)) : State α where
  srcDest := List.ofFn (src ∘ item)
  itemToCurPos := List.ofFn fun i => (item.symm i : Nat)
  posToItem := List.ofFn fun pos => (item pos : Nat)

theorem coe_swap_trans (item : Equiv.Perm (Fin n)) (i j : Fin n) :
    (fun pos => ((Equiv.swap i j).trans item pos : Nat)) =
      Function.update (Function.update (fun pos => (item pos : Nat)) i (item j)) j (item i) := by
  rw [← Equiv.comp_swap_eq_update, Equiv.swap_comm]
  rfl

theorem coe_swap_trans_symm (item : Equiv.Perm (Fin n)) (i j : Fin n) :
    (fun k => (((Equiv.swap i j).trans item).symm k : Nat)) =
      Function.update (Function.update (fun k => (item.symm k : Nat)) (item j) i) (item i) j := by
  have hswap : ((Equiv.swap i j).trans item).symm =
      (Equiv.swap (item j) (item i)).trans item.symm := by
    apply Equiv.ext
    intro k
    have h := item.symm.injective.swap_apply (item j) (item i) k
    rw [item.symm_apply_apply, item.symm_apply_apply, Equiv.swap_comm] at h
    exact h
  rw [hswap, coe_swap_trans, item.symm_apply_apply, item.symm_apply_apply]

variable {reorderMap : Nat → Nat}

theorem step_stateOf {digits : Nat} (src : Fin n → α) (item : Equiv.Perm (Fin n)) (i j : Fin n)
    (hitem : reorderMap i % 2 ^ digits = item j) :
    step digits reorderMap (stateOf src item) i =
      .ok (stateOf src ((Equiv.swap i j).trans item)) := by
  have hcur : read (stateOf src item).itemToCurPos (item j) = .ok j := by
    rw [stateOf, read_ofFn, item.symm_apply_apply]
  rw [step, hitem, hcur, ok_bind, stateOf]
  dsimp only
  rw [read_ofFn, ok_bind, swap_ofFn, ok_bind, write_ofFn, ok_bind, write_ofFn, ok_bind, write_ofFn,
    ok_bind, write_ofFn, ok_bind, ← coe_swap_trans, ← coe_swap_trans_symm]
  rfl

/-- The positions in front of `k` have their elements. -/
def Placed (reorderMap : Nat → Nat) (k : Nat) (item : Equiv.Perm (Fin n)) : Prop :=
  ∀ p : Fin n, p < k → item p = reorderMap p

theorem Placed.swap (h : Permutes reorderMap n) {item : Equiv.Perm (Fin n)} {i j : Fin n}
    (hplaced : Placed reorderMap i item) (hj : item j = reorderMap i) :
    Placed reorderMap (i + 1) ((Equiv.swap i j).trans item) := by
  intro p hp
  rw [Equiv.trans_apply]
  rcases Nat.lt_succ_iff_lt_or_eq.mp hp with hlt | heq
  · have hpi : p ≠ i := Fin.ne_of_lt hlt
    have hpj : p ≠ j := by
      intro hpj
      have hsame : reorderMap p = reorderMap i := by rw [← hplaced p hlt, hpj, hj]
      exact hpi (Fin.ext (h.injective p p.isLt i i.isLt hsame))
    rw [Equiv.swap_apply_of_ne_of_ne hpi hpj]
    exact hplaced p hlt
  · rw [Fin.ext heq, Equiv.swap_apply_left]
    exact hj

theorem loop_spec {digits : Nat} (h : Permutes reorderMap n) (hn : n ≤ 2 ^ digits)
    (src : Fin n → α) {k : Nat} (hk : k ≤ n) :
    ∃ item : Equiv.Perm (Fin n), Placed reorderMap k item ∧
      (List.range k).foldlM (step digits reorderMap) (stateOf src (.refl _)) =
        .ok (stateOf src item) := by
  induction k with
  | zero => exact ⟨.refl _, fun p hp => absurd hp (Nat.not_lt_zero p), rfl⟩
  | succ k ih =>
    obtain ⟨item, hplaced, hloop⟩ := ih (Nat.le_of_lt hk)
    let i : Fin n := ⟨k, hk⟩
    let j : Fin n := item.symm ⟨reorderMap k, h.lt k hk⟩
    have hj : item j = ⟨reorderMap k, h.lt k hk⟩ := item.apply_symm_apply _
    have hitem : reorderMap i % 2 ^ digits = item j := by
      rw [hj]
      exact Nat.mod_eq_of_lt ((h.lt k hk).trans_le hn)
    have hstep := step_stateOf src item i j hitem
    have hnext : Placed reorderMap (i + 1) ((Equiv.swap i j).trans item) :=
      Placed.swap h hplaced (congrArg Fin.val hj)
    refine ⟨(Equiv.swap i j).trans item, hnext, ?_⟩
    rw [List.range_succ, List.foldlM_append, hloop, ok_bind, List.foldlM_cons, hstep]
    rfl

theorem reorderWith_spec {digits : Nat} {srcDest : List α}
    (h : Permutes reorderMap srcDest.length) (hlength : srcDest.length < 2 ^ digits) :
    ∃ result, reorderWith digits srcDest reorderMap = .ok result ∧
      result.length = srcDest.length ∧
      ∀ i < srcDest.length, result[i]? = srcDest[reorderMap i]? := by
  obtain ⟨item, hplaced, hloop⟩ := loop_spec h hlength.le srcDest.get (Nat.le_refl _)
  have hstart : (⟨srcDest, List.range srcDest.length, List.range srcDest.length⟩ : State α) =
      stateOf srcDest.get (.refl _) := by
    rw [range_eq_ofFn]
    exact congrArg (State.mk · _ _) (List.ofFn_get srcDest).symm
  refine ⟨List.ofFn (srcDest.get ∘ item), ?_, List.length_ofFn, fun i hi => ?_⟩
  · rw [reorderWith, Nat.mod_eq_of_lt hlength, hstart, hloop]
    rfl
  · have hitem : (item ⟨i, hi⟩ : Nat) = reorderMap i := hplaced ⟨i, hi⟩ hi
    rw [List.getElem?_ofFn, dif_pos hi, ← hitem, List.getElem?_eq_getElem (item ⟨i, hi⟩).isLt]
    rfl

/-- The element at a position is the one that was at the position of the map before. The size of a
container has 64 bits. -/
theorem reorder_spec (srcDest : List α) (reorderMap : Nat → Nat)
    (hlength : srcDest.length < 2 ^ 64) (h : Permutes reorderMap srcDest.length) :
    ∃ result, reorder srcDest reorderMap = .ok result ∧ result.length = srcDest.length ∧
      ∀ i < srcDest.length, result[i]? = srcDest[reorderMap i]? := by
  rw [reorder]
  split
  next hshort => exact reorderWith_spec h (by omega)
  next =>
    split
    next hshort => exact reorderWith_spec h (by omega)
    next => exact reorderWith_spec h hlength

theorem reorder_spec_rotated :
    ∃ result, reorder [5, 6, 7] (fun i => (i + 1) % 3) = .ok result ∧ result.length = 3 ∧
      ∀ i < 3, result[i]? = [5, 6, 7][(i + 1) % 3]? :=
  reorder_spec [5, 6, 7] (fun i => (i + 1) % 3) (by decide) ⟨by decide, by decide⟩

end Sserialize.Reorder
