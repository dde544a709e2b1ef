import Sserialize.ItemIndex.ItemIndexIterator
import Sserialize.Search.SetOpTreeEvaluate

/-!
# `asItemIndexIterator`

A second recursion over the tree builds iterators instead of indices. What the completer and the
filters return as iterators is given from outside; an iterator is copied before it is moved if it is
shared, so that iterators are values.
-/

namespace Sserialize

structure ItemIndexIteratorPrivateItemIndex where
  index : ItemIndex
  pos : Nat
  cur : Nat

namespace ItemIndexIteratorPrivateItemIndex

def new (idx : ItemIndex) : ItemIndexIteratorPrivateItemIndex :=
  if idx.size ≠ 0 then ⟨idx, 0, idx.ids.getD 0 0⟩ else ⟨idx, 1, 0⟩

def valid (it : ItemIndexIteratorPrivateItemIndex) : Bool := it.pos < it.index.size

def next (it : ItemIndexIteratorPrivateItemIndex) : ItemIndexIteratorPrivateItemIndex :=
  if it.pos + 1 < it.index.size then
    { it with pos := it.pos + 1, cur := it.index.ids.getD (it.pos + 1) 0 }
  else { it with pos := it.index.size, cur := 0 }

/-- The ids of an iteration, of which there are less than `rounds`. -/
def drain : Nat → ItemIndexIteratorPrivateItemIndex → List Nat
  | 0, _ => []
  | rounds + 1, it => if it.valid then it.cur :: drain rounds it.next else []

theorem drain_of_valid {it : ItemIndexIteratorPrivateItemIndex} {rounds : Nat}
    (hcur : it.pos < it.index.size → it.cur = it.index.ids.getD it.pos 0)
    (hrounds : it.index.size < it.pos + rounds) : drain rounds it = it.index.ids.drop it.pos := by
  induction rounds generalizing it with
  | zero => exact (List.drop_eq_nil_of_le (Nat.le_of_lt hrounds)).symm
  | succ rounds ih =>
    rw [drain, valid]
    by_cases hvalid : it.pos < it.index.size
    · rw [if_pos (decide_eq_true hvalid), hcur hvalid, List.getD_eq_getElem _ _ hvalid,
        List.drop_eq_getElem_cons hvalid]
      apply congrArg
      by_cases hnext : it.pos + 1 < it.index.size
      · rw [next, if_pos hnext, ih (fun _ => rfl) (by dsimp only; omega)]
      · rw [next, if_neg hnext, ih (fun h => absurd h (Nat.lt_irrefl _)) (by dsimp only; omega),
          List.drop_eq_nil_of_le (Nat.le_of_not_lt hnext)]
        exact List.drop_eq_nil_of_le (Nat.le_refl _)
    · rw [if_neg (by simpa using hvalid), List.drop_eq_nil_of_le (Nat.le_of_not_lt hvalid)]

theorem drain_new (idx : ItemIndex) : drain (idx.size + 1) (new idx) = idx.ids := by
  rw [new]
  split
  next => exact drain_of_valid (fun _ => rfl) (by dsimp only; omega)
  next hempty =>
    have hnil : idx.ids = [] := List.length_eq_zero_iff.mp (not_not.mp hempty)
    rw [drain_of_valid (fun h => absurd h (by dsimp only; omega)) (by dsimp only; omega), hnil]
    rfl

def iterator (idx : ItemIndex) : ItemIndexIterator where
  maxSize := idx.size
  ids := drain (idx.size + 1) (new idx)
  ascending := by
    rw [drain_new]
    exact idx.ascending

end ItemIndexIteratorPrivateItemIndex

namespace SetOpTreePrivateComplex

/-- `partialComplete` of the completer and of the filters, and the call of a filter with an
iterator. -/
structure PartialCompleter where
  partialComplete : Bytes → QuerryType → ItemIndexIterator
  efPartialComplete : SelectableOpFilter → Bytes → ItemIndexIterator
  efApply : SelectableOpFilter → SupportedOps → Bytes → ItemIndexIterator → ItemIndexIterator

/-- The iterators yield the ids of the index that the same call returns for indices. -/
structure PartialCompleter.Lawful (strCompleter : Bytes → QuerryType → ItemIndex)
    (p : PartialCompleter) : Prop where
  complete : ∀ str qt, (p.partialComplete str qt).ids = (strCompleter str qt).ids
  efComplete : ∀ ef str, (p.efPartialComplete ef str).ids = (ef.complete str).ids
  efApply : ∀ ef op str (it : ItemIndexIterator) (idx : ItemIndex), it.ids = idx.ids →
    (p.efApply ef op str it).ids = (ef.apply op str idx).ids

variable (p : PartialCompleter)

/-- `(*(node->externalFunc))(op, node->completeString, partner)`. -/
def iteratorApply (op : SupportedOps) (partner : ItemIndexIterator) : Node → ItemIndexIterator
  | .external _ str ef => p.efApply ef op str partner
  | _ => ItemIndexIterator.empty

def createItemIndexIteratorTree : Node → ItemIndexIterator
  | .invalid => ItemIndexIterator.empty
  | .complete cached str cqtype =>
    match cached with
    | some idx => ItemIndexIteratorPrivateItemIndex.iterator idx
    | none => p.partialComplete str cqtype
  | .external cached str ef =>
    match cached with
    | some idx => ItemIndexIteratorPrivateItemIndex.iterator idx
    | none => p.efPartialComplete ef str
  | .operation (some idx) _ _ _ => ItemIndexIteratorPrivateItemIndex.iterator idx
  | .operation none none _ _ => ItemIndexIterator.empty
  | .operation none (some op) left right =>
    if left.efSupport (firstOp op) then
      iteratorApply p (firstOp op) (createItemIndexIteratorTree right) left
    else if right.efSupport (secondOp op) then
      iteratorApply p (secondOp op) (createItemIndexIteratorTree left) right
    else
      ItemIndexIterator.setOp op (createItemIndexIteratorTree left)
        (createItemIndexIteratorTree right)

def asItemIndexIterator (t : SetOpTreePrivateComplex) : ItemIndexIterator :=
  match t.rootNode with
  | none => ItemIndexIterator.empty
  | some node => createItemIndexIteratorTree p node

variable {p} {strCompleter : Bytes → QuerryType → ItemIndex}

theorem ids_iteratorApply (hp : p.Lawful strCompleter) (op : SupportedOps)
    {partner : ItemIndexIterator} {idx : ItemIndex} (h : partner.ids = idx.ids) (n : Node) :
    (iteratorApply p op partner n).ids = (n.efApply op idx).ids := by
  cases n with
  | external cached str ef => exact hp.efApply ef op str partner idx h
  | _ => rfl

/-- A node may have any index from before, which both recursions take as it is. -/
theorem ids_tree (hp : p.Lawful strCompleter) {completions : Completions} {n : Node}
    (hcompleted : Completed strCompleter completions n) :
    ∃ idx n', doSetOperationsRecurse completions n = .ok (idx, n') ∧
      (createItemIndexIteratorTree p n).ids = idx.ids := by
  induction n with
  | invalid => exact ⟨_, _, rfl, rfl⟩
  | complete cached str cqtype =>
    cases cached with
    | some idx => exact ⟨_, _, rfl, ItemIndexIteratorPrivateItemIndex.drain_new idx⟩
    | none =>
      refine ⟨strCompleter str cqtype, .complete (some (strCompleter str cqtype)) str cqtype, ?_,
        hp.complete str cqtype⟩
      rw [doSetOperationsRecurse, hcompleted.completionAt]
      rfl
  | external cached str ef =>
    cases cached with
    | some idx => exact ⟨_, _, rfl, ItemIndexIteratorPrivateItemIndex.drain_new idx⟩
    | none => exact ⟨_, _, rfl, hp.efComplete ef str⟩
  | operation cached type left right ihl ihr =>
    cases cached with
    | some idx => exact ⟨_, _, rfl, ItemIndexIteratorPrivateItemIndex.drain_new idx⟩
    | none =>
      cases type with
      | none => exact ⟨_, _, rfl, rfl⟩
      | some op =>
        obtain ⟨first, left', hl, hfirst⟩ := ihl hcompleted.left
        obtain ⟨second, right', hr, hsecond⟩ := ihr hcompleted.right
        rw [createItemIndexIteratorTree, doSetOperationsRecurse]
        split
        next =>
          rw [hr]
          exact ⟨_, _, rfl, ids_iteratorApply hp _ hsecond left⟩
        next =>
          split
          next =>
            rw [hl]
            exact ⟨_, _, rfl, ids_iteratorApply hp _ hfirst right⟩
          next =>
            rw [hl, ok_bind]
            dsimp only
            rw [hr]
            refine ⟨ItemIndex.apply op first second, _, rfl, ?_⟩
            rw [ItemIndexIterator.ids_setOp, hfirst, hsecond]
            rfl

/-- The iterator yields the ids of the index of the tree, for which the map has the results for its
strings. -/
theorem asItemIndexIterator_ids (strCompleter : Bytes → QuerryType → ItemIndex)
    (p : PartialCompleter) (hp : p.Lawful strCompleter) (t : SetOpTreePrivateComplex)
    (ht : ∀ n, t.rootNode = some n → Completed strCompleter t.completions n) :
    ∃ idx t', doSetOperations t = .ok (idx, t') ∧ (asItemIndexIterator p t).ids = idx.ids ∧
      (asItemIndexIterator p t).ids.Pairwise (· < ·) := by
  suffices h : ∃ idx t', doSetOperations t = .ok (idx, t') ∧
      (asItemIndexIterator p t).ids = idx.ids by
    obtain ⟨idx, t', hidx, hids⟩ := h
    exact ⟨idx, t', hidx, hids, (asItemIndexIterator p t).ascending⟩
  rw [doSetOperations, asItemIndexIterator]
  cases hroot : t.rootNode with
  | none => exact ⟨_, _, rfl, rfl⟩
  | some n =>
    obtain ⟨idx, n', hrecurse, hids⟩ := ids_tree hp (ht n hroot)
    refine ⟨idx, { t with rootNode := some n' }, ?_, hids⟩
    dsimp only
    rw [hrecurse]
    rfl

def eager (strCompleter : Bytes → QuerryType → ItemIndex) : PartialCompleter where
  partialComplete str qt := ItemIndexIteratorPrivateItemIndex.iterator (strCompleter str qt)
  efPartialComplete ef str := ItemIndexIteratorPrivateItemIndex.iterator (ef.complete str)
  efApply ef op str it :=
    if h : ∀ id ∈ it.ids, id < 2 ^ 32 then
      ItemIndexIteratorPrivateItemIndex.iterator (ef.apply op str ⟨it.ids, it.ascending, h⟩)
    else ItemIndexIterator.empty

theorem lawful_eager (strCompleter : Bytes → QuerryType → ItemIndex) :
    (eager strCompleter).Lawful strCompleter where
  complete str qt := ItemIndexIteratorPrivateItemIndex.drain_new _
  efComplete ef str := ItemIndexIteratorPrivateItemIndex.drain_new _
  efApply ef op str it idx h := by
    obtain ⟨maxSize, ids, ascending⟩ := it
    obtain ⟨ids', ascending', inRange⟩ := idx
    obtain rfl : ids = ids' := h
    have hpos : (eager strCompleter).efApply ef op str ⟨maxSize, ids, ascending⟩ =
        ItemIndexIteratorPrivateItemIndex.iterator (ef.apply op str ⟨ids, ascending, inRange⟩) :=
      dif_pos inRange
    rw [hpos]
    exact ItemIndexIteratorPrivateItemIndex.drain_new _

def letters (str : Bytes) (_ : QuerryType) : ItemIndex :=
  if str = [97] then ⟨[1, 3], by decide, by decide⟩ else ⟨[2, 3], by decide, by decide⟩

/-- `a + (b / a)`, of which `b / a` was evaluated before, with another completer. -/
def evaluatedBefore : SetOpTreePrivateComplex where
  completions := [[97], [98]].map fun str => ((str, qtPrefix), letters str qtPrefix)
  rootNode := some (.operation none (some .unite) (.complete none [97] qtPrefix)
    (.operation (some ⟨[3, 8], by decide, by decide⟩) (some .intersect)
      (.complete none [98] qtPrefix) (.complete none [97] qtPrefix)))
  queryString := []

theorem asItemIndexIterator_ids_evaluatedBefore :
    (asItemIndexIterator (eager letters) evaluatedBefore).ids = [1, 3, 8] ∧
    ∃ idx t', doSetOperations evaluatedBefore = .ok (idx, t') ∧
      (asItemIndexIterator (eager letters) evaluatedBefore).ids = idx.ids ∧
      (asItemIndexIterator (eager letters) evaluatedBefore).ids.Pairwise (· < ·) := by
  refine ⟨by decide, asItemIndexIterator_ids _ _ (lawful_eager _) evaluatedBefore fun n hn => ?_⟩
  obtain rfl := Option.some.inj hn
  intro key hkey
  simp only [Node.completionKeys, List.mem_append, List.mem_singleton] at hkey
  obtain rfl | rfl | rfl := hkey <;> rfl

end SetOpTreePrivateComplex

end Sserialize
