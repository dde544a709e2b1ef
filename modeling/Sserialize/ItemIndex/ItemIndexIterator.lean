import Sserialize.ItemIndex.ItemIndex
import Sserialize.Storage.Bytes

namespace Sserialize

namespace SetOp

variable (op : SetOp)

theorem apply_cons_cons (x y : Nat) (xs ys : List Nat) :
    op.apply (x :: xs) (y :: ys) =
      if x < y then SortedMerge.keep op.func.pushFirstSmaller [x] ++ op.apply xs (y :: ys)
      else if y < x then
        SortedMerge.keep op.func.pushSecondSmaller [y] ++ op.apply (x :: xs) ys
      else SortedMerge.keep op.func.pushEqual [x] ++ op.apply xs ys := by
  rw [apply, SortedMerge.merge]
  rfl

theorem apply_nil_left (ys : List Nat) :
    op.apply [] ys = SortedMerge.keep op.func.pushSecondSmaller ys :=
  SortedMerge.merge_nil_left _ _ _ ys

theorem length_apply_le (xs ys : List Nat) : (op.apply xs ys).length ≤ xs.length + ys.length :=
  SortedMerge.length_merge_le xs ys

theorem apply_nil_right (xs : List Nat) :
    op.apply xs [] = SortedMerge.keep op.func.pushFirstSmaller xs :=
  SortedMerge.merge_nil_right _ _ _ xs

end SetOp

structure ItemIndexIteratorSetOp where
  type : SetOp
  first : List Nat
  second : List Nat
  val : Nat
  valid : Bool

namespace ItemIndexIteratorSetOp

def uniteNext (s : ItemIndexIteratorSetOp) : ItemIndexIteratorSetOp :=
  match s.first, s.second with
  | [], [] => { s with valid := false, val := 0 }
  | x :: xs, y :: ys =>
    if x < y then { s with val := x, first := xs }
    else if x > y then { s with val := y, second := ys }
    else { s with val := x, first := xs, second := ys }
  | x :: xs, [] => { s with val := x, first := xs }
  | [], y :: ys => { s with val := y, second := ys }

/-- `intersectNext` for the ids that are left. -/
def intersectNext (type : SetOp) : List Nat → List Nat → ItemIndexIteratorSetOp
  | x :: xs, y :: ys =>
    if x = y then ⟨type, xs, ys, x, true⟩
    else if x < y then intersectNext type xs (y :: ys)
    else intersectNext type (x :: xs) ys
  | xs, [] => ⟨type, xs, [], 0, false⟩
  | [], ys => ⟨type, [], ys, 0, false⟩
termination_by xs ys => xs.length + ys.length

def diffNext (type : SetOp) : List Nat → List Nat → ItemIndexIteratorSetOp
  | x :: xs, y :: ys =>
    if x = y then diffNext type xs ys
    else if x < y then ⟨type, xs, y :: ys, x, true⟩
    else diffNext type (x :: xs) ys
  | x :: xs, [] => ⟨type, xs, [], x, true⟩
  | [], ys => ⟨type, [], ys, 0, false⟩
termination_by xs ys => xs.length + ys.length

def xorNext (type : SetOp) : List Nat → List Nat → ItemIndexIteratorSetOp
  | x :: xs, y :: ys =>
    if x = y then xorNext type xs ys
    else if x < y then ⟨type, xs, y :: ys, x, true⟩
    else ⟨type, x :: xs, ys, y, true⟩
  | x :: xs, [] => ⟨type, xs, [], x, true⟩
  | [], y :: ys => ⟨type, [], ys, y, true⟩
  | [], [] => ⟨type, [], [], 0, false⟩
termination_by xs ys => xs.length + ys.length

def next (s : ItemIndexIteratorSetOp) : ItemIndexIteratorSetOp :=
  match s.type with
  | .unite => s.uniteNext
  | .intersect => intersectNext .intersect s.first s.second
  | .difference => diffNext .difference s.first s.second
  | .symmetricDifference => xorNext .symmetricDifference s.first s.second

def create (type : SetOp) (first second : List Nat) : ItemIndexIteratorSetOp :=
  next ⟨type, first, second, 0, true⟩

/-- The ids of an iteration, of which there are less than `rounds`. -/
def drain : Nat → ItemIndexIteratorSetOp → List Nat
  | 0, _ => []
  | rounds + 1, s => if s.valid then s.val :: drain rounds s.next else []

def left (s : ItemIndexIteratorSetOp) : List Nat := s.type.apply s.first s.second

/-- The iterator stands at the first of the ids, or behind the last one. -/
inductive At (s : ItemIndexIteratorSetOp) : List Nat → Prop
  | done (hvalid : s.valid = false) : At s []
  | id (hvalid : s.valid = true) : At s (s.val :: s.left)

theorem at_of_done (type : SetOp) (first second : List Nat) (val : Nat) :
    At ⟨type, first, second, val, false⟩ [] :=
  .done rfl

theorem at_of_id (type : SetOp) (first second : List Nat) (val : Nat) :
    At ⟨type, first, second, val, true⟩ (val :: type.apply first second) :=
  .id rfl

variable {s : ItemIndexIteratorSetOp}

theorem uniteNext_at (htype : s.type = .unite) (hvalid : s.valid = true) :
    At s.uniteNext (SetOp.unite.apply s.first s.second) := by
  obtain ⟨type, first, second, val, valid⟩ := s
  dsimp only at htype hvalid
  subst htype hvalid
  cases first with
  | nil =>
    rw [SetOp.apply_nil_left]
    cases second with
    | nil => exact at_of_done _ _ _ _
    | cons y ys =>
      have h := at_of_id .unite [] ys y
      rwa [SetOp.apply_nil_left] at h
  | cons x xs =>
    cases second with
    | nil =>
      have h := at_of_id .unite xs [] x
      rw [SetOp.apply_nil_right] at h ⊢
      exact h
    | cons y ys =>
      rw [SetOp.apply_cons_cons, uniteNext]
      dsimp only
      split
      next => exact at_of_id _ _ _ _
      next =>
        split
        next => exact at_of_id _ _ _ _
        next => exact at_of_id _ _ _ _

variable (first second : List Nat)

theorem intersectNext_at :
    At (intersectNext .intersect first second)
      (SetOp.intersect.apply first second) := by
  fun_induction intersectNext SetOp.intersect first second with
  | case1 xs y ys =>
    rw [SetOp.apply_cons_cons, if_neg (lt_irrefl y), if_neg (lt_irrefl y)]
    exact at_of_id _ _ _ _
  | case2 x xs y ys _ hlt ih =>
    rw [SetOp.apply_cons_cons, if_pos hlt]
    exact ih
  | case3 x xs y ys hne hle ih =>
    rw [SetOp.apply_cons_cons, if_neg hle, if_pos (by omega)]
    exact ih
  | case4 xs =>
    rw [SetOp.apply_nil_right]
    exact at_of_done _ _ _ _
  | case5 ys =>
    rw [SetOp.apply_nil_left]
    exact at_of_done _ _ _ _

theorem diffNext_at :
    At (diffNext .difference first second)
      (SetOp.difference.apply first second) := by
  fun_induction diffNext SetOp.difference first second with
  | case1 xs y ys ih =>
    rw [SetOp.apply_cons_cons, if_neg (lt_irrefl y), if_neg (lt_irrefl y)]
    exact ih
  | case2 x xs y ys _ hlt =>
    rw [SetOp.apply_cons_cons, if_pos hlt]
    exact at_of_id _ _ _ _
  | case3 x xs y ys hne hle ih =>
    rw [SetOp.apply_cons_cons, if_neg hle, if_pos (by omega)]
    exact ih
  | case4 x xs =>
    have h := at_of_id .difference xs [] x
    rw [SetOp.apply_nil_right] at h ⊢
    exact h
  | case5 ys =>
    rw [SetOp.apply_nil_left]
    exact at_of_done _ _ _ _

theorem xorNext_at :
    At (xorNext .symmetricDifference first second)
      (SetOp.symmetricDifference.apply first second) := by
  fun_induction xorNext SetOp.symmetricDifference first second with
  | case1 xs y ys ih =>
    rw [SetOp.apply_cons_cons, if_neg (lt_irrefl y), if_neg (lt_irrefl y)]
    exact ih
  | case2 x xs y ys _ hlt =>
    rw [SetOp.apply_cons_cons, if_pos hlt]
    exact at_of_id _ _ _ _
  | case3 x xs y ys hne hle =>
    rw [SetOp.apply_cons_cons, if_neg hle, if_pos (by omega)]
    exact at_of_id _ _ _ _
  | case4 x xs =>
    have h := at_of_id .symmetricDifference xs [] x
    rw [SetOp.apply_nil_right] at h ⊢
    exact h
  | case5 y ys =>
    have h := at_of_id .symmetricDifference [] ys y
    rw [SetOp.apply_nil_left] at h ⊢
    exact h
  | case6 =>
    rw [SetOp.apply_nil_left]
    exact at_of_done _ _ _ _

theorem next_at (hvalid : s.valid = true) : At s.next s.left := by
  rw [next, left]
  split
  next h =>
    rw [h]
    exact uniteNext_at h hvalid
  next h =>
    rw [h]
    exact intersectNext_at _ _
  next h =>
    rw [h]
    exact diffNext_at _ _
  next h =>
    rw [h]
    exact xorNext_at _ _

theorem drain_of_at {ids : List Nat} (h : At s ids) {rounds : Nat} (hrounds : ids.length < rounds) :
    drain rounds s = ids := by
  induction rounds generalizing s ids with
  | zero => exact absurd hrounds (Nat.not_lt_zero _)
  | succ rounds ih =>
    cases h with
    | done hvalid => rw [drain, hvalid, if_neg Bool.false_ne_true]
    | id hvalid =>
      rw [drain, hvalid, if_pos rfl]
      exact congrArg (List.cons s.val) (ih (next_at hvalid) (Nat.lt_of_succ_lt_succ hrounds))

theorem drain_create (type : SetOp) (first second : List Nat) :
    drain (first.length + second.length + 1) (create type first second) =
      type.apply first second :=
  drain_of_at (next_at (s := ⟨type, first, second, 0, true⟩) rfl)
    (Nat.lt_succ_of_le (type.length_apply_le first second))

end ItemIndexIteratorSetOp

structure ItemIndexIterator where
  maxSize : Nat
  ids : List Nat
  ascending : ids.Pairwise (· < ·)

namespace ItemIndexIterator

theorem ascending_nil : ([] : List Nat).Pairwise (· < ·) := List.Pairwise.nil

def empty : ItemIndexIterator where
  maxSize := 0
  ids := []
  ascending := ascending_nil

def ofIndex (idx : ItemIndex) : ItemIndexIterator where
  maxSize := idx.size
  ids := idx.ids
  ascending := idx.ascending

def setOp (type : SetOp) (first second : ItemIndexIterator) : ItemIndexIterator where
  maxSize :=
    match type with
    | .unite | .symmetricDifference => u32 (first.maxSize + second.maxSize)
    | .intersect => min first.maxSize second.maxSize
    | .difference => first.maxSize
  ids :=
    (ItemIndexIteratorSetOp.create type first.ids second.ids).drain
      (first.ids.length + second.ids.length + 1)
  ascending := by
    rw [ItemIndexIteratorSetOp.drain_create]
    exact type.pairwise_apply first.ascending second.ascending

theorem ids_setOp (type : SetOp) (first second : ItemIndexIterator) :
    (setOp type first second).ids = type.apply first.ids second.ids :=
  ItemIndexIteratorSetOp.drain_create type first.ids second.ids

theorem mem_setOp (type : SetOp) (first second : ItemIndexIterator) (id : Nat) :
    id ∈ (setOp type first second).ids ↔ type.Holds (id ∈ first.ids) (id ∈ second.ids) := by
  rw [ids_setOp]
  exact type.mem_apply first.ascending second.ascending id

def readAt (its : List ItemIndexIterator) (pos : Nat) : Except Fault ItemIndexIterator :=
  match its[pos]? with
  | some it => .ok it
  | none => .error .undefinedBehaviour

/-- `createTree` for the range from `b` to `e`. For an empty range it calls itself with the same
range, without an end. -/
def createTree (fp : ItemIndexIterator → ItemIndexIterator → ItemIndexIterator)
    (its : List ItemIndexIterator) (b e : Nat) : Except Fault ItemIndexIterator :=
  if e - b = 2 then do
    let first ← readAt its b
    let second ← readAt its e
    return fp first second
  else if e - b = 1 then readAt its b
  else if e - b = 0 then .error .undefinedBehaviour
  else do
    let first ← createTree fp its b (b + (e - b) / 2)
    let second ← createTree fp its (b + (e - b) / 2 + 1) e
    return fp first second
termination_by e - b

def treePositions (b e : Nat) : List Nat :=
  if e - b = 2 then [b, e]
  else if e - b = 1 then [b]
  else if e - b = 0 then []
  else treePositions b (b + (e - b) / 2) ++ treePositions (b + (e - b) / 2 + 1) e
termination_by e - b

def treeTerms (its : List ItemIndexIterator) (b e : Nat) : List ItemIndexIterator :=
  (treePositions b e).filterMap fun pos => its[pos]?

/-- The tree of `n` iterators does not need the one behind the last one: the binary form of `n + 1`
starts with 10. -/
def TreeInside (n : Nat) : Prop := ∃ k, 2 ^ (k + 1) ≤ n + 1 ∧ n + 1 < 3 * 2 ^ k

theorem not_treeInside_zero : ¬ TreeInside 0 := by
  rintro ⟨k, hlow, -⟩
  have hpow := Nat.one_lt_two_pow (Nat.succ_ne_zero k)
  omega

theorem treeInside_one : TreeInside 1 := ⟨0, by decide⟩

theorem not_treeInside_two : ¬ TreeInside 2 := by
  rintro ⟨k, hlow, hhigh⟩
  cases k with
  | zero => omega
  | succ k =>
    have hpow := Nat.one_le_two_pow (n := k)
    rw [Nat.pow_succ, Nat.pow_succ] at hlow
    omega

theorem treeInside_half {n : Nat} (hn : 3 ≤ n) : TreeInside ((n - 1) / 2) ↔ TreeInside n := by
  constructor
  · rintro ⟨k, hlow, hhigh⟩
    refine ⟨k + 1, ?_, ?_⟩
    · rw [Nat.pow_succ]
      omega
    · rw [Nat.pow_succ]
      omega
  · rintro ⟨k, hlow, hhigh⟩
    cases k with
    | zero => omega
    | succ k =>
      rw [Nat.pow_succ] at hlow hhigh
      exact ⟨k, by omega, by omega⟩

section

variable {fp : ItemIndexIterator → ItemIndexIterator → ItemIndexIterator}
  {its : List ItemIndexIterator} {b e : Nat}

theorem readAt_of_lt {pos : Nat} (h : pos < its.length) : readAt its pos = .ok its[pos] := by
  rw [readAt, List.getElem?_eq_getElem h]

theorem readAt_of_le {pos : Nat} (h : its.length ≤ pos) :
    readAt its pos = .error .undefinedBehaviour := by
  rw [readAt, List.getElem?_eq_none h]

theorem createTree_zero (h : e - b = 0) :
    createTree fp its b e = .error .undefinedBehaviour := by
  rw [createTree, if_neg (by omega), if_neg (by omega), if_pos h]

theorem createTree_one (h : e - b = 1) : createTree fp its b e = readAt its b := by
  rw [createTree, if_neg (by omega), if_pos h]

theorem createTree_two (h : e - b = 2) :
    createTree fp its b e = do
      let first ← readAt its b
      let second ← readAt its e
      return fp first second := by
  rw [createTree, if_pos h]

theorem createTree_many (h : 3 ≤ e - b) :
    createTree fp its b e = do
      let first ← createTree fp its b (b + (e - b) / 2)
      let second ← createTree fp its (b + (e - b) / 2 + 1) e
      return fp first second := by
  rw [createTree, if_neg (by omega), if_neg (by omega), if_neg (by omega)]

theorem treeTerms_one (h : e - b = 1) (hb : b < its.length) : treeTerms its b e = [its[b]] := by
  rw [treeTerms, treePositions, if_neg (by omega), if_pos h, List.filterMap_cons,
    List.getElem?_eq_getElem hb, List.filterMap_nil]

theorem treeTerms_two (h : e - b = 2) (hb : b < its.length) (he : e < its.length) :
    treeTerms its b e = [its[b], its[e]] := by
  rw [treeTerms, treePositions, if_pos h, List.filterMap_cons, List.getElem?_eq_getElem hb,
    List.filterMap_cons, List.getElem?_eq_getElem he, List.filterMap_nil]

theorem treeTerms_many (h : 3 ≤ e - b) :
    treeTerms its b e =
      treeTerms its b (b + (e - b) / 2) ++ treeTerms its (b + (e - b) / 2 + 1) e := by
  rw [treeTerms, treePositions, if_neg (by omega), if_neg (by omega), if_neg (by omega),
    List.filterMap_append]
  rfl

theorem mem_of_mem_treeTerms {x : ItemIndexIterator} (h : x ∈ treeTerms its b e) : x ∈ its := by
  obtain ⟨pos, -, hpos⟩ := List.mem_filterMap.mp h
  exact List.mem_of_getElem? hpos

theorem mem_treePositions_first (h : b < e) : b ∈ treePositions b e := by
  induction hn : e - b using Nat.strong_induction_on generalizing b e with
  | _ n ih =>
    subst hn
    rw [treePositions]
    split
    next => exact List.mem_cons_self
    next =>
      split
      next => exact List.mem_cons_self
      next =>
        rw [if_neg (by omega)]
        exact List.mem_append_left _ (ih (b + (e - b) / 2 - b) (by omega) (by omega) rfl)

theorem exists_mem_treeTerms (h : b < e) (he : e ≤ its.length) : ∃ x, x ∈ treeTerms its b e := by
  have hb : b < its.length := h.trans_le he
  exact ⟨its[b], List.mem_filterMap.mpr
    ⟨b, mem_treePositions_first h, List.getElem?_eq_getElem hb⟩⟩

theorem createTree_ok (hbe : b < e) (he : e ≤ its.length)
    (hinside : e < its.length ∨ TreeInside (e - b)) :
    ∃ it, createTree (setOp .intersect) its b e = .ok it ∧
      ∀ id, id ∈ it.ids ↔ ∀ x ∈ treeTerms its b e, id ∈ x.ids := by
  induction hn : e - b using Nat.strong_induction_on generalizing b e with
  | _ n ih =>
    subst hn
    by_cases hone : e - b = 1
    · have hb : b < its.length := by omega
      refine ⟨its[b], ?_, fun id => ?_⟩
      · rw [createTree_one hone, readAt_of_lt hb]
      · rw [treeTerms_one hone hb, List.forall_mem_singleton]
    · by_cases htwo : e - b = 2
      · have hb : b < its.length := by omega
        have he' : e < its.length := hinside.resolve_right (htwo ▸ not_treeInside_two)
        refine ⟨setOp .intersect its[b] its[e], ?_, fun id => ?_⟩
        · rw [createTree_two htwo, readAt_of_lt hb, ok_bind, readAt_of_lt he', ok_bind]
          rfl
        · rw [treeTerms_two htwo hb he', List.forall_mem_cons, List.forall_mem_singleton]
          exact mem_setOp .intersect its[b] its[e] id
      · have hmany : 3 ≤ e - b := by omega
        obtain ⟨first, hfirst, hmemFirst⟩ := ih (b + (e - b) / 2 - b) (by omega)
          (by omega) (by omega) (.inl (by omega)) rfl
        have hhalf : e - (b + (e - b) / 2 + 1) = (e - b - 1) / 2 := by omega
        obtain ⟨second, hsecond, hmemSecond⟩ := ih (e - (b + (e - b) / 2 + 1)) (by omega)
          (by omega) he (hinside.imp_right fun h => hhalf ▸ (treeInside_half hmany).mpr h) rfl
        refine ⟨setOp .intersect first second, ?_, fun id => ?_⟩
        · rw [createTree_many hmany, hfirst, ok_bind, hsecond, ok_bind]
          rfl
        · rw [treeTerms_many hmany, List.forall_mem_append, ← hmemFirst, ← hmemSecond]
          exact mem_setOp .intersect first second id

theorem createTree_error (hinside : ¬ TreeInside (its.length - b)) :
    createTree (setOp .intersect) its b its.length = .error .undefinedBehaviour := by
  induction hn : its.length - b using Nat.strong_induction_on generalizing b with
  | _ n ih =>
    subst hn
    by_cases hzero : its.length - b = 0
    · exact createTree_zero hzero
    · have hone : its.length - b ≠ 1 := fun h => hinside (h ▸ treeInside_one)
      by_cases htwo : its.length - b = 2
      · rw [createTree_two htwo, readAt_of_lt (by omega), ok_bind, readAt_of_le (le_refl _)]
        rfl
      · have hmany : 3 ≤ its.length - b := by omega
        have hhalf : its.length - (b + (its.length - b) / 2 + 1) = (its.length - b - 1) / 2 := by
          omega
        obtain ⟨first, hfirst, -⟩ := @createTree_ok its b (b + (its.length - b) / 2) (by omega)
          (by omega) (.inl (by omega))
        have hsecond := ih (its.length - (b + (its.length - b) / 2 + 1)) (by omega)
          (b := b + (its.length - b) / 2 + 1)
          (hhalf ▸ fun h => hinside ((treeInside_half hmany).mp h)) rfl
        rw [createTree_many hmany, hfirst, ok_bind, hsecond]
        rfl

end

end ItemIndexIterator

end Sserialize
