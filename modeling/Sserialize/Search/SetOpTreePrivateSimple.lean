import Sserialize.ItemIndex.ItemIndexIterator
import Sserialize.Search.SetOpTreeBuilder
import Sserialize.Spatial.TreedCQRImpHasHits
import Sserialize.Strings.Utf8

/-!
# `SetOpTreePrivateSimple`

The terms of a query and the two forms in which the tree gives its result: the index of
`doSetOperations` and the iterator of `asItemIndexIterator`. The size of the result is not capped:
with more than 1024 ids allowed the operations that take a limit do without it.
-/

namespace Sserialize

open ItemIndexIterator

namespace ItemIndex

/-- `ItemIndex::unite` of a vector, in the order of `uniteWithTree`. -/
def unite (set : List ItemIndex) : ItemIndex := HalvedFold.foldHalves (apply .unite) empty set

theorem mem_unite (set : List ItemIndex) (id : Nat) :
    id ∈ (unite set).ids ↔ ∃ i ∈ set, id ∈ i.ids := by
  by_cases hset : set = []
  · subst hset
    rw [unite, HalvedFold.foldHalves]
    simp [empty]
  · have hnot : id ∉ (unite set).ids ↔ ∀ i ∈ set, id ∉ i.ids := by
      apply HalvedFold.foldHalves_iff (p := fun i : ItemIndex => id ∉ i.ids) _ empty hset
      intro i j
      rw [mem_apply .unite i j id, SetOp.Holds, not_or]
    rw [← not_iff_not, hnot]
    simp only [not_exists, not_and]

/-- `constrainedIntersect` without a limit. -/
def constrainedIntersectAll (intersect : List ItemIndex) : ItemIndex :=
  if intersect = [] then empty else intersectAll intersect

/-- `fusedIntersectDifference` without a limit. -/
def fusedIntersectDifference (intersect subtract : List ItemIndex) : ItemIndex :=
  if intersect = [] then empty else apply .difference (intersectAll intersect) (unite subtract)

end ItemIndex

namespace SetOpTreePrivateSimple

open SetOpTreePrivateComplex (QuerryType qtPrefix querryType)

/-- What the tree calls of a completer, whose iterators yield the ids of the indices. -/
structure StringCompleter where
  complete : Bytes → QuerryType → ItemIndex
  partialComplete : Bytes → QuerryType → ItemIndexIterator
  sameIds : ∀ str qt, (partialComplete str qt).ids = (complete str qt).ids

structure SelectableOpFilter where
  complete : Bytes → ItemIndex
  partialComplete : Bytes → ItemIndexIterator
  sameIds : ∀ str, (partialComplete str).ids = (complete str).ids

/-- A term of a query. With a filter, to which there is a pointer, its type is `QT_NONE`; without one
it has another type. -/
inductive QueryStringDescription where
  | string (str : Bytes) (qt : QuerryType)
  | filter (str : Bytes) (ef : Nat)
  deriving Repr, DecidableEq

end SetOpTreePrivateSimple

structure SetOpTreePrivateSimple where
  strCompleter : SetOpTreePrivateSimple.StringCompleter
  intersectStrings : List SetOpTreePrivateSimple.QueryStringDescription
  diffStrings : List SetOpTreePrivateSimple.QueryStringDescription
  completions : List (SetOpTreePrivateSimple.QueryStringDescription × ItemIndex)
  ef : List (Bytes × Nat)
  minStrLen : Nat

namespace SetOpTreePrivateSimple

open SetOpTreePrivateComplex (QuerryType qtPrefix querryType)

/-! ## `buildTree` -/

def qtfghFromString (str : Bytes) : Bytes × QuerryType :=
  if str = [] then (str, qtPrefix)
  else if str.head? = some (octet '"') then
    let str := str.tail
    let str := if str.getLast? = some (octet '"') then str.dropLast else str
    (str, querryType 1)
  else
    let (t, str) := if str.head? = some (octet '*') then (1 <<< 2, str.tail) else (1, str)
    let (t, str) := if str.getLast? = some (octet '*') then (t <<< 1, str.dropLast) else (t, str)
    let t := if t = 1 then 8 else t
    (str, querryType t)

inductive QueryStringParserStates where
  | start
  | cpNext
  | readToken
  deriving Repr, DecidableEq

/-- The variables of `handParse`, with the string of the term that is read. -/
structure HandParser where
  state : QueryStringParserStates
  curIsDiff : Bool
  str : Bytes
  intersectStrings : List QueryStringDescription
  diffStrings : List QueryStringDescription

namespace HandParser

def append (p : HandParser) (ucode : Nat) : HandParser :=
  { p with str := p.str ++ (Utf8.sequence ucode).map UInt8.ofNat }

def push (minStrLen : Nat) (p : HandParser) : HandParser :=
  let (str, qt) := qtfghFromString p.str
  if str.length ≥ minStrLen then
    if p.curIsDiff then { p with diffStrings := p.diffStrings ++ [.string str qt] }
    else { p with intersectStrings := p.intersectStrings ++ [.string str qt] }
  else p

def readToken (minStrLen ucode : Nat) (p : HandParser) : HandParser :=
  if ucode = '\\'.toNat then { p with state := .cpNext }
  else if ucode = ' '.toNat then
    { p.push minStrLen with curIsDiff := false, str := [], state := .start }
  else p.append ucode

def step (minStrLen ucode : Nat) (p : HandParser) : HandParser :=
  match p.state with
  | .start =>
    if ucode = '-'.toNat then { p with curIsDiff := true }
    else if ucode = ' '.toNat then { p with curIsDiff := false }
    else readToken minStrLen ucode { p with state := .readToken }
  | .readToken => readToken minStrLen ucode p
  | .cpNext => { p.append ucode with state := .readToken }

/-- The loop over the query, of which every round takes an octet at least. The last term is dropped if
an encoding is not valid. -/
def loop (minStrLen : Nat) : Nat → Bytes → HandParser → HandParser
  | 0, _, p => p
  | rounds + 1, it, p =>
    match Utf8.next it with
    | .error _ => p
    | .ok (ucode, it) =>
      let p := p.step minStrLen ucode
      if it ≠ [] then loop minStrLen rounds it p
      else if p.str ≠ [] then p.push minStrLen
      else p

end HandParser

def handParse (t : SetOpTreePrivateSimple) (qstr : Bytes) : SetOpTreePrivateSimple :=
  if qstr = [] then t
  else
    let p := HandParser.loop t.minStrLen qstr.length qstr
      ⟨.start, false, [], t.intersectStrings, t.diffStrings⟩
    { t with intersectStrings := p.intersectStrings, diffStrings := p.diffStrings }

/-- The parser that is generated from `SetOpTreePrivateSimple_parser.rl` reads the query of a tree
with filters. Which terms it finds is left open. -/
def buildTree
    (ragelParse : SetOpTreePrivateSimple → Bytes →
      List QueryStringDescription × List QueryStringDescription)
    (t : SetOpTreePrivateSimple) (qstr : Bytes) : SetOpTreePrivateSimple :=
  let t := { t with diffStrings := [], intersectStrings := [] }
  if t.ef.length > 0 then
    let (intersectStrings, diffStrings) := ragelParse t qstr
    { t with intersectStrings := intersectStrings, diffStrings := diffStrings }
  else t.handParse qstr

/-! ## The index and the iterator -/

variable (filters : Nat → SelectableOpFilter) (t : SetOpTreePrivateSimple)

def complete : QueryStringDescription → ItemIndex
  | .string str qt => t.strCompleter.complete str qt
  | .filter str ef => (filters ef).complete str

def partialComplete : QueryStringDescription → ItemIndexIterator
  | .string str qt => t.strCompleter.partialComplete str qt
  | .filter str ef => (filters ef).partialComplete str

def completeAll (qsds : List QueryStringDescription)
    (completions : List (QueryStringDescription × ItemIndex)) :
    List (QueryStringDescription × ItemIndex) :=
  qsds.foldl (fun completions qsd => OrderedMap.insert qsd (t.complete filters qsd) completions)
    completions

def doCompletions : SetOpTreePrivateSimple :=
  { t with
    completions :=
      t.completeAll filters t.diffStrings (t.completeAll filters t.intersectStrings t.completions) }

def completionAt (qsd : QueryStringDescription) : Except Fault ItemIndex :=
  match OrderedMap.lookup qsd t.completions with
  | some idx => .ok idx
  | none => .error .outOfRange

def intersectIndices :
    List QueryStringDescription → List ItemIndex → Except Fault (Option (List ItemIndex))
  | [], intersectIdx => .ok (some intersectIdx)
  | qsd :: qsds, intersectIdx => do
    let idx ← t.completionAt qsd
    if idx.size > 0 then intersectIndices qsds (intersectIdx ++ [idx]) else return none

def diffIndices : List QueryStringDescription → List ItemIndex → Except Fault (List ItemIndex)
  | [], diffIdx => .ok diffIdx
  | qsd :: qsds, diffIdx => do
    let idx ← t.completionAt qsd
    diffIndices qsds (if idx.size > 0 then diffIdx ++ [idx] else diffIdx)

def doSetOperations : Except Fault ItemIndex :=
  if t.intersectStrings.length > 0 then do
    match ← t.intersectIndices t.intersectStrings [] with
    | none => return ItemIndex.empty
    | some intersectIdx =>
      let diffIdx ← t.diffIndices t.diffStrings []
      if intersectIdx.length > 0 then
        if diffIdx.length > 0 then
          return ItemIndex.fusedIntersectDifference intersectIdx diffIdx
        else return ItemIndex.constrainedIntersectAll intersectIdx
      else return ItemIndex.empty
  else return ItemIndex.empty

def nonempty (its : List ItemIndexIterator) : List ItemIndexIterator :=
  its.filter fun it => it.maxSize > 0

def intersectTree (its : List ItemIndexIterator) : Except Fault ItemIndexIterator :=
  createTree (setOp .intersect) its 0 its.length

def asItemIndexIterator : Except Fault ItemIndexIterator :=
  if t.intersectStrings.length > 0 then do
    let intersectIts := nonempty (t.intersectStrings.map (t.partialComplete filters))
    let diffIts := nonempty (t.diffStrings.map (t.partialComplete filters))
    if diffIts.length > 0 then
      let first ← intersectTree intersectIts
      let second ← intersectTree diffIts
      return setOp .difference first second
    else
      -- the tree is created but not returned
      let _ ← intersectTree intersectIts
      return ItemIndexIterator.empty
  else return ItemIndexIterator.empty

/-! ## What they have -/

variable {filters t}

theorem partialComplete_ids (qsd : QueryStringDescription) :
    (t.partialComplete filters qsd).ids = (t.complete filters qsd).ids := by
  cases qsd with
  | string str qt => exact t.strCompleter.sameIds str qt
  | filter str ef => exact (filters ef).sameIds str

def Completed (filters : Nat → SelectableOpFilter) (t : SetOpTreePrivateSimple)
    (completions : List (QueryStringDescription × ItemIndex)) : Prop :=
  ∀ entry ∈ completions, entry.2 = t.complete filters entry.1

theorem completed_insert {qsd : QueryStringDescription}
    {completions : List (QueryStringDescription × ItemIndex)} (h : Completed filters t completions) :
    Completed filters t (OrderedMap.insert qsd (t.complete filters qsd) completions) ∧
      ∀ q, q = qsd ∨ q ∈ OrderedMap.keys completions →
        q ∈ OrderedMap.keys (OrderedMap.insert qsd (t.complete filters qsd) completions) := by
  rw [OrderedMap.insert]
  split
  next hmem =>
    refine ⟨h, fun q hq => ?_⟩
    rcases hq with rfl | hq
    · exact hmem
    · exact hq
  next =>
    refine ⟨fun entry hentry => ?_, fun q hq => ?_⟩
    · rcases List.mem_append.mp hentry with hentry | hentry
      · exact h entry hentry
      · rw [List.mem_singleton.mp hentry]
    · rw [OrderedMap.keys_append, List.mem_append]
      rcases hq with rfl | hq
      · exact .inr (List.mem_singleton_self _)
      · exact .inl hq

theorem completed_completeAll (qsds : List QueryStringDescription)
    {completions : List (QueryStringDescription × ItemIndex)} (h : Completed filters t completions) :
    Completed filters t (t.completeAll filters qsds completions) ∧
      ∀ q, q ∈ qsds ∨ q ∈ OrderedMap.keys completions →
        q ∈ OrderedMap.keys (t.completeAll filters qsds completions) := by
  induction qsds generalizing completions with
  | nil => exact ⟨h, fun q hq => hq.resolve_left List.not_mem_nil⟩
  | cons qsd qsds ih =>
    obtain ⟨hinsert, hkeys⟩ := @completed_insert filters t qsd completions h
    obtain ⟨hall, hkeysAll⟩ := ih hinsert
    refine ⟨hall, fun q hq => hkeysAll q ?_⟩
    rw [List.mem_cons, or_assoc, or_left_comm] at hq
    exact hq.imp_right (hkeys q)

variable {qsd : QueryStringDescription}

theorem completionAt_eq (h : Completed filters t t.completions)
    (hqsd : qsd ∈ OrderedMap.keys t.completions) :
    t.completionAt qsd = .ok (t.complete filters qsd) := by
  rw [completionAt]
  split
  next idx hidx =>
    obtain ⟨entry, hentry, rfl⟩ := Option.map_eq_some_iff.mp hidx
    have hkey : entry.1 = qsd := by simpa using List.find?_some hentry
    rw [h entry (List.mem_of_find?_eq_some hentry), hkey]
  next hnone => exact absurd hqsd (OrderedMap.lookup_eq_none.mp hnone)

theorem completionAt_doCompletions (h : Completed filters t t.completions)
    (hqsd : qsd ∈ t.intersectStrings ∨ qsd ∈ t.diffStrings) :
    (t.doCompletions filters).completionAt qsd = .ok (t.complete filters qsd) := by
  obtain ⟨hfirst, hkeysFirst⟩ := completed_completeAll t.intersectStrings h
  obtain ⟨hall, hkeys⟩ := completed_completeAll t.diffStrings hfirst
  exact completionAt_eq (t := t.doCompletions filters) hall
    (hkeys qsd (hqsd.symm.imp_right fun hqsd => hkeysFirst qsd (.inl hqsd)))

variable {c : QueryStringDescription → ItemIndex}

variable {qsds : List QueryStringDescription}

theorem intersectIndices_eq (h : ∀ q ∈ qsds, t.completionAt q = .ok (c q))
    (intersectIdx : List ItemIndex) :
    t.intersectIndices qsds intersectIdx =
      .ok (if ∀ q ∈ qsds, (c q).size > 0 then some (intersectIdx ++ qsds.map c) else none) := by
  induction qsds generalizing intersectIdx with
  | nil =>
    rw [intersectIndices, if_pos (List.forall_mem_nil _), List.map_nil, List.append_nil]
  | cons qsd qsds ih =>
    have ih := ih fun q hq => h q (List.mem_cons_of_mem qsd hq)
    rw [intersectIndices, h qsd List.mem_cons_self, ok_bind]
    by_cases hsize : (c qsd).size > 0
    · rw [if_pos hsize, ih, List.append_assoc, List.map_cons, List.singleton_append]
      simp only [List.forall_mem_cons, hsize, true_and]
    · rw [if_neg hsize, if_neg fun hall => hsize (hall qsd List.mem_cons_self)]
      rfl

theorem diffIndices_eq (h : ∀ q ∈ qsds, t.completionAt q = .ok (c q)) (diffIdx : List ItemIndex) :
    t.diffIndices qsds diffIdx =
      .ok (diffIdx ++ (qsds.map c).filter fun idx => idx.size > 0) := by
  induction qsds generalizing diffIdx with
  | nil => rw [diffIndices, List.map_nil, List.filter_nil, List.append_nil]
  | cons qsd qsds ih =>
    have ih := ih fun q hq => h q (List.mem_cons_of_mem qsd hq)
    rw [diffIndices, h qsd List.mem_cons_self, ok_bind, ih, List.map_cons]
    by_cases hsize : (c qsd).size > 0
    · rw [if_pos hsize, List.filter_cons_of_pos (by simpa using hsize), List.append_assoc,
        List.singleton_append]
    · rw [if_neg hsize, List.filter_cons_of_neg (by simpa using hsize)]

theorem size_pos_of_mem {idx : ItemIndex} {id : Nat} (h : id ∈ idx.ids) : idx.size > 0 :=
  List.length_pos_of_mem h

theorem doSetOperations_spec
    (h : ∀ q, q ∈ t.intersectStrings ∨ q ∈ t.diffStrings → t.completionAt q = .ok (c q)) :
    ∃ idx, t.doSetOperations = .ok idx ∧
      ∀ id, id ∈ idx.ids ↔ t.intersectStrings ≠ [] ∧
        (∀ q ∈ t.intersectStrings, id ∈ (c q).ids) ∧ ∀ q ∈ t.diffStrings, id ∉ (c q).ids := by
  have hempty : ∀ id, id ∉ ItemIndex.empty.ids := fun id => List.not_mem_nil
  by_cases hpos : t.intersectStrings = []
  · refine ⟨ItemIndex.empty, ?_, fun id => iff_of_false (hempty id) fun hid => hid.1 hpos⟩
    rw [doSetOperations, hpos]
    rfl
  have hlength : t.intersectStrings.length > 0 := List.length_pos_iff.mpr hpos
  rw [doSetOperations, if_pos hlength, intersectIndices_eq fun q hq => h q (.inl hq), ok_bind]
  by_cases hsizes : ∀ q ∈ t.intersectStrings, (c q).size > 0
  · have hne : t.intersectStrings.map c ≠ [] := mt List.map_eq_nil_iff.mp hpos
    have hmem : ∀ id, id ∈ (ItemIndex.intersectAll (t.intersectStrings.map c)).ids ↔
        ∀ q ∈ t.intersectStrings, id ∈ (c q).ids := by
      intro id
      rw [ItemIndex.mem_intersectAll hne, List.forall_mem_map]
    rw [if_pos hsizes, List.nil_append]
    dsimp only
    rw [diffIndices_eq fun q hq => h q (.inr hq), ok_bind, List.nil_append,
      if_pos (by rwa [List.length_map])]
    split
    next =>
      refine ⟨_, rfl, fun id => ?_⟩
      rw [ItemIndex.fusedIntersectDifference, if_neg hne, ItemIndex.mem_apply .difference,
        SetOp.Holds, hmem, ItemIndex.mem_unite]
      refine Iff.trans ?_ (and_iff_right hpos).symm
      refine and_congr_right fun _ => ?_
      simp only [List.mem_filter, List.mem_map, decide_eq_true_eq]
      constructor
      · exact fun hnot q hq hid => hnot ⟨c q, ⟨⟨q, hq, rfl⟩, size_pos_of_mem hid⟩, hid⟩
      · rintro hnot ⟨_, ⟨⟨q, hq, rfl⟩, -⟩, hid⟩
        exact hnot q hq hid
    next hdiff =>
      refine ⟨_, rfl, fun id => ?_⟩
      rw [ItemIndex.constrainedIntersectAll, if_neg hne, hmem]
      refine Iff.trans ?_ (and_iff_right hpos).symm
      refine (and_iff_left fun q hq hid => hdiff ?_).symm
      exact List.length_pos_of_mem (List.mem_filter.mpr
        ⟨List.mem_map_of_mem hq, decide_eq_true (size_pos_of_mem hid)⟩)
  · refine ⟨ItemIndex.empty, ?_, fun id => iff_of_false (hempty id) fun hid => hsizes ?_⟩
    · rw [if_neg hsizes]
      rfl
    · exact fun q hq => size_pos_of_mem (hid.2.1 q hq)

/-! ## When both forms agree -/

def Agrees (filters : Nat → SelectableOpFilter) (t : SetOpTreePrivateSimple) : Prop :=
  ∃ it idx, t.asItemIndexIterator filters = .ok it ∧
    (t.doCompletions filters).doSetOperations = .ok idx ∧ it.ids = idx.ids

def inTree (its : List ItemIndexIterator) : List ItemIndexIterator :=
  treeTerms (nonempty its) 0 (nonempty its).length

/-- The trees are created, and the terms that they do not have make no difference. Without a negative
term that may yield something the result has to be empty. -/
def TreesSuffice (pos neg : List ItemIndexIterator) : Prop :=
  TreeInside (nonempty pos).length ∧
    (nonempty neg = [] ∧ (∀ id, (∀ it ∈ pos, id ∈ it.ids) → ∃ it ∈ neg, id ∈ it.ids) ∨
      TreeInside (nonempty neg).length ∧
        ∀ id, (∀ it ∈ inTree pos, id ∈ it.ids) → (∃ it ∈ inTree neg, id ∉ it.ids) →
          (∀ it ∈ pos, id ∈ it.ids) ∧ ∀ it ∈ neg, id ∉ it.ids)

variable {its : List ItemIndexIterator}

theorem mem_of_mem_inTree {it : ItemIndexIterator} (h : it ∈ inTree its) : it ∈ its :=
  List.mem_of_mem_filter (mem_of_mem_treeTerms h)

theorem length_pos_of_treeInside {n : Nat} (h : TreeInside n) : 0 < n := by
  rcases Nat.eq_zero_or_pos n with rfl | hn
  · exact absurd h not_treeInside_zero
  · exact hn

theorem intersectTree_ok (h : TreeInside its.length) :
    ∃ it, intersectTree its = .ok it ∧
      ∀ id, id ∈ it.ids ↔ ∀ x ∈ treeTerms its 0 its.length, id ∈ x.ids :=
  createTree_ok (length_pos_of_treeInside h) le_rfl (.inr h)

theorem intersectTree_error (h : ¬ TreeInside its.length) :
    intersectTree its = .error .undefinedBehaviour :=
  createTree_error h

def positives (filters : Nat → SelectableOpFilter) (t : SetOpTreePrivateSimple) :
    List ItemIndexIterator :=
  t.intersectStrings.map (t.partialComplete filters)

def negatives (filters : Nat → SelectableOpFilter) (t : SetOpTreePrivateSimple) :
    List ItemIndexIterator :=
  t.diffStrings.map (t.partialComplete filters)

theorem doSetOperations_doCompletions (h : Completed filters t t.completions) :
    ∃ idx, (t.doCompletions filters).doSetOperations = .ok idx ∧
      ∀ id, id ∈ idx.ids ↔ t.intersectStrings ≠ [] ∧
        (∀ it ∈ positives filters t, id ∈ it.ids) ∧
        ∀ it ∈ negatives filters t, id ∉ it.ids := by
  obtain ⟨idx, hidx, hmem⟩ := doSetOperations_spec (t := t.doCompletions filters)
    fun q hq => completionAt_doCompletions h hq
  refine ⟨idx, hidx, fun id => ?_⟩
  rw [positives, negatives, List.forall_mem_map, List.forall_mem_map]
  simp only [partialComplete_ids]
  exact hmem id

theorem not_mem_empty (id : Nat) : id ∉ ItemIndexIterator.empty.ids := List.not_mem_nil

theorem asItemIndexIterator_nil (hpos : t.intersectStrings = []) :
    t.asItemIndexIterator filters = .ok ItemIndexIterator.empty := by
  rw [asItemIndexIterator, hpos]
  rfl

section

variable {pos neg : List ItemIndexIterator}

theorem asItemIndexIterator_noDiff (hne : t.intersectStrings ≠ [])
    (hpos : positives filters t = pos)
    (hneg : negatives filters t = neg) (hdiff : nonempty neg = []) :
    t.asItemIndexIterator filters = do
      let _ ← intersectTree (nonempty pos)
      return ItemIndexIterator.empty := by
  rw [positives] at hpos
  rw [negatives] at hneg
  rw [asItemIndexIterator, if_pos (List.length_pos_iff.mpr hne), hpos, hneg, hdiff]
  rfl

theorem asItemIndexIterator_diff (hne : t.intersectStrings ≠ [])
    (hpos : positives filters t = pos)
    (hneg : negatives filters t = neg) (hdiff : nonempty neg ≠ []) :
    t.asItemIndexIterator filters = do
      let first ← intersectTree (nonempty pos)
      let second ← intersectTree (nonempty neg)
      return setOp .difference first second := by
  rw [positives] at hpos
  rw [negatives] at hneg
  rw [asItemIndexIterator, if_pos (List.length_pos_iff.mpr hne), hpos, hneg]
  exact if_pos (List.length_pos_iff.mpr hdiff)

/-- What the trees leave out matters for the positive terms only if there is an id that they have in
common otherwise, and for the negative ones only if one of those left out has such an id. -/
theorem mem_trees_iff (hinside : TreeInside (nonempty neg).length) :
    (∀ id, ((∀ it ∈ inTree pos, id ∈ it.ids) ∧ ¬ ∀ it ∈ inTree neg, id ∈ it.ids) ↔
      (∀ it ∈ pos, id ∈ it.ids) ∧ ∀ it ∈ neg, id ∉ it.ids) ↔
    ∀ id, (∀ it ∈ inTree pos, id ∈ it.ids) → (∃ it ∈ inTree neg, id ∉ it.ids) →
      (∀ it ∈ pos, id ∈ it.ids) ∧ ∀ it ∈ neg, id ∉ it.ids := by
  obtain ⟨it₀, hit₀⟩ : ∃ it, it ∈ inTree neg :=
    exists_mem_treeTerms (length_pos_of_treeInside hinside) le_rfl
  refine forall_congr' fun id => ?_
  have hsome : (¬ ∀ it ∈ inTree neg, id ∈ it.ids) ↔ ∃ it ∈ inTree neg, id ∉ it.ids := by
    rw [not_forall]
    exact exists_congr fun it => Classical.not_imp
  rw [hsome]
  constructor
  · exact fun h hfirst hsecond => h.mp ⟨hfirst, hsecond⟩
  · refine fun h => ⟨fun hid => h hid.1 hid.2, fun hid => ⟨?_, it₀, hit₀, ?_⟩⟩
    · exact fun it hit => hid.1 it (mem_of_mem_inTree hit)
    · exact hid.2 it₀ (mem_of_mem_inTree hit₀)

end

theorem agrees_iff_treesSuffice (h : Completed filters t t.completions) :
    Agrees filters t ↔
      t.intersectStrings = [] ∨ TreesSuffice (positives filters t) (negatives filters t) := by
  obtain ⟨idx, hidx, hmem⟩ := doSetOperations_doCompletions h
  have hagrees : ∀ {it : ItemIndexIterator}, t.asItemIndexIterator filters = .ok it →
      (Agrees filters t ↔ ∀ id, id ∈ it.ids ↔ id ∈ idx.ids) := by
    intro it hit
    constructor
    · rintro ⟨it', idx', hit', hidx', heq⟩
      cases hit.symm.trans hit'
      cases hidx.symm.trans hidx'
      exact fun id => by rw [heq]
    · exact fun hids => ⟨it, idx, hit, hidx, it.ascending.eq_of_mem_iff idx.ascending hids⟩
  have hfault : t.asItemIndexIterator filters = .error .undefinedBehaviour →
      ¬ Agrees filters t := by
    rintro herror ⟨it, -, hit, -⟩
    cases herror.symm.trans hit
  by_cases hne : t.intersectStrings = []
  · rw [hagrees (asItemIndexIterator_nil hne)]
    refine iff_of_true (fun id => iff_of_false (not_mem_empty id) ?_) (.inl hne)
    exact fun hid => ((hmem id).mp hid).1 hne
  simp only [ne_eq, hne, not_false_eq_true, true_and] at hmem
  rw [or_iff_right hne]
  have hnoDiff := @asItemIndexIterator_noDiff filters t _ _ hne rfl rfl
  have hdiff := @asItemIndexIterator_diff filters t _ _ hne rfl rfl
  generalize positives filters t = pos at hnoDiff hdiff hmem ⊢
  generalize negatives filters t = neg at hnoDiff hdiff hmem ⊢
  by_cases hpos : TreeInside (nonempty pos).length
  · obtain ⟨first, hfirst, hmemFirst⟩ := intersectTree_ok hpos
    rw [hfirst, ok_bind] at hnoDiff hdiff
    rw [TreesSuffice, and_iff_right hpos]
    by_cases hnil : nonempty neg = []
    · rw [hagrees (hnoDiff hnil), hnil, and_iff_right rfl, or_iff_left fun hinside =>
        not_treeInside_zero hinside.1]
      refine forall_congr' fun id => ?_
      rw [hmem, iff_false_left (not_mem_empty id), not_and]
      simp only [not_forall, not_not, exists_prop]
    · have hdiff := hdiff hnil
      rw [or_iff_right fun hinside => hnil hinside.1]
      by_cases hneg : TreeInside (nonempty neg).length
      · obtain ⟨second, hsecond, hmemSecond⟩ := intersectTree_ok hneg
        rw [hsecond, ok_bind] at hdiff
        rw [hagrees hdiff, and_iff_right hneg, ← mem_trees_iff hneg]
        refine forall_congr' fun id => ?_
        rw [hmem, mem_setOp .difference, SetOp.Holds, hmemFirst, hmemSecond]
        rfl
      · rw [intersectTree_error hneg] at hdiff
        exact iff_of_false (hfault hdiff) fun hinside => hneg hinside.1
  · rw [intersectTree_error hpos] at hnoDiff hdiff
    refine iff_of_false ?_ fun hsuffice => hpos hsuffice.1
    by_cases hnil : nonempty neg = []
    · exact hfault (hnoDiff hnil)
    · exact hfault (hdiff hnil)

section

variable (filters : Nat → SelectableOpFilter)
  (ragelParse : SetOpTreePrivateSimple → Bytes →
    List QueryStringDescription × List QueryStringDescription)
  (strCompleter : StringCompleter) (ef : List (Bytes × Nat)) (minStrLen : Nat)

def ofQuery (qstr : Bytes) : SetOpTreePrivateSimple :=
  buildTree ragelParse ⟨strCompleter, [], [], [], ef, minStrLen⟩ qstr

theorem buildTree_frame (t : SetOpTreePrivateSimple) (qstr : Bytes) :
    (buildTree ragelParse t qstr).completions = t.completions ∧
      (buildTree ragelParse t qstr).strCompleter = t.strCompleter := by
  rw [buildTree]
  dsimp only
  split
  next => exact ⟨rfl, rfl⟩
  next =>
    rw [handParse]
    split
    next => exact ⟨rfl, rfl⟩
    next => exact ⟨rfl, rfl⟩

theorem completed_ofQuery (qstr : Bytes) :
    Completed filters (ofQuery ragelParse strCompleter ef minStrLen qstr)
      (ofQuery ragelParse strCompleter ef minStrLen qstr).completions := by
  rw [ofQuery, (buildTree_frame ragelParse _ qstr).1]
  exact List.forall_mem_nil _

/-- For a query exactly when it has no positive term or the trees of the iterator suffice. -/
theorem ofQuery_agrees_iff (qstr : Bytes) :
    Agrees filters (ofQuery ragelParse strCompleter ef minStrLen qstr) ↔
      (ofQuery ragelParse strCompleter ef minStrLen qstr).intersectStrings = [] ∨
        TreesSuffice (positives filters (ofQuery ragelParse strCompleter ef minStrLen qstr))
          (negatives filters (ofQuery ragelParse strCompleter ef minStrLen qstr)) :=
  agrees_iff_treesSuffice (completed_ofQuery filters ragelParse strCompleter ef minStrLen qstr)

end

def foundAlways : StringCompleter where
  complete _ _ := ⟨[2], by decide, by decide⟩
  partialComplete _ _ := .ofIndex ⟨[2], by decide, by decide⟩
  sameIds _ _ := rfl

def emptyFilter : SelectableOpFilter where
  complete _ := ItemIndex.empty
  partialComplete _ := ItemIndexIterator.empty
  sameIds _ := rfl

theorem not_agrees :
    ¬ Agrees (fun _ => emptyFilter)
      (ofQuery (fun _ _ => ([], [])) foundAlways [] 0 [octet 'a']) := by
  set t := ofQuery (fun _ _ => ([], [])) foundAlways [] 0 [octet 'a'] with ht
  have hpos : t.intersectStrings = [.string [octet 'a'] 8] := by decide
  have hneg : t.diffStrings = [] := by decide
  have hcompleter : t.strCompleter = foundAlways := (buildTree_frame _ _ _).2
  rw [agrees_iff_treesSuffice (completed_ofQuery _ _ _ _ _ _), ← ht, positives, negatives, hpos, hneg]
  rintro (h | ⟨-, ⟨-, h⟩ | ⟨h, -⟩⟩)
  · cases h
  · have hfound : 2 ∈ (t.partialComplete (fun _ => emptyFilter) (.string [octet 'a'] 8)).ids := by
      rw [partialComplete, hcompleter]
      exact List.mem_singleton_self 2
    obtain ⟨it, hit, -⟩ := h 2 (List.forall_mem_singleton.mpr hfound)
    exact List.not_mem_nil hit
  · exact not_treeInside_zero h

end SetOpTreePrivateSimple

end Sserialize
