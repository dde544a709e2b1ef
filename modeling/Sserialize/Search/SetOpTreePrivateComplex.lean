import Sserialize.Search.SetOpTreeBuilder
import Sserialize.Strings.Utf8

/-!
# `SetOpTreePrivateComplex`

The evaluation of a tree, plain and with the tree of the last query as a reference, and `update`.
The completer is a function of a string and its query type.
-/

namespace Sserialize

namespace SetOpTreePrivateComplex

def completionAt (completions : Completions) (key : Bytes × QuerryType) : Except Fault ItemIndex :=
  match OrderedMap.lookup key completions with
  | some idx => .ok idx
  | none => .error .outOfRange

def firstOp : SetOp → SupportedOps
  | .difference => .opDiffFirst
  | .intersect => .opIntersect
  | .symmetricDifference => .opXor
  | .unite => .opUnite

def secondOp : SetOp → SupportedOps
  | .difference => .opDiffSecond
  | .intersect => .opIntersect
  | .symmetricDifference => .opXor
  | .unite => .opUnite

/-- `doSetOperationsRecurse`: the index, and the node with what is cached then. -/
def doSetOperationsRecurse (completions : Completions) : Node → Except Fault (ItemIndex × Node)
  | .invalid => .ok (ItemIndex.empty, .invalid)
  | .complete (some idx) str cqtype => .ok (idx, .complete (some idx) str cqtype)
  | .complete none str cqtype => do
    let idx ← completionAt completions (str, cqtype)
    return (idx, .complete (some idx) str cqtype)
  | .external (some idx) str ef => .ok (idx, .external (some idx) str ef)
  | .external none str ef => .ok (ef.complete str, .external (some (ef.complete str)) str ef)
  | .operation (some idx) type left right => .ok (idx, .operation (some idx) type left right)
  | .operation none none left right => .ok (ItemIndex.empty, .operation none none left right)
  | .operation none (some op) left right => do
    if left.efSupport (firstOp op) then
      let (partner, right) ← doSetOperationsRecurse completions right
      let idx := left.efApply (firstOp op) partner
      return (idx, .operation (some idx) (some op) left right)
    else if right.efSupport (secondOp op) then
      let (partner, left) ← doSetOperationsRecurse completions left
      let idx := right.efApply (secondOp op) partner
      return (idx, .operation (some idx) (some op) left right)
    else
      let (first, left) ← doSetOperationsRecurse completions left
      let (second, right) ← doSetOperationsRecurse completions right
      let idx := ItemIndex.apply op first second
      return (idx, .operation (some idx) (some op) left right)

inductive TreeDiffTypes where
  | subset
  | superset
  | equal
  | different
  deriving Repr, DecidableEq

/-- The loop of `completionStringDifference`; the rounds are bounded by the length of the new
string. -/
def completionStringDifferenceLoop : Nat → Bytes → Bytes → Except Fault TreeDiffTypes
  | 0, newIt, oldIt =>
    .ok (if newIt ≠ [] then .subset else if oldIt ≠ [] then .superset else .equal)
  | rounds + 1, newIt, oldIt =>
    if newIt ≠ [] ∧ oldIt ≠ [] then do
      let (newItCode, newIt) ← Utf8.next newIt
      let (oldItCode, oldIt) ← Utf8.next oldIt
      if newItCode ≠ oldItCode then return .different
      else completionStringDifferenceLoop rounds newIt oldIt
    else .ok (if newIt ≠ [] then .subset else if oldIt ≠ [] then .superset else .equal)

def completionStringDifference (newString oldString : Bytes) : Except Fault TreeDiffTypes :=
  completionStringDifferenceLoop newString.length newString oldString

def skipsChild : Node → Node → Bool
  | .external _ str _, .external _ refStr _ => str ≠ refStr
  | _, _ => false

/-- The end of the case of an intersection, behind the evaluation of the children. The third
condition is the second one again. -/
def intersectUpdate (completions : Completions) (refIndex : ItemIndex)
    (lIdx : ItemIndex) (lDiff : TreeDiffTypes) (left : Node)
    (rIdx : ItemIndex) (rDiff : TreeDiffTypes) (right : Node) :
    Except Fault (ItemIndex × Node) :=
  if lDiff = .equal ∧ rDiff = .equal then
    .ok (refIndex, .operation (some refIndex) (some .intersect) left right)
  else if lDiff = .subset ∧ rDiff = .equal then
    let idx := ItemIndex.apply .intersect lIdx refIndex
    .ok (idx, .operation (some idx) (some .intersect) left right)
  else if lDiff = .subset ∧ rDiff = .equal then
    let idx := ItemIndex.apply .intersect refIndex rIdx
    .ok (idx, .operation (some idx) (some .intersect) left right)
  else if left.efSupport .opIntersect then do
    let (partner, right) ← doSetOperationsRecurse completions right
    let idx := left.efApply .opIntersect partner
    return (idx, .operation (some idx) (some .intersect) left right)
  else if right.efSupport .opIntersect then do
    let (partner, left) ← doSetOperationsRecurse completions left
    let idx := right.efApply .opIntersect partner
    return (idx, .operation (some idx) (some .intersect) left right)
  else
    let idx := ItemIndex.apply .intersect lIdx rIdx
    .ok (idx, .operation (some idx) (some .intersect) left right)

def doSetOperationsUpdate (completions : Completions) :
    Node → Option Node → Except Fault (ItemIndex × TreeDiffTypes × Node)
  | .invalid, _ => .ok (ItemIndex.empty, .different, .invalid)
  | .complete (some idx) str cqtype, _ => .ok (idx, .different, .complete (some idx) str cqtype)
  | .complete none str cqtype, refTree => do
    let diff ←
      match refTree with
      | some (.complete _ refStr refType) =>
        if refType = cqtype then completionStringDifference str refStr else .ok .different
      | _ => .ok .different
    let idx ← completionAt completions (str, cqtype)
    return (idx, diff, .complete (some idx) str cqtype)
  | .external (some idx) str ef, _ => .ok (idx, .different, .external (some idx) str ef)
  | .external none str ef, refTree =>
    match refTree with
    | some (.external refCached refStr refFunc) =>
      if str = refStr then
        let idx := (Node.external refCached refStr refFunc).index
        .ok (idx, .equal, .external (some idx) str ef)
      else .ok (ef.complete str, .different, .external (some (ef.complete str)) str ef)
    | _ => .ok (ef.complete str, .different, .external (some (ef.complete str)) str ef)
  | .operation (some idx) type left right, _ =>
    .ok (idx, .different, .operation (some idx) type left right)
  | .operation none (some .intersect) left right,
      some (.operation refCached (some .intersect) refLeft refRight) => do
    let lResult : Except Fault (ItemIndex × TreeDiffTypes × Node) :=
      if skipsChild left refLeft then .ok (ItemIndex.empty, .different, left)
      else doSetOperationsUpdate completions left (some refLeft)
    let (lIdx, lDiff, left) ← lResult
    let rResult : Except Fault (ItemIndex × TreeDiffTypes × Node) :=
      if skipsChild right refRight then .ok (ItemIndex.empty, .different, right)
      else doSetOperationsUpdate completions right (some refRight)
    let (rIdx, rDiff, right) ← rResult
    let (idx, node) ← intersectUpdate completions (refCached.getD ItemIndex.empty)
      lIdx lDiff left rIdx rDiff right
    return (idx, .different, node)
  | .operation none type left right, _ => do
    let (idx, node) ← doSetOperationsRecurse completions (.operation none type left right)
    return (idx, .different, node)

end SetOpTreePrivateComplex

open SetOpTreePrivateComplex

structure SetOpTreePrivateComplex where
  completions : Completions
  rootNode : Option Node
  queryString : Bytes

namespace SetOpTreePrivateComplex

def new : SetOpTreePrivateComplex where
  completions := []
  rootNode := none
  queryString := []

variable (strCompleter : Bytes → QuerryType → ItemIndex)
  (externalFunctoids : List (Bytes × SelectableOpFilter)) (rounds : Nat)

/-- The completions for the strings of a query, which are taken from the last query if they are
there. -/
def newCompletions (t : SetOpTreePrivateComplex) (cmpStrings : Completions) : Completions :=
  cmpStrings.map fun entry =>
    match OrderedMap.lookup entry.1 t.completions with
    | some idx => (entry.1, idx)
    | none => (entry.1, strCompleter entry.1.1 entry.1.2)

def update (t : SetOpTreePrivateComplex) (query : Bytes) :
    Option (Except Fault (ItemIndex × SetOpTreePrivateComplex)) :=
  (build externalFunctoids rounds query).map fun parsed => do
    let (newRootNode, cmpStrings) ← parsed
    let completions := newCompletions strCompleter t cmpStrings
    match newRootNode with
    | none => return (ItemIndex.empty, { t with completions := completions, rootNode := none })
    | some node =>
      let (idx, _, node) ← doSetOperationsUpdate completions node t.rootNode
      return (idx, { t with completions := completions, rootNode := some node })

def updates (t : SetOpTreePrivateComplex) : List Bytes → Option (Except Fault (List ItemIndex))
  | [] => some (.ok [])
  | query :: queries =>
    match update strCompleter externalFunctoids rounds t query with
    | none => none
    | some (.error e) => some (.error e)
    | some (.ok (idx, t)) => (updates t queries).map fun r => r.map fun results => idx :: results

/-! ## A tree from scratch -/

def buildTree (t : SetOpTreePrivateComplex) (query : Bytes) :
    Option (Except Fault SetOpTreePrivateComplex) :=
  if t.rootNode.isSome ∧ t.queryString = query then some (.ok t)
  else
    (build externalFunctoids rounds query).map fun parsed => do
      let (rootNode, cmpStrings) ← parsed
      let completions := cmpStrings.foldl (fun m entry => OrderedMap.assign entry.1 entry.2 m)
        t.completions
      return { completions := completions, rootNode := rootNode, queryString := query }

def doCompletions (t : SetOpTreePrivateComplex) : SetOpTreePrivateComplex :=
  { t with
    completions := t.completions.map fun entry => (entry.1, strCompleter entry.1.1 entry.1.2) }

def doSetOperations (t : SetOpTreePrivateComplex) :
    Except Fault (ItemIndex × SetOpTreePrivateComplex) :=
  match t.rootNode with
  | none => .ok (ItemIndex.empty, t)
  | some node => do
    let (idx, node) ← doSetOperationsRecurse t.completions node
    return (idx, { t with rootNode := some node })

def evaluateFromScratch (query : Bytes) : Option (Except Fault ItemIndex) :=
  (buildTree externalFunctoids rounds new query).map fun built => do
    let t ← built
    let (idx, _) ← doSetOperations (doCompletions strCompleter t)
    return idx

end SetOpTreePrivateComplex

end Sserialize
