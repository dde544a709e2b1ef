import Sserialize.Search.SetOpTreeEvaluate

/-!
# Evaluation with the tree of the last query

A filter is taken for the one of the last query by its string only, an intersection with a longer
string is the one of the last query with the new completion, and two filters below an intersection
are not evaluated if their strings changed. Where this does not matter the index is the one of the
plain evaluation.
-/

namespace Sserialize.SetOpTreePrivateComplex

/-! ## Comparing strings -/

theorem eq_of_completionStringDifferenceLoop {rounds : Nat} {newIt oldIt : Bytes}
    (hrounds : newIt.length ≤ rounds)
    (h : completionStringDifferenceLoop rounds newIt oldIt = .ok .equal) : newIt = oldIt := by
  have hend : ∀ newIt oldIt : Bytes, (if newIt ≠ [] then TreeDiffTypes.subset
      else if oldIt ≠ [] then .superset else .equal) = .equal → newIt = oldIt := by
    intro newIt oldIt h
    by_cases hnew : newIt = []
    · by_cases hold : oldIt = []
      · rw [hnew, hold]
      · rw [if_neg (not_not.mpr hnew), if_pos hold] at h
        cases h
    · rw [if_pos hnew] at h
      cases h
  induction rounds generalizing newIt oldIt with
  | zero => exact hend newIt oldIt (Except.ok.inj h)
  | succ rounds ih =>
    rw [completionStringDifferenceLoop] at h
    split at h
    next =>
      obtain ⟨⟨newCode, newRest⟩, hnew, h⟩ := bind_eq_ok h
      obtain ⟨⟨oldCode, oldRest⟩, hold, h⟩ := bind_eq_ok h
      dsimp only at h
      split at h
      next => cases h
      next hcodes =>
        have hlt := Utf8.next_length hnew
        obtain rfl := ih (by omega) h
        obtain rfl := not_not.mp hcodes
        exact Utf8.next_inj hnew hold
    next => exact hend newIt oldIt (Except.ok.inj h)

theorem eq_of_completionStringDifference {newString oldString : Bytes}
    (h : completionStringDifference newString oldString = .ok .equal) : newString = oldString :=
  eq_of_completionStringDifferenceLoop (Nat.le_refl _) h

/-! ## Where the last query can be reused -/

def SameLeaf : Node → Node → Prop
  | .complete _ str cqtype, .complete _ refStr refType =>
    refType = cqtype ∧ completionStringDifference str refStr = .ok .equal
  | .external _ str _, .external _ refStr _ => str = refStr
  | _, _ => False

def Longer : Node → Node → Prop
  | .complete _ str cqtype, .complete _ refStr refType =>
    refType = cqtype ∧ completionStringDifference str refStr = .ok .subset
  | _, _ => False

variable (strCompleter : Bytes → QuerryType → ItemIndex)

/-- What an intersection needs of the children of the one in the last query. -/
structure IntersectOk (left right refLeft refRight : Node) : Prop where
  /-- There is a filter that evaluates the others if children are not evaluated. -/
  skipped : skipsChild left refLeft ∨ skipsChild right refRight →
    left.efSupport .opIntersect ∨ right.efSupport .opIntersect
  /-- A longer string has fewer completions. -/
  fewer : Longer left refLeft → SameLeaf right refRight →
    ∀ id ∈ (evaluate strCompleter left).ids, id ∈ (evaluate strCompleter refLeft).ids
  /-- The filter on the right intersects with its completions. -/
  intersects : Longer left refLeft → SameLeaf right refRight →
    right.efSupport .opIntersect → ∀ partner, right.efApply .opIntersect partner =
      ItemIndex.apply .intersect partner (evaluate strCompleter right)
  /-- The index of a filter on the right is used by the one on the left. -/
  index : left.efSupport .opIntersect → ¬ SameLeaf left refLeft → SameLeaf right refRight →
    refRight.efSupport .opIntersect → refRight.index = evaluate strCompleter refRight

def Reusable : Node → Node → Prop
  | .complete _ str cqtype, .complete _ refStr refType =>
    refType = cqtype → ∃ diff, completionStringDifference str refStr = .ok diff
  | .external _ str ef, .external _ refStr refFunc => str = refStr → ef = refFunc
  | .operation _ (some .intersect) left right, .operation _ (some .intersect) refLeft refRight =>
    Reusable left refLeft ∧ Reusable right refRight ∧
      IntersectOk strCompleter left right refLeft refRight
  | _, _ => True

/-! ## One node -/

variable {strCompleter} {completions : Completions}

theorem SameLeaf.similar {n ref : Node} (h : SameLeaf n ref)
    (hreuse : Reusable strCompleter n ref) : Similar n ref := by
  cases n <;> cases ref <;> try exact h.elim
  case complete.complete cached str cqtype refCached refStr refType =>
    obtain ⟨rfl, hdiff⟩ := h
    rw [Similar, Node.clear, Node.clear, eq_of_completionStringDifference hdiff]
  case external.external cached str ef refCached refStr refFunc =>
    obtain rfl := hreuse h
    obtain rfl : str = refStr := h
    rfl

/-- What is known after the evaluation of a child. -/
inductive Outcome (strCompleter : Bytes → QuerryType → ItemIndex) (n ref : Node) :
    ItemIndex → TreeDiffTypes → Node → Prop
  | skipped (h : skipsChild n ref) : Outcome strCompleter n ref ItemIndex.empty .different n
  | evaluated {diff : TreeDiffTypes} {n' : Node} (hsimilar : Similar n' n)
      (hevaluated : Evaluated strCompleter n') (hequal : diff = .equal ↔ SameLeaf n ref)
      (hsubset : diff = .subset → Longer n ref) :
      Outcome strCompleter n ref (evaluate strCompleter n) diff n'
  | reused {n' : Node} (hsimilar : Similar n' n) (hsame : SameLeaf n ref)
      (hsupport : n.efSupport .opIntersect) (hrefSupport : ref.efSupport .opIntersect)
      (hindex : ref.index = evaluate strCompleter ref → Evaluated strCompleter n') :
      Outcome strCompleter n ref ref.index .equal n'

variable {idx : ItemIndex} {n ref n' : Node} {diff : TreeDiffTypes}

theorem Outcome.similar (h : Outcome strCompleter n ref idx diff n') : Similar n' n := by
  cases h with
  | skipped => rfl
  | evaluated hsimilar => exact hsimilar
  | reused hsimilar => exact hsimilar

theorem Outcome.same (h : Outcome strCompleter n ref idx .equal n') : SameLeaf n ref := by
  cases h with
  | evaluated _ _ hequal _ => exact hequal.mp rfl
  | reused _ hsame => exact hsame

theorem Outcome.longer (h : Outcome strCompleter n ref idx .subset n') : Longer n ref := by
  cases h with
  | evaluated _ _ _ hsubset => exact hsubset rfl

theorem Outcome.recurses (h : Outcome strCompleter n ref idx diff n') (hfresh : n.Fresh)
    (hcompleted : Completed strCompleter completions n)
    (hindex : diff = .equal → SameLeaf n ref → ref.efSupport .opIntersect →
      ref.index = evaluate strCompleter ref) :
    Recurses strCompleter completions n' := by
  cases h with
  | skipped => exact recurses_fresh hfresh hcompleted
  | evaluated _ hevaluated _ _ => exact recurses_evaluated hevaluated
  | reused _ hsame _ hrefSupport hevaluated =>
    exact recurses_evaluated (hevaluated (hindex rfl hsame hrefSupport))

theorem Outcome.equal_of_same (h : Outcome strCompleter n ref idx diff n')
    (hsame : SameLeaf n ref) : diff = .equal := by
  cases h with
  | skipped h =>
    cases n <;> cases ref <;> try exact hsame.elim
    · cases h
    · rw [skipsChild, decide_eq_true_eq] at h
      exact absurd hsame h
  | evaluated _ _ hequal _ => exact hequal.mpr hsame
  | reused => rfl

theorem Outcome.index_eq (h : Outcome strCompleter n ref idx diff n') (hskip : ¬ skipsChild n ref)
    (hsupport : ¬ n.efSupport .opIntersect) :
    idx = evaluate strCompleter n ∧ Evaluated strCompleter n' := by
  cases h with
  | skipped h => exact absurd h hskip
  | evaluated _ hevaluated _ _ => exact ⟨rfl, hevaluated⟩
  | reused _ _ h => exact absurd h hsupport

theorem Outcome.child {n ref n' : Node} {idx : ItemIndex} {diff : TreeDiffTypes}
    (h : Outcome strCompleter n ref idx diff n') (hdiff : diff ≠ .different) :
    n'.efSupport .opIntersect ∨ Evaluated strCompleter n' := by
  cases h with
  | skipped => exact absurd rfl hdiff
  | evaluated _ hevaluated _ _ => exact .inr hevaluated
  | reused hsimilar _ hsupport =>
    left
    rw [hsimilar.efSupport]
    exact hsupport

/-! ## Intersections -/

theorem index_of_evaluated {cached : Option ItemIndex} {op : SetOp} {left right : Node}
    (h : Evaluated strCompleter (.operation cached (some op) left right)) :
    cached.getD ItemIndex.empty =
      evaluate strCompleter (.operation none (some op) left right) := by
  rw [h.1]
  rfl

theorem evaluate_longer {left right refLeft refRight : Node}
    (hok : IntersectOk strCompleter left right refLeft refRight)
    (hlonger : Longer left refLeft) (hsame : SameLeaf right refRight)
    (hsimilar : Similar right refRight) :
    ItemIndex.apply .intersect (evaluate strCompleter left)
        (evaluate strCompleter (.operation none (some .intersect) refLeft refRight)) =
      evaluate strCompleter (.operation none (some .intersect) left right) := by
  have hno : ∀ {n ref : Node}, Longer n ref → ¬ n.efSupport .opIntersect ∧
      ¬ ref.efSupport .opIntersect := by
    intro n ref h
    cases n <;> cases ref <;> first | exact h.elim | exact ⟨Bool.false_ne_true, Bool.false_ne_true⟩
  obtain ⟨hleft, hrefLeft⟩ := hno hlonger
  -- both intersections are those of the indices
  have hindex : ∀ n, ¬ n.efSupport .opIntersect → ∀ r, Similar r right →
      evaluate strCompleter (.operation none (some .intersect) n r) =
        ItemIndex.apply .intersect (evaluate strCompleter n) (evaluate strCompleter right) := by
    intro n hn r hr
    rw [evaluate, firstOp, secondOp, if_neg hn]
    by_cases hsupport : right.efSupport .opIntersect = true
    · rw [if_pos (by rw [hr.efSupport]; exact hsupport), hr.efApply,
        hok.intersects hlonger hsame hsupport]
    · rw [if_neg (by rw [hr.efSupport]; exact hsupport), hr.evaluate]
  rw [hindex left hleft right rfl, hindex refLeft hrefLeft refRight hsimilar.symm]
  refine ItemIndex.ext_mem fun id => ?_
  have hfewer := hok.fewer hlonger hsame id
  simp only [ItemIndex.mem_apply, SetOp.Holds]
  constructor
  · rintro ⟨hl, -, hr⟩
    exact ⟨hl, hr⟩
  · rintro ⟨hl, hr⟩
    exact ⟨hl, hfewer hl, hr⟩

def Intersects (strCompleter : Bytes → QuerryType → ItemIndex) (left right : Node)
    (r : Except Fault (ItemIndex × Node)) : Prop :=
  ∃ n', r = .ok (evaluate strCompleter (.operation none (some .intersect) left right), n') ∧
    Similar n' (.operation none (some .intersect) left right) ∧ Evaluated strCompleter n'

theorem intersects_mk {left right left' right' : Node}
    (hidx : idx = evaluate strCompleter (.operation none (some .intersect) left right))
    (hl : Similar left' left) (hr : Similar right' right)
    (hleft : left'.efSupport .opIntersect ∨ Evaluated strCompleter left')
    (hright : right'.efSupport .opIntersect ∨ Evaluated strCompleter right') :
    Intersects strCompleter left right
      (.ok (idx, .operation (some idx) (some .intersect) left' right')) := by
  subst hidx
  have hsimilar := hl.operation hr
  refine ⟨_, rfl, hsimilar _ _ _, ?_, fun _ => ⟨hleft, hright⟩⟩
  rw [(hsimilar none none (some .intersect)).evaluate]

theorem intersectUpdate_spec {left right refLeft refRight left' right' : Node}
    {lIdx rIdx : ItemIndex} {lDiff rDiff : TreeDiffTypes} {refCached : Option ItemIndex}
    (hl : Outcome strCompleter left refLeft lIdx lDiff left')
    (hr : Outcome strCompleter right refRight rIdx rDiff right')
    (hreuseLeft : Reusable strCompleter left refLeft)
    (hreuseRight : Reusable strCompleter right refRight)
    (hok : IntersectOk strCompleter left right refLeft refRight)
    (href : Evaluated strCompleter (.operation refCached (some .intersect) refLeft refRight))
    (hfresh : (Node.operation none (some .intersect) left right).Fresh)
    (hcompleted : Completed strCompleter completions
      (.operation none (some .intersect) left right)) :
    Intersects strCompleter left right (intersectUpdate completions
      (refCached.getD ItemIndex.empty) lIdx lDiff left' rIdx rDiff right') := by
  obtain ⟨-, hfreshLeft, hfreshRight⟩ := hfresh
  have hls := hl.similar
  have hrs := hr.similar
  rw [index_of_evaluated href, intersectUpdate]
  by_cases hequal : lDiff = .equal ∧ rDiff = .equal
  · rw [if_pos hequal]
    obtain ⟨rfl, rfl⟩ := hequal
    have hsimilar := (hl.same.similar hreuseLeft).operation (hr.same.similar hreuseRight)
    refine intersects_mk ?_ hls hrs (hl.child (by decide)) (hr.child (by decide))
    exact ((hsimilar none none (some .intersect)).evaluate strCompleter).symm
  rw [if_neg hequal]
  by_cases hsubset : lDiff = .subset ∧ rDiff = .equal
  · rw [if_pos hsubset]
    obtain ⟨rfl, rfl⟩ := hsubset
    obtain rfl : lIdx = evaluate strCompleter left := by
      cases hl
      rfl
    exact intersects_mk (evaluate_longer hok hl.longer hr.same (hr.same.similar hreuseRight))
      hls hrs (hl.child (by decide)) (hr.child (by decide))
  rw [if_neg hsubset, if_neg hsubset, hls.efSupport, hrs.efSupport]
  by_cases hleft : left.efSupport .opIntersect = true
  · rw [if_pos hleft]
    obtain ⟨right'', hrecurse, hsimilar, hevaluated⟩ :=
      hr.recurses hfreshRight hcompleted.right fun hdiff hsame hrefSupport =>
        hok.index hleft (fun h => hequal ⟨hl.equal_of_same h, hdiff⟩) hsame hrefSupport
    rw [hrecurse]
    refine intersects_mk ?_ hls (hsimilar.trans hrs) (.inl (by rw [hls.efSupport, hleft]))
      (.inr hevaluated)
    rw [hls.efApply, hrs.evaluate, evaluate, firstOp, if_pos hleft]
  rw [if_neg hleft]
  by_cases hright : right.efSupport .opIntersect = true
  · rw [if_pos hright]
    obtain ⟨left'', hrecurse, hsimilar, hevaluated⟩ :=
      hl.recurses hfreshLeft hcompleted.left fun _ hsame hrefSupport => by
        rw [← (hsame.similar hreuseLeft).efSupport] at hrefSupport
        exact absurd hrefSupport hleft
    rw [hrecurse]
    refine intersects_mk ?_ (hsimilar.trans hls) hrs (.inr hevaluated)
      (.inl (by rw [hrs.efSupport, hright]))
    rw [hrs.efApply, hls.evaluate, evaluate, firstOp, secondOp, if_neg hleft, if_pos hright]
  · rw [if_neg hright]
    have hskip : ¬ (skipsChild left refLeft ∨ skipsChild right refRight) := fun h =>
      (hok.skipped h).elim hleft hright
    rw [not_or] at hskip
    obtain ⟨rfl, hevaluatedLeft⟩ := hl.index_eq hskip.1 hleft
    obtain ⟨rfl, hevaluatedRight⟩ := hr.index_eq hskip.2 hright
    refine intersects_mk ?_ hls hrs (.inr hevaluatedLeft) (.inr hevaluatedRight)
    rw [evaluate, firstOp, secondOp, if_neg hleft, if_neg hright]

/-! ## Trees -/

def BothIntersect : Node → Option Node → Prop
  | .operation _ (some .intersect) _ _, some (.operation _ (some .intersect) _ _) => True
  | _, _ => False

theorem update_of_not_both {type : Option SetOp} {left right : Node} {refTree : Option Node}
    (h : ¬ BothIntersect (.operation none type left right) refTree) :
    doSetOperationsUpdate completions (.operation none type left right) refTree =
      (doSetOperationsRecurse completions (.operation none type left right)).map fun r =>
        (r.1, .different, r.2) := by
  rw [doSetOperationsUpdate.eq_def]
  split
  next heq => cases heq
  next heq => cases heq
  next heq => cases heq
  next heq => cases heq
  next heq => cases heq
  next heq => cases heq
  next heq =>
    cases heq
    exact absurd trivial h
  next heq _ =>
    cases heq
    cases doSetOperationsRecurse completions (.operation none type left right) <;> rfl

def Updates (strCompleter : Bytes → QuerryType → ItemIndex) (completions : Completions)
    (n ref : Node) : Prop :=
  ∃ idx diff n', doSetOperationsUpdate completions n (some ref) = .ok (idx, diff, n') ∧
    Outcome strCompleter n ref idx diff n'

theorem updates_different {n ref : Node} (n' : Node) (hleaf : ¬ SameLeaf n ref)
    (hupdate : doSetOperationsUpdate completions n (some ref) =
      .ok (evaluate strCompleter n, .different, n'))
    (hsimilar : Similar n' n) (hevaluated : Evaluated strCompleter n') :
    Updates strCompleter completions n ref :=
  ⟨_, _, n', hupdate, .evaluated hsimilar hevaluated
    ⟨fun h => (by cases h), fun h => absurd h hleaf⟩ fun h => by cases h⟩

theorem updates_complete {str : Bytes} {cqtype : QuerryType} {ref : Node}
    (hcompleted : Completed strCompleter completions (.complete none str cqtype))
    (hreuse : Reusable strCompleter (.complete none str cqtype) ref) :
    Updates strCompleter completions (.complete none str cqtype) ref := by
  have hat := hcompleted.completionAt
  set n' : Node := .complete (some (strCompleter str cqtype)) str cqtype with hn'
  have hsimilar : Similar n' (.complete none str cqtype) := rfl
  have hevaluated : Evaluated strCompleter n' := rfl
  by_cases hcomplete : ∃ refCached refStr, ref = .complete refCached refStr cqtype
  · obtain ⟨refCached, refStr, rfl⟩ := hcomplete
    obtain ⟨diff, hdiff⟩ := hreuse rfl
    refine ⟨strCompleter str cqtype, diff, n', ?_, .evaluated hsimilar hevaluated ?_ ?_⟩
    · rw [doSetOperationsUpdate]
      simp only [if_true, hdiff, ok_bind, hat, except_pure]
      rfl
    · rw [SameLeaf, hdiff, Except.ok.injEq]
      exact ⟨fun h => ⟨rfl, h⟩, And.right⟩
    · rintro rfl
      exact ⟨rfl, hdiff⟩
  · have hno : ∀ refCached refStr, ref ≠ .complete refCached refStr cqtype :=
      fun refCached refStr h => hcomplete ⟨refCached, refStr, h⟩
    refine updates_different n' (fun h => ?_) ?_ hsimilar hevaluated
    · cases ref with
      | complete refCached refStr refType =>
        obtain ⟨rfl, -⟩ := h
        exact hno refCached refStr rfl
      | _ => exact h
    · rw [doSetOperationsUpdate.eq_def]
      cases ref with
      | complete refCached refStr refType =>
        have hne : ¬ refType = cqtype := by
          rintro rfl
          exact hno refCached refStr rfl
        simp only [if_neg hne, ok_bind, hat, except_pure]
        rfl
      | _ =>
        simp only [ok_bind, hat, except_pure]
        rfl

theorem updates_external {str : Bytes} {ef : SelectableOpFilter} {ref : Node}
    (href : ref.efSupport .opIntersect ∨ Evaluated strCompleter ref)
    (hreuse : Reusable strCompleter (.external none str ef) ref) :
    Updates strCompleter completions (.external none str ef) ref := by
  by_cases hsame : ∃ refCached refFunc, ref = .external refCached str refFunc
  · obtain ⟨refCached, refFunc, rfl⟩ := hsame
    obtain rfl : ef = refFunc := hreuse rfl
    have hupdate : doSetOperationsUpdate completions (.external none str ef)
        (some (.external refCached str ef)) = .ok ((Node.external refCached str ef).index, .equal,
          .external (some (Node.external refCached str ef).index) str ef) := by
      rw [doSetOperationsUpdate, if_pos rfl]
    by_cases hevaluated : Evaluated strCompleter (.external refCached str ef)
    · have hindex : (Node.external refCached str ef).index = ef.complete str := by
        rw [Node.index, Node.cached, show refCached = some (ef.complete str) from hevaluated]
        rfl
      rw [hindex] at hupdate
      exact ⟨_, _, _, hupdate, .evaluated rfl rfl ⟨fun _ => rfl, fun _ => rfl⟩
        fun h => (by cases h)⟩
    · have hsupport := href.resolve_right hevaluated
      exact ⟨_, _, _, hupdate, .reused rfl rfl hsupport hsupport fun hindex =>
        congrArg some hindex⟩
  · refine updates_different (.external (some (ef.complete str)) str ef) (fun h => ?_) ?_ rfl rfl
    · cases ref with
      | external refCached refStr refFunc =>
        obtain rfl : str = refStr := h
        exact hsame ⟨refCached, refFunc, rfl⟩
      | _ => exact h
    · rw [doSetOperationsUpdate.eq_def]
      cases ref with
      | external refCached refStr refFunc =>
        have hne : ¬ str = refStr := by
          rintro rfl
          exact hsame ⟨refCached, refFunc, rfl⟩
        simp only [if_neg hne]
        rfl
      | _ => rfl

theorem Updates.child {n ref : Node} (h : Updates strCompleter completions n ref) :
    ∃ idx diff n', (if skipsChild n ref then .ok (ItemIndex.empty, .different, n)
        else doSetOperationsUpdate completions n (some ref)) = .ok (idx, diff, n') ∧
      Outcome strCompleter n ref idx diff n' := by
  by_cases hskip : skipsChild n ref = true
  · exact ⟨_, _, _, if_pos hskip, .skipped hskip⟩
  · rw [if_neg hskip]
    exact h

theorem updates_fresh {n ref : Node} (hfresh : n.Fresh)
    (hcompleted : Completed strCompleter completions n)
    (href : ref.efSupport .opIntersect ∨ Evaluated strCompleter ref)
    (hreuse : Reusable strCompleter n ref) : Updates strCompleter completions n ref := by
  induction n generalizing ref with
  | invalid =>
    exact updates_different .invalid (fun h => h) rfl rfl trivial
  | complete cached str cqtype =>
    obtain rfl : cached = none := hfresh
    exact updates_complete hcompleted hreuse
  | external cached str ef =>
    obtain rfl : cached = none := hfresh
    exact updates_external href hreuse
  | operation cached type left right ihl ihr =>
    obtain rfl : cached = none := hfresh.1
    have hleaf : ¬ SameLeaf (.operation none type left right) ref := fun h => by
      cases ref <;> exact h
    by_cases hboth : BothIntersect (.operation none type left right) (some ref)
    · obtain ⟨rfl, refCached, refLeft, refRight, rfl⟩ : type = some .intersect ∧
          ∃ refCached refLeft refRight,
            ref = .operation refCached (some .intersect) refLeft refRight := by
        unfold BothIntersect at hboth
        split at hboth
        next heq heq' =>
          cases heq
          cases heq'
          exact ⟨rfl, _, _, _, rfl⟩
        next => exact hboth.elim
      have hrefEvaluated := href.resolve_left Bool.false_ne_true
      obtain ⟨hreuseLeft, hreuseRight, hok⟩ := hreuse
      obtain ⟨hrefLeft, hrefRight⟩ := hrefEvaluated.2 rfl
      obtain ⟨lIdx, lDiff, left', hl, hleft⟩ :=
        (ihl hfresh.2.1 hcompleted.left hrefLeft hreuseLeft).child
      obtain ⟨rIdx, rDiff, right', hr, hright⟩ :=
        (ihr hfresh.2.2 hcompleted.right hrefRight hreuseRight).child
      obtain ⟨n', hintersect, hsimilar, hevaluated⟩ :=
        intersectUpdate_spec hleft hright hreuseLeft hreuseRight hok hrefEvaluated hfresh hcompleted
      refine updates_different n' hleaf ?_ hsimilar hevaluated
      rw [doSetOperationsUpdate, hl, ok_bind]
      dsimp only
      rw [hr, ok_bind]
      dsimp only
      rw [hintersect]
      rfl
    · obtain ⟨n', hrecurse, hsimilar, hevaluated⟩ := recurses_fresh hfresh hcompleted
      refine updates_different n' hleaf ?_ hsimilar hevaluated
      rw [update_of_not_both hboth, hrecurse]
      rfl

end Sserialize.SetOpTreePrivateComplex
