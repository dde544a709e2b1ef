import Sserialize.Search.SetOpTreeUpdate

/-!
# Sequences of queries

Every `update` of a sequence returns what a new object returns for the query, as long as the parts
of the tree before that are reused are the right ones.
-/

namespace Sserialize.SetOpTreePrivateComplex

variable (strCompleter : Bytes → QuerryType → ItemIndex)
  (externalFunctoids : List (Bytes × SelectableOpFilter)) (rounds : Nat)

def StepOk (t : SetOpTreePrivateComplex) (query : Bytes) : Prop :=
  ∀ node cmpStrings ref, build externalFunctoids rounds query = some (.ok (some node, cmpStrings)) →
    t.rootNode = some ref → Reusable strCompleter node ref

/-- All steps of a run can. -/
inductive StepsOk : SetOpTreePrivateComplex → List Bytes → Prop
  | nil (t : SetOpTreePrivateComplex) : StepsOk t []
  | cons {t : SetOpTreePrivateComplex} {query : Bytes} {queries : List Bytes}
      (hstep : StepOk strCompleter externalFunctoids rounds t query)
      (h : ∀ idx t', update strCompleter externalFunctoids rounds t query = some (.ok (idx, t')) →
        StepsOk t' queries) : StepsOk t (query :: queries)

structure StateOk (t : SetOpTreePrivateComplex) : Prop where
  completions : ∀ key idx, OrderedMap.lookup key t.completions = some idx →
    idx = strCompleter key.1 key.2
  root : ∀ n, t.rootNode = some n → Evaluated strCompleter n

variable {strCompleter externalFunctoids rounds}

theorem stateOk_new : StateOk strCompleter new where
  completions key idx h := by
    rw [new, OrderedMap.lookup] at h
    cases h
  root n h := by cases h

def completeAll (strCompleter : Bytes → QuerryType → ItemIndex) (cmpStrings : Completions) :
    Completions :=
  cmpStrings.map fun entry => (entry.1, strCompleter entry.1.1 entry.1.2)

theorem lookup_completeAll (key : Bytes × QuerryType) (cmpStrings : Completions) :
    OrderedMap.lookup key (completeAll strCompleter cmpStrings) =
      (OrderedMap.lookup key cmpStrings).map fun _ => strCompleter key.1 key.2 :=
  OrderedMap.lookup_map (fun key : Bytes × QuerryType => strCompleter key.1 key.2) key cmpStrings

theorem newCompletions_eq {t : SetOpTreePrivateComplex} (h : StateOk strCompleter t)
    (cmpStrings : Completions) :
    newCompletions strCompleter t cmpStrings = completeAll strCompleter cmpStrings := by
  refine List.map_congr_left fun entry _ => ?_
  split
  next idx hidx => rw [h.completions _ _ hidx]
  next => rfl

theorem completed_completeAll {cmpStrings : Completions} {n : Node}
    (h : ∀ key ∈ n.completionKeys, key ∈ OrderedMap.keys cmpStrings) :
    Completed strCompleter (completeAll strCompleter cmpStrings) n := by
  intro key hkey
  obtain ⟨idx, hidx⟩ := OrderedMap.exists_lookup (h key hkey)
  rw [lookup_completeAll, hidx]
  rfl

theorem update_none {completions : Completions} {n : Node} (hfresh : n.Fresh)
    (hcompleted : Completed strCompleter completions n) :
    ∃ n', doSetOperationsUpdate completions n none =
      .ok (evaluate strCompleter n, .different, n') ∧ Evaluated strCompleter n' := by
  cases n with
  | invalid => exact ⟨.invalid, rfl, trivial⟩
  | complete cached str cqtype =>
    obtain rfl : cached = none := hfresh
    refine ⟨.complete (some (strCompleter str cqtype)) str cqtype, ?_, rfl⟩
    rw [doSetOperationsUpdate.eq_def]
    simp only [ok_bind, hcompleted.completionAt]
    rfl
  | external cached str ef =>
    obtain rfl : cached = none := hfresh
    exact ⟨_, rfl, rfl⟩
  | operation cached type left right =>
    obtain rfl : cached = none := hfresh.1
    obtain ⟨n', hrecurse, -, hevaluated⟩ := recurses_fresh hfresh hcompleted
    have hnot : ¬ BothIntersect (.operation none type left right) none := by
      unfold BothIntersect
      split
      next heq => cases heq
      next => exact fun h => h
    refine ⟨n', ?_, hevaluated⟩
    rw [update_of_not_both hnot, hrecurse]
    rfl

theorem update_some {completions : Completions} {n ref : Node} (hfresh : n.Fresh)
    (hcompleted : Completed strCompleter completions n) (href : Evaluated strCompleter ref)
    (hreuse : Reusable strCompleter n ref) :
    ∃ diff n', doSetOperationsUpdate completions n (some ref) =
      .ok (evaluate strCompleter n, diff, n') ∧ Evaluated strCompleter n' := by
  by_cases hskip : skipsChild n ref = true
  · cases n <;> cases ref <;> try cases hskip
    case external.external cached str ef refCached refStr refFunc =>
      obtain rfl : cached = none := hfresh
      have hne : ¬ str = refStr := of_decide_eq_true hskip
      refine ⟨.different, .external (some (ef.complete str)) str ef, ?_, rfl⟩
      rw [doSetOperationsUpdate, if_neg hne]
      rfl
  · obtain ⟨idx, diff, n', hupdate, houtcome⟩ :=
      updates_fresh hfresh hcompleted (.inr href) hreuse
    refine ⟨diff, n', ?_⟩
    cases houtcome with
    | skipped h => exact absurd h hskip
    | evaluated _ hevaluated _ _ => exact ⟨hupdate, hevaluated⟩
    | reused _ hsame _ hrefSupport hindex =>
      have hsimilar := hsame.similar hreuse
      have hrefIndex : ref.index = evaluate strCompleter ref := by
        cases ref with
        | external refCached refStr refFunc =>
          rw [Node.index, Node.cached, show refCached = some (refFunc.complete refStr) from href]
          rfl
        | _ => cases hrefSupport
      rw [hrefIndex, ← hsimilar.evaluate] at hupdate
      exact ⟨hupdate, hindex hrefIndex⟩

theorem update_step {t : SetOpTreePrivateComplex} {query : Bytes} (h : StateOk strCompleter t)
    (hrounds : 4 * (sanitize query).length + 2 ≤ rounds)
    (hstep : StepOk strCompleter externalFunctoids rounds t query) :
    ∃ idx t', update strCompleter externalFunctoids rounds t query = some (.ok (idx, t')) ∧
      StateOk strCompleter t' ∧
      evaluateFromScratch strCompleter externalFunctoids rounds query = some (.ok idx) := by
  obtain ⟨root, cmpStrings, hbuild, hbuilt⟩ := build_spec externalFunctoids hrounds
  have hcompletions : ∀ key idx, OrderedMap.lookup key (completeAll strCompleter cmpStrings) =
      some idx → idx = strCompleter key.1 key.2 := by
    intro key idx hidx
    rw [lookup_completeAll] at hidx
    obtain ⟨-, -, rfl⟩ := Option.map_eq_some_iff.mp hidx
    rfl
  have hscratch : buildTree externalFunctoids rounds new query = some (.ok
      { completions := cmpStrings.foldl (fun m entry => OrderedMap.assign entry.1 entry.2 m) [],
        rootNode := root, queryString := query }) := by
    rw [buildTree, if_neg fun hroot => Bool.false_ne_true hroot.1, hbuild]
    rfl
  rw [update, evaluateFromScratch, hbuild, hscratch, Option.map_some, Option.map_some]
  simp only [ok_bind, newCompletions_eq h]
  cases root with
  | none =>
    exact ⟨ItemIndex.empty, _, rfl, ⟨hcompletions, fun n hn => by cases hn⟩, rfl⟩
  | some node =>
    obtain ⟨hfresh, hkeys⟩ := hbuilt node rfl
    have hcompleted : Completed strCompleter (completeAll strCompleter cmpStrings) node :=
      completed_completeAll hkeys
    have hassigned : ∀ key ∈ node.completionKeys, key ∈ OrderedMap.keys
        (cmpStrings.foldl (fun m entry => OrderedMap.assign entry.1 entry.2 m) []) :=
      fun key hkey => OrderedMap.mem_keys_foldl_assign (.inr (hkeys key hkey))
    obtain ⟨scratch, hrecurse, -, -⟩ :=
      recurses_fresh hfresh (completed_completeAll hassigned : Completed strCompleter _ node)
    have hupdate : ∃ diff n', doSetOperationsUpdate (completeAll strCompleter cmpStrings) node
        t.rootNode = .ok (evaluate strCompleter node, diff, n') ∧ Evaluated strCompleter n' := by
      cases hroot : t.rootNode with
      | none =>
        obtain ⟨n', hn', hevaluated⟩ := update_none hfresh hcompleted
        exact ⟨.different, n', hn', hevaluated⟩
      | some ref =>
        have href := h.root ref hroot
        exact update_some hfresh hcompleted href (hstep node cmpStrings ref hbuild hroot)
    obtain ⟨diff, n', hn', hevaluated⟩ := hupdate
    refine ⟨evaluate strCompleter node,
      { t with completions := completeAll strCompleter cmpStrings, rootNode := some n' }, ?_,
      ⟨hcompletions, fun n hn => ?_⟩, ?_⟩
    · simp only [hn', ok_bind, except_pure]
    · obtain rfl := Option.some.inj hn
      exact hevaluated
    · rw [completeAll] at hrecurse
      simp only [doSetOperations, doCompletions, hrecurse, ok_bind, except_pure]

/-- Every update of a run returns the index of a new object, if all steps can reuse the tree
before. -/
theorem updates_eq_scratch (strCompleter : Bytes → QuerryType → ItemIndex)
    (externalFunctoids : List (Bytes × SelectableOpFilter)) (rounds : Nat) (queries : List Bytes)
    (hrounds : ∀ query ∈ queries, 4 * (sanitize query).length + 2 ≤ rounds)
    (hsteps : StepsOk strCompleter externalFunctoids rounds new queries) :
    ∃ results, updates strCompleter externalFunctoids rounds new queries = some (.ok results) ∧
      List.Forall₂ (fun query idx =>
        evaluateFromScratch strCompleter externalFunctoids rounds query = some (.ok idx))
        queries results := by
  have hrun : ∀ (queries : List Bytes) (t : SetOpTreePrivateComplex),
      (∀ query ∈ queries, 4 * (sanitize query).length + 2 ≤ rounds) → StateOk strCompleter t →
      StepsOk strCompleter externalFunctoids rounds t queries →
      ∃ results, updates strCompleter externalFunctoids rounds t queries = some (.ok results) ∧
        List.Forall₂ (fun query idx =>
          evaluateFromScratch strCompleter externalFunctoids rounds query = some (.ok idx))
          queries results := by
    intro queries
    induction queries with
    | nil => exact fun t _ _ _ => ⟨[], rfl, .nil⟩
    | cons query queries ih =>
      intro t hrounds ht hsteps
      cases hsteps with
      | cons hstep hrest =>
        obtain ⟨hquery, hqueries⟩ := List.forall_mem_cons.mp hrounds
        obtain ⟨idx, t', hupdate, ht', hscratch⟩ := update_step ht hquery hstep
        obtain ⟨results, hresults, hall⟩ := ih t' hqueries ht' (hrest idx t' hupdate)
        refine ⟨idx :: results, ?_, .cons hscratch hall⟩
        rw [updates, hupdate]
        dsimp only
        rw [hresults]
        rfl
  exact hrun queries new hrounds stateOk_new hsteps

/-- The queries `a b` and `ab b` with a string completer that has fewer completions for `ab`. -/
theorem updates_eq_scratch_longer : ∃ results,
    updates (fun str _ =>
        if str = [97, 98] then .firstIds 1 (by decide) else .firstIds 2 (by decide))
        [] 40 new [[97, 32, 98], [97, 98, 32, 98]] = some (.ok results) ∧
    List.Forall₂ (fun query idx => evaluateFromScratch
        (fun str _ => if str = [97, 98] then .firstIds 1 (by decide) else .firstIds 2 (by decide))
        [] 40 query = some (.ok idx)) [[97, 32, 98], [97, 98, 32, 98]] results := by
  have hfirst : build [] 40 [97, 32, 98] = some (.ok (some (.operation none (some .intersect)
      (.complete none [97] 24) (.complete none [98] 24)),
      [(([97], 24), ItemIndex.empty), (([98], 24), ItemIndex.empty)])) := rfl
  have hsecond : build [] 40 [97, 98, 32, 98] = some (.ok (some (.operation none (some .intersect)
      (.complete none [97, 98] 24) (.complete none [98] 24)),
      [(([97, 98], 24), ItemIndex.empty), (([98], 24), ItemIndex.empty)])) := rfl
  refine updates_eq_scratch _ [] 40 _ (by decide) (.cons (fun _ _ ref _ href => by cases href)
    fun idx t' hupdate => .cons ?_ fun _ _ _ => .nil _)
  intro node cmpStrings ref hbuild href
  rw [hsecond] at hbuild
  obtain ⟨hnode, -⟩ := Prod.mk.inj (some_ok_inj hbuild)
  obtain rfl := Option.some.inj hnode
  rw [update, hfirst] at hupdate
  obtain ⟨-, rfl⟩ := Prod.mk.inj (some_ok_inj hupdate)
  obtain rfl := Option.some.inj href
  refine ⟨fun _ => ⟨.subset, rfl⟩, fun _ => ⟨.equal, rfl⟩, ?_, ?_, ?_, ?_⟩
  · rintro (h | h) <;> cases h
  · intro _ _
    decide
  · intro _ _ h
    cases h
  · intro h
    cases h

/-- The queries `$f[x] $f[y]` and `$f[z] $f[y]` with a filter that returns one id. The filter with
another string is not evaluated, and its empty index is intersected with the other one. -/
theorem not_updates_eq_scratch : ∃ first second idx,
    updates (fun _ _ => ItemIndex.empty)
        [([102], externalFunctoid fun _ => .firstIds 1 (by decide))] 40 new
        [[36, 102, 91, 120, 93, 32, 36, 102, 91, 121, 93],
          [36, 102, 91, 122, 93, 32, 36, 102, 91, 121, 93]] = some (.ok [first, second]) ∧
    evaluateFromScratch (fun _ _ => ItemIndex.empty)
        [([102], externalFunctoid fun _ => .firstIds 1 (by decide))] 40
        [36, 102, 91, 122, 93, 32, 36, 102, 91, 121, 93] = some (.ok idx) ∧
    second ≠ idx := by
  generalize hone : IdList.firstIds 1 (by decide) = one
  set f : SelectableOpFilter := externalFunctoid fun _ => one with hf
  have hfirst : build [([102], f)] 40 [36, 102, 91, 120, 93, 32, 36, 102, 91, 121, 93] =
      some (.ok (some (.operation none (some .intersect) (.external none [120] f)
        (.external none [121] f)), [])) := rfl
  have hsecond : build [([102], f)] 40 [36, 102, 91, 122, 93, 32, 36, 102, 91, 121, 93] =
      some (.ok (some (.operation none (some .intersect) (.external none [122] f)
        (.external none [121] f)), [])) := rfl
  have hcomplete : ∀ str, f.complete str = one := fun _ => rfl
  have hsupport : ∀ cached str, (Node.external cached str f).efSupport .opIntersect = false := by
    intro cached str
    simp [Node.efSupport, hf, externalFunctoid]
  have hrecurse : ∀ completions a b, doSetOperationsRecurse completions (.operation none
      (some .intersect) (.external none a f) (.external none b f)) =
        .ok (ItemIndex.apply .intersect one one,
          .operation (some (ItemIndex.apply .intersect one one)) (some .intersect)
            (.external (some one) a f) (.external (some one) b f)) :=
    fun completions a b => by
      simp [doSetOperationsRecurse, hsupport, hcomplete, firstOp, secondOp]
  have hupdate : ∀ completions, doSetOperationsUpdate completions
      (.operation none (some .intersect) (.external none [122] f) (.external none [121] f))
      (some (.operation (some (ItemIndex.apply .intersect one one)) (some .intersect)
        (.external (some one) [120] f) (.external (some one) [121] f))) =
        .ok (ItemIndex.apply .intersect ItemIndex.empty one, .different,
          .operation (some (ItemIndex.apply .intersect ItemIndex.empty one)) (some .intersect)
            (.external none [122] f) (.external (some one) [121] f)) :=
    fun completions => by
      simp [doSetOperationsUpdate, skipsChild, intersectUpdate, hsupport, Node.index, Node.cached]
  refine ⟨ItemIndex.apply .intersect one one, ItemIndex.apply .intersect ItemIndex.empty one,
    ItemIndex.apply .intersect one one, ?_, ?_, fun h => ?_⟩
  · rw [updates, update, hfirst]
    simp only [Option.map_some, ok_bind, new, doSetOperationsUpdate, hrecurse, except_pure]
    rw [updates, update, hsecond]
    simp only [Option.map_some, ok_bind, hupdate, except_pure, updates]
    rfl
  · rw [evaluateFromScratch, buildTree, hsecond]
    simp only [new, Option.isSome_none, Bool.false_eq_true, false_and, if_false, Option.map_some,
      ok_bind, except_pure, doSetOperations, doCompletions, hrecurse]
  · have hmem := (ItemIndex.mem_apply .intersect one one 0).mpr
      ⟨by rw [← hone]; decide, by rw [← hone]; decide⟩
    rw [← h, ItemIndex.mem_apply] at hmem
    exact absurd hmem.1 (by decide)

end Sserialize.SetOpTreePrivateComplex
