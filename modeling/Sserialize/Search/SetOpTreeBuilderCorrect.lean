import Sserialize.Search.SetOpTreeBuilder

namespace Sserialize

open InfixGrammar OpTreeParser

namespace SetOpTreePrivateComplex

variable {externalFunctoids : List (Bytes × SelectableOpFilter)}

theorem length_readString_le (tokenString it : Bytes) :
    (readString tokenString it).2.length ≤ it.length := by
  induction tokenString, it using readString.induct with
  | case1 _ => simp [readString]
  | case2 tokenString => simp [readString]
  | case3 tokenString e it ih =>
    rw [readString, if_pos rfl]
    simp only [List.length_cons]
    omega
  | case4 tokenString c it hc hstop =>
    rw [readString.eq_def]
    dsimp only
    rw [if_neg hc, if_pos hstop]
  | case5 tokenString c it hc hstop ih =>
    rw [readString.eq_def]
    dsimp only
    rw [if_neg hc, if_neg hstop, List.length_cons]
    omega

theorem length_readString_cons (c : UInt8) (it : Bytes)
    (hc : ¬ ((opMap c).isSome ∨ c = octet '$' ∨ c = octet ' ' ∨ c = octet '(' ∨ c = octet ')')) :
    (readString [] (c :: it)).2.length ≤ it.length := by
  rw [readString.eq_def]
  dsimp only
  split
  next =>
    cases it with
    | nil => exact Nat.le_refl _
    | cons e it => exact Nat.le_succ_of_le (length_readString_le _ _)
  next => exact length_readString_le _ _

theorem length_readName_le (efName it : Bytes) : (readName efName it).2.2.length ≤ it.length := by
  induction it generalizing efName with
  | nil => simp [readName]
  | cons c it ih =>
    rw [readName]
    split
    next => exact Nat.le_succ _
    next =>
      split
      next => exact Nat.le_refl _
      next => exact Nat.le_succ_of_le (ih _)

theorem length_readValue_le (efValue it : Bytes) : (readValue efValue it).2.length ≤ it.length := by
  induction it generalizing efValue with
  | nil => simp [readValue]
  | cons c it ih =>
    rw [readValue.eq_def]
    dsimp only
    split
    next =>
      cases it with
      | nil => exact Nat.zero_le _
      | cons e it => exact Nat.le_succ_of_le (ih _)
    next =>
      split
      next => exact Nat.le_succ _
      next => exact Nat.le_succ_of_le (ih _)

theorem readExternal_spec (externalFunctoids : List (Bytes × SelectableOpFilter)) (it : Bytes) :
    (readExternal externalFunctoids it).1.type = .external ∧
      (readExternal externalFunctoids it).2.length ≤ it.length := by
  have hname := length_readName_le [] it
  rw [readExternal]
  split
  next it' h =>
    rw [h] at hname
    exact ⟨rfl, hname⟩
  next efName it' h =>
    rw [h] at hname
    have hvalue := length_readValue_le [] it'
    dsimp only
    split <;> exact ⟨rfl, Nat.le_trans hvalue hname⟩

def Tokenizer.measure (t : Tokenizer) : Nat :=
  2 * t.strIt.length + if t.beforeWasTerminal then 1 else 0

theorem Tokenizer.measure_lt {t t' : Tokenizer} (h : t'.strIt.length < t.strIt.length) :
    t'.measure < t.measure := by
  have hflag : (if t'.beforeWasTerminal then 1 else 0) ≤ 1 := by split <;> decide
  rw [measure, measure]
  omega

theorem measure_defaultOp (it : Bytes) :
    Tokenizer.measure ⟨it, false⟩ < Tokenizer.measure ⟨it, true⟩ := by
  simp [Tokenizer.measure]

theorem nextLoop_spec (externalFunctoids : List (Bytes × SelectableOpFilter))
    (beforeWasTerminal : Bool) (it : Bytes) :
    (nextLoop externalFunctoids beforeWasTerminal it).1.kind = .other ∨
      (nextLoop externalFunctoids beforeWasTerminal it).2.measure <
        Tokenizer.measure ⟨it, beforeWasTerminal⟩ := by
  induction it with
  | nil => exact .inl rfl
  | cons c it ih =>
    have hle : Tokenizer.measure ⟨it, beforeWasTerminal⟩ ≤
        Tokenizer.measure ⟨c :: it, beforeWasTerminal⟩ := by
      simp [Tokenizer.measure]
    rw [nextLoop]
    split
    next => exact ih.imp_right fun hlt => Nat.lt_of_lt_of_le hlt hle
    next hspace =>
      split
      next => exact .inr (Tokenizer.measure_lt (Nat.lt_succ_self _))
      next hop =>
        split
        next =>
          split
          next hbefore =>
            rw [hbefore]
            exact .inr (measure_defaultOp _)
          next => exact .inr (Tokenizer.measure_lt (Nat.lt_succ_self _))
        next hopen =>
          split
          next => exact .inr (Tokenizer.measure_lt (Nat.lt_succ_self _))
          next hclose =>
            split
            next hbefore =>
              rw [hbefore]
              exact .inr (measure_defaultOp _)
            next =>
              split
              next =>
                have hread := (readExternal_spec externalFunctoids it).2
                exact .inr (Tokenizer.measure_lt (Nat.lt_succ_of_le hread))
              next hdollar =>
                have hread := length_readString_cons c it
                  (by simp [hop, hspace, hopen, hclose, hdollar])
                exact .inr (Tokenizer.measure_lt (Nat.lt_succ_of_le hread))

theorem exists_delivers (externalFunctoids : List (Bytes × SelectableOpFilter)) (t : Tokenizer) :
    ∃ ts, Delivers (parser externalFunctoids) t ts (.ok ()) ∧ ts.length ≤ t.measure := by
  induction hn : t.measure using Nat.strong_induction_on generalizing t with
  | _ n ih =>
    have hnext : (parser externalFunctoids).nextToken t = .ok (next externalFunctoids t) := rfl
    rcases nextLoop_spec externalFunctoids t.beforeWasTerminal t.strIt with hkind | hlt
    · exact ⟨[], .endOfInput hnext hkind, Nat.zero_le _⟩
    · by_cases hkind : (next externalFunctoids t).1.kind = .other
      · exact ⟨[], .endOfInput hnext hkind, Nat.zero_le _⟩
      · obtain ⟨ts, hrest, hlength⟩ := ih _ (hn ▸ hlt) _ rfl
        refine ⟨_ :: ts, .token hnext hkind hrest, ?_⟩
        rw [List.length_cons, ← hn]
        exact Nat.lt_of_le_of_lt hlength hlt

def Node.completionKeys : Node → List (Bytes × QuerryType)
  | .complete _ str cqtype => [(str, cqtype)]
  | .operation _ _ left right => left.completionKeys ++ right.completionKeys
  | _ => []

def Node.Fresh : Node → Prop
  | .invalid => True
  | .complete cached _ _ | .external cached _ _ => cached = none
  | .operation cached _ left right => cached = none ∧ left.Fresh ∧ right.Fresh

structure Built (cmpStrings : Completions) (n : Node) : Prop where
  fresh : n.Fresh
  keys : ∀ key ∈ n.completionKeys, key ∈ OrderedMap.keys cmpStrings

variable {cmpStrings : Completions} (token : Token)

theorem mem_keys_addCompletion {key : Bytes × QuerryType} (h : key ∈ OrderedMap.keys cmpStrings) :
    key ∈ OrderedMap.keys (addCompletion token cmpStrings) := by
  rw [addCompletion]
  split
  · exact h
  · rw [OrderedMap.keys_assign]
    split
    · exact h
    · exact List.mem_append_left _ h

theorem Built.addCompletion {n : Node} (h : Built cmpStrings n) :
    Built (addCompletion token cmpStrings) n where
  fresh := h.fresh
  keys key hkey := mem_keys_addCompletion token (h.keys key hkey)

theorem built_createNode (cmpStrings : Completions) :
    Built (addCompletion token cmpStrings) (createNode externalFunctoids token) := by
  rw [createNode, SetOpTreePrivateComplex.addCompletion]
  split
  next =>
    rw [createExternalNode]
    split
    · split
      · exact ⟨rfl, by simp [Node.completionKeys]⟩
      · exact ⟨trivial, by simp [Node.completionKeys]⟩
    · exact ⟨trivial, by simp [Node.completionKeys]⟩
  next =>
    refine ⟨rfl, fun key hkey => ?_⟩
    rw [createStringCompletionNode, Node.completionKeys, List.mem_singleton] at hkey
    rw [hkey, OrderedMap.keys_assign]
    split
    next hmem => exact hmem
    next => exact List.mem_append_right _ (List.mem_singleton.mpr rfl)

theorem Built.operation {left right : Node} (hleft : Built cmpStrings left)
    (hright : Built cmpStrings right) : Built cmpStrings (createOperationNode token left right) := by
  have hkeys : ∀ key ∈ left.completionKeys ++ right.completionKeys,
      key ∈ OrderedMap.keys cmpStrings := fun key hkey =>
    (List.mem_append.mp hkey).elim (hleft.keys key) (hright.keys key)
  rw [createOperationNode]
  split
  · exact ⟨⟨rfl, hleft.fresh, hright.fresh⟩, hkeys⟩
  · exact ⟨⟨rfl, hleft.fresh, hright.fresh⟩, hkeys⟩

def nextCompletions (cfg : Config Token Node) (cmpStrings : Completions) : Completions :=
  match cfg with
  | .terminal _ t => addCompletion t cmpStrings
  | _ => cmpStrings

theorem after_ne_terminal {Token Node : Type} (c : Context Token Node) :
    c.after ≠ .terminal := by
  cases c <;> exact fun h => by cases h

theorem states_ne_terminal {Token Node : Type} (c : Context Token Node)
    {rest : List ParseState} : c.states ≠ .terminal :: rest := by
  cases c <;> exact fun h => by cases h

theorem buildStep_toState (cfg : Config Token Node) (token : Token) (tokenizer : Tokenizer)
    (consumed : List Token) (cmpStrings : Completions) :
    buildStep externalFunctoids ⟨cfg.toState token tokenizer consumed, cmpStrings⟩ =
      ((action (parser externalFunctoids) token cfg).outcome (parser externalFunctoids) token
        tokenizer consumed (cfg.toState token tokenizer consumed)).map fun parse =>
          ⟨parse, nextCompletions cfg cmpStrings⟩ := by
  rw [buildStep, step_toState]
  cases (action (parser externalFunctoids) token cfg).outcome (parser externalFunctoids) token
      tokenizer consumed (cfg.toState token tokenizer consumed) with
  | error e => rfl
  | ok parse =>
    rw [ok_bind]
    cases cfg with
    | expecting c =>
      dsimp only
      split
      next hstates _ => exact absurd hstates (states_ne_terminal c)
      next => rfl
    | terminal c t => rfl
    | reduced c nt v =>
      dsimp only
      split
      next hstates _ =>
        exact absurd (List.cons.inj hstates).1 (after_ne_terminal c)
      next => rfl
    | closed c o nt cl v => rfl

theorem built_action {cfg cfg' : Config Token Node} {token : Token}
    (h : action (parser externalFunctoids) token cfg = .shift cfg' ∨
      action (parser externalFunctoids) token cfg = .reduce cfg')
    (hbuilt : ∀ v ∈ cfg.nodes, Built cmpStrings v) :
    ∀ v ∈ cfg'.nodes, Built (nextCompletions cfg cmpStrings) v := by
  cases cfg with
  | expecting c =>
    rw [action, OpTreeParser.shiftOperand] at h
    split at h
    · rcases h with h | h <;> cases h
      exact hbuilt
    · rcases h with h | h <;> cases h
      exact hbuilt
    · rcases h with h | h <;> cases h
  | terminal c t =>
    rcases h with h | h <;> cases h
    intro v hv
    rcases List.mem_cons.mp hv with rfl | hv
    · exact built_createNode t cmpStrings
    · exact (hbuilt v hv).addCompletion t
  | reduced c nt v =>
    cases c with
    | top =>
      rw [action] at h
      split at h
      · rcases h with h | h <;> cases h
        exact hbuilt
      · rcases h with h | h <;> cases h
    | brace c o =>
      rw [action] at h
      split at h
      · rcases h with h | h <;> cases h
        exact hbuilt
      · split at h
        · rcases h with h | h <;> cases h
          exact hbuilt
        · rcases h with h | h <;> cases h
    | operator c nt' left op =>
      rcases h with h | h <;> cases h
      intro v' hv
      rcases List.mem_cons.mp hv with rfl | hv
      · exact (hbuilt left (by simp [Config.nodes, Context.nodes])).operation op
          (hbuilt v (by simp [Config.nodes]))
      · exact hbuilt v' (List.mem_cons_of_mem _ (List.mem_cons_of_mem _ hv))
  | closed c o nt cl v =>
    rcases h with h | h <;> cases h
    exact hbuilt

theorem buildLoop_spec (cfg : Config Token Node) {token : Token} {tokenizer : Tokenizer}
    {consumed ts : List Token}
    (hreads : Reads (parser externalFunctoids) token tokenizer ts (.ok ())) {rounds : Nat}
    (hrounds : 2 * ts.length + cfg.weight + 2 ≤ rounds)
    (hbuilt : ∀ v ∈ cfg.nodes, Built cmpStrings v) :
    ∃ s, buildLoop externalFunctoids rounds ⟨cfg.toState token tokenizer consumed, cmpStrings⟩ =
      some (.ok s) ∧ ∀ v ∈ s.parse.nodeStack, Built s.cmpStrings v := by
  induction rounds generalizing cfg token tokenizer consumed ts cmpStrings with
  | zero => omega
  | succ rounds ih =>
    have hne : ¬ ((cfg.toState token tokenizer consumed).stateStack = [] ∨
        (cfg.toState token tokenizer consumed).done = true) := by
      simp [Config.toState, cfg.states_ne_nil]
    rw [buildLoop, if_neg hne, buildStep_toState]
    cases haction : action (parser externalFunctoids) token cfg with
    | stop =>
      obtain ⟨k, rfl⟩ : ∃ k, rounds = k + 1 := ⟨rounds - 1, by omega⟩
      refine ⟨⟨{ cfg.toState token tokenizer consumed with done := true },
        nextCompletions cfg cmpStrings⟩, if_pos (Or.inr rfl), ?_⟩
      have hcmp : nextCompletions cfg cmpStrings = cmpStrings := by
        cases cfg with
        | terminal c t => cases haction
        | _ => rfl
      rw [hcmp]
      exact hbuilt
    | reduce cfg' =>
      have hweight := action_reduce _ haction
      exact ih cfg' hreads (by omega) (built_action (.inr haction) hbuilt)
    | shift cfg' =>
      obtain ⟨hweight, hkind⟩ := action_shift _ haction
      obtain ⟨us, rfl, hdelivers⟩ := hreads.tail hkind
      rw [List.length_cons] at hrounds
      rcases hdelivers.next with ⟨e, -, ho⟩ | ⟨next, tokenizer', hnext, hreads'⟩
      · cases ho
      · rw [Action.outcome, hnext]
        exact ih cfg' hreads' (by omega) (built_action (.inl haction) hbuilt)

theorem build_spec (externalFunctoids : List (Bytes × SelectableOpFilter)) {query : Bytes}
    {rounds : Nat} (hrounds : 4 * (sanitize query).length + 2 ≤ rounds) :
    ∃ root cmpStrings, build externalFunctoids rounds query = some (.ok (root, cmpStrings)) ∧
      ∀ n, root = some n → Built cmpStrings n := by
  rw [build]
  split
  · exact ⟨none, [], rfl, by simp⟩
  · obtain ⟨ts, hdelivers, hlength⟩ := exists_delivers externalFunctoids (initTokenizer query)
    have hmeasure : (initTokenizer query).measure = 2 * (sanitize query).length := by
      simp [Tokenizer.measure, initTokenizer]
    rcases hdelivers.next with ⟨e, -, ho⟩ | ⟨token, tokenizer, hnext, hreads⟩
    · cases ho
    · have hstart : (parser externalFunctoids).start (initTokenizer query) =
          .ok ((Config.expecting .top).toState token tokenizer []) := by
        rw [Parser.start, hnext]
        rfl
      have hbound : 2 * ts.length + (Config.expecting (.top : Context Token Node)).weight + 2 ≤
          rounds := by
        simp only [Config.weight, Context.operators]
        omega
      obtain ⟨s, hloop, hbuilt⟩ : ∃ s, buildLoop externalFunctoids rounds
          ⟨(Config.expecting .top).toState token tokenizer [], []⟩ = some (.ok s) ∧
            ∀ v ∈ s.parse.nodeStack, Built s.cmpStrings v :=
        buildLoop_spec (.expecting .top) hreads hbound (by simp [Config.nodes, Context.nodes])
      rw [hstart]
      dsimp only
      rw [hloop]
      refine ⟨Parser.result s.parse, s.cmpStrings, rfl, fun n hn => ?_⟩
      exact hbuilt n (List.mem_of_getLast? hn)

end SetOpTreePrivateComplex

end Sserialize
