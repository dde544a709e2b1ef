import Sserialize.Library.EscapedText
import Sserialize.Search.SetOpTreeBuilderCorrect
import Sserialize.Search.SetOpsOpTreeParser

/-!
# Sanitized queries

Both tokenizers clean their query with the same loop and their own operators. An escaped character
leaves the flag of the pending operator as it is.
-/

namespace Sserialize

open EscapedText

namespace SetOpsOpTreeParser

def alphabet : Alphabet UInt8 where
  escape := octet '\\'
  opening := octet '('
  closing := octet ')'
  isOp c := (opMap c).isSome
  opening_ne := by decide
  closing_ne := by decide
  opening_ne_closing := by decide
  isOp_escape := by decide
  isOp_opening := by decide
  isOp_closing := by decide

theorem cleaningLoop : alphabet.CleaningLoop (2 ^ 32) (sanitizeLoop alphabet.isOp) where
  nil depth before := rfl
  lone depth before := rfl
  escaped depth before c text := rfl
  char depth before c text hc := by
    rw [sanitizeLoop]
    · rfl
    · exact fun h => absurd h hc
    · exact fun _ _ h => absurd h hc

theorem sanitize_eq (query : Bytes) :
    sanitize query = alphabet.render (clean (2 ^ 32) 0 false (alphabet.items query)) :=
  cleaningLoop.eq_render 0 false query

end SetOpsOpTreeParser

namespace SetOpTreePrivateComplex

def alphabet : Alphabet UInt8 where
  escape := octet '\\'
  opening := octet '('
  closing := octet ')'
  isOp c := (opMap c).isSome
  opening_ne := by decide
  closing_ne := by decide
  opening_ne_closing := by decide
  isOp_escape := by decide
  isOp_opening := by decide
  isOp_closing := by decide

theorem cleaningLoop : alphabet.CleaningLoop (2 ^ 32) sanitizeLoop where
  nil depth before := rfl
  lone depth before := rfl
  escaped depth before c text := rfl
  char depth before c text hc := by
    rw [sanitizeLoop.eq_def]
    exact if_neg hc

theorem sanitize_eq (query : Bytes) :
    sanitize query = alphabet.render (clean (2 ^ 32) 0 false (alphabet.items query)) :=
  cleaningLoop.eq_render 0 false query

end SetOpTreePrivateComplex

/-- The queries that both functions sanitize. -/
theorem sanitizes_iff (query query' : Bytes) :
    (SetOpsOpTreeParser.alphabet.Sanitizes SetOpsOpTreeParser.sanitize query ↔
      SetOpsOpTreeParser.alphabet.SanitizesWhen (2 ^ 32) query) ∧
    (SetOpTreePrivateComplex.alphabet.Sanitizes SetOpTreePrivateComplex.sanitize query' ↔
      SetOpTreePrivateComplex.alphabet.SanitizesWhen (2 ^ 32) query') :=
  ⟨Alphabet.sanitizes_iff_sanitizesWhen (Nat.two_pow_pos 32) SetOpsOpTreeParser.sanitize_eq query,
    Alphabet.sanitizes_iff_sanitizesWhen (Nat.two_pow_pos 32) SetOpTreePrivateComplex.sanitize_eq
      query'⟩

def escapedOperand : Bytes := [octet '+', octet '\\', octet 'a', octet '+']

theorem nice_escapedOperand : SetOpsOpTreeParser.alphabet.Nice escapedOperand := by
  have hlast : ¬ SetOpsOpTreeParser.alphabet.EndsInEscape [octet '+'] :=
    fun h => absurd h (by change ¬ octet '+' = octet '\\'; decide)
  have hend : ¬ SetOpsOpTreeParser.alphabet.EndsInEscape escapedOperand := by
    rw [escapedOperand, Alphabet.endsInEscape_cons (by decide)]
    exact (Alphabet.endsInEscape_escape (octet 'a') [octet '+']).not.mpr hlast
  refine ⟨rfl, hend, ?_⟩
  intro front c middle d back h
  change [Item.op (octet '+'), .escaped (octet 'a'), .op (octet '+')] = _ at h
  match front, middle with
  | [], [] => cases h
  | [], i :: middle =>
    have hi : .escaped (octet 'a') = i := (List.cons.inj (List.cons.inj h).2).1
    rw [← hi]
    exact ⟨_, List.mem_cons_self, trivial⟩
  | [f], middle => cases (List.cons.inj (List.cons.inj h).2).1
  | f :: g :: front, middle =>
    have hlength := congrArg List.length h
    simp only [List.length_cons, List.length_append, List.length_nil] at hlength
    omega

/-- Two operators with an escaped operand between them. -/
theorem not_sanitizes : ¬ ∀ query : Bytes,
    SetOpsOpTreeParser.alphabet.Sanitizes SetOpsOpTreeParser.sanitize query := by
  intro h
  have hunchanged := (h escapedOperand).unchanged nice_escapedOperand
  revert hunchanged
  decide

end Sserialize

/-!
## Tokens of a query

Every token moves the tokenizer on. The value of a filter is read from the sanitized query, in which
the character behind a backslash is read twice.
-/

namespace Sserialize.SetOpTreePrivateComplex

variable (externalFunctoids : List (Bytes × SelectableOpFilter))

/-- The tokens in front of the end of the input, of at most so many calls of `next`. -/
def tokens : Nat → Tokenizer → Option (List Token)
  | 0, _ => none
  | fuel + 1, t =>
    if (next externalFunctoids t).1.type = .endOfInput then some []
    else (tokens fuel (next externalFunctoids t).2).map ((next externalFunctoids t).1 :: ·)

/-- A call of `next` reads characters behind the spaces. -/
def Consumes (t : Tokenizer) : Prop :=
  (next externalFunctoids t).1.type ≠ .endOfInput ∧
    (next externalFunctoids t).2.strIt.length < (t.strIt.dropWhile (· = octet ' ')).length

/-- Only spaces are left, or characters are read, or the default operator is inserted and the next
call reads characters. -/
inductive Advances (t : Tokenizer) : Prop
  | atEnd (spaces : t.strIt.dropWhile (· = octet ' ') = [])
      (token : (next externalFunctoids t).1.type = .endOfInput)
  | consumes (reads : Consumes externalFunctoids t)
  | inserted (token : (next externalFunctoids t).1 = defaultOp)
      (strIt : (next externalFunctoids t).2.strIt = t.strIt.dropWhile (· = octet ' '))
      (reads : Consumes externalFunctoids (next externalFunctoids t).2)

/-- Every call of `next` advances, and the tokens of the query end. -/
def Tokenizes (query : Bytes) : Prop :=
  (∀ t, Advances externalFunctoids t) ∧
    ∃ fuel ts, tokens externalFunctoids fuel (initTokenizer query) = some ts

/-! ## Progress -/

variable {externalFunctoids}

theorem nextLoop_space (before : Bool) (it : Bytes) :
    nextLoop externalFunctoids before (octet ' ' :: it) = nextLoop externalFunctoids before it :=
  if_pos rfl

theorem nextLoop_dropWhile (before : Bool) (it : Bytes) :
    nextLoop externalFunctoids before it =
      nextLoop externalFunctoids before (it.dropWhile (· = octet ' ')) := by
  induction it with
  | nil => rfl
  | cons c it ih =>
    by_cases hc : c = octet ' '
    · subst hc
      rw [nextLoop_space, List.dropWhile_cons_of_pos (by decide), ih]
    · rw [List.dropWhile_cons_of_neg (by simpa using hc)]

theorem consumes_cons {c : UInt8} (hc : c ≠ octet ' ') (it : Bytes) :
    (nextLoop externalFunctoids false (c :: it)).1.type ≠ .endOfInput ∧
      (nextLoop externalFunctoids false (c :: it)).2.strIt.length < (c :: it).length := by
  rw [nextLoop, if_neg hc]
  cases hop : opMap c with
  | some op => exact ⟨fun h => (by cases h), Nat.lt_succ_self _⟩
  | none =>
    dsimp only
    split
    next => exact ⟨fun h => (by cases h), Nat.lt_succ_self _⟩
    next hopen =>
      split
      next => exact ⟨fun h => (by cases h), Nat.lt_succ_self _⟩
      next hclose =>
        rw [if_neg Bool.false_ne_true]
        split
        next =>
          obtain ⟨htype, hlength⟩ := readExternal_spec externalFunctoids it
          exact ⟨fun h => (by cases htype.symm.trans h), Nat.lt_succ_of_le hlength⟩
        next hdollar =>
          have hread := length_readString_cons c it
            (by simp [hop, hc, hopen, hclose, hdollar])
          exact ⟨fun h => (by cases h), Nat.lt_succ_of_le hread⟩

theorem nextLoop_true_cons {c : UInt8} (hc : c ≠ octet ' ') (it : Bytes) :
    nextLoop externalFunctoids true (c :: it) = (defaultOp, ⟨c :: it, false⟩) ∨
      nextLoop externalFunctoids true (c :: it) = nextLoop externalFunctoids false (c :: it) := by
  rw [nextLoop, nextLoop, if_neg hc, if_neg hc]
  cases hop : opMap c with
  | some op => exact .inr rfl
  | none =>
    dsimp only
    split
    next => exact .inl rfl
    next =>
      split
      next => exact .inr rfl
      next => exact .inl rfl

theorem advances (externalFunctoids : List (Bytes × SelectableOpFilter)) (t : Tokenizer) :
    Advances externalFunctoids t := by
  have hnext : next externalFunctoids t =
      nextLoop externalFunctoids t.beforeWasTerminal (t.strIt.dropWhile (· = octet ' ')) :=
    nextLoop_dropWhile _ _
  cases hit : t.strIt.dropWhile (· = octet ' ') with
  | nil =>
    refine .atEnd hit ?_
    rw [hnext, hit]
    rfl
  | cons c it =>
    have hc : c ≠ octet ' ' := by
      have hhead := List.head?_dropWhile_not (· = octet ' ') t.strIt
      rw [hit] at hhead
      simpa using hhead
    have hreads : (nextLoop externalFunctoids false (c :: it)).1.type ≠ .endOfInput ∧
        (nextLoop externalFunctoids false (c :: it)).2.strIt.length < (c :: it).length :=
      consumes_cons hc it
    rw [hit] at hnext
    have hstart : t.beforeWasTerminal = false ∨
        nextLoop externalFunctoids true (c :: it) = nextLoop externalFunctoids false (c :: it) →
        Advances externalFunctoids t := by
      intro hstart
      refine .consumes ?_
      rw [Consumes, hnext, hit]
      cases hbefore : t.beforeWasTerminal with
      | false => exact hreads
      | true =>
        rw [hstart.resolve_left (by rw [hbefore]; exact Bool.true_eq_false_eq_False)]
        exact hreads
    cases hbefore : t.beforeWasTerminal with
    | false => exact hstart (.inl hbefore)
    | true =>
      rcases @nextLoop_true_cons externalFunctoids c hc it with hop | hsame
      · rw [hbefore, hop] at hnext
        refine .inserted ?_ ?_ ?_
        · rw [hnext]
        · rw [hnext, hit]
        · rw [hnext, Consumes]
          dsimp only
          rw [List.dropWhile_cons_of_neg (by simpa using hc)]
          exact hreads
      · exact hstart (.inr hsame)

theorem tokens_succ (fuel : Nat) (t : Tokenizer) :
    tokens externalFunctoids (fuel + 1) t =
      if (next externalFunctoids t).1.type = .endOfInput then some []
      else (tokens externalFunctoids fuel (next externalFunctoids t).2).map
        ((next externalFunctoids t).1 :: ·) := rfl

theorem Consumes.measure_lt {t : Tokenizer} (h : Consumes externalFunctoids t) :
    (next externalFunctoids t).2.measure < t.measure :=
  Tokenizer.measure_lt (h.2.trans_le (List.dropWhile_suffix _).length_le)

theorem endOfInput_or_measure_lt (t : Tokenizer) :
    (next externalFunctoids t).1.type = .endOfInput ∨
      (next externalFunctoids t).2.measure < t.measure := by
  cases advances externalFunctoids t with
  | atEnd spaces token => exact .inl token
  | consumes reads => exact .inr reads.measure_lt
  | inserted token strIt reads =>
    refine .inr ((nextLoop_spec externalFunctoids t.beforeWasTerminal t.strIt).resolve_left ?_)
    change (next externalFunctoids t).1.kind ≠ _
    rw [token]
    exact nofun

theorem exists_tokens (externalFunctoids : List (Bytes × SelectableOpFilter)) (t : Tokenizer) :
    ∃ fuel ts, tokens externalFunctoids fuel t = some ts := by
  induction hn : t.measure using Nat.strong_induction_on generalizing t with
  | _ n ih =>
    by_cases hend : (next externalFunctoids t).1.type = .endOfInput
    · exact ⟨1, [], (tokens_succ 0 t).trans (if_pos hend)⟩
    · have hlt := (endOfInput_or_measure_lt t).resolve_left hend
      obtain ⟨fuel, ts, hts⟩ := ih _ (hn ▸ hlt) _ rfl
      refine ⟨fuel + 1, (next externalFunctoids t).1 :: ts, ?_⟩
      rw [tokens_succ, if_neg hend, hts]
      rfl

theorem tokenizes (externalFunctoids : List (Bytes × SelectableOpFilter)) (query : Bytes) :
    Tokenizes externalFunctoids query :=
  ⟨advances externalFunctoids, exists_tokens externalFunctoids (initTokenizer query)⟩

end Sserialize.SetOpTreePrivateComplex
