import Sserialize.Search.SetOpsOpTreeParser

namespace Sserialize

open InfixGrammar OpTreeParser

namespace SetOpsOpTreeParser

variable {strHinter : Bytes → Bool}

theorem readQuoted_le (tokenString it : Bytes) :
    (readQuoted tokenString it).2.length ≤ it.length ∧
      (readQuoted tokenString it).1.length + (readQuoted tokenString it).2.length ≤
        tokenString.length + it.length := by
  induction tokenString, it using readQuoted.induct with
  | case1 tokenString => simp [readQuoted]
  | case2 tokenString => simp [readQuoted]
  | case3 tokenString c it ih =>
    rw [readQuoted]
    simp only [List.length_append, List.length_cons, List.length_nil] at ih ⊢
    omega
  | case4 tokenString it hne hne' =>
    rw [readQuoted.eq_4 _ _ _ hne hne', if_pos rfl]
    simp only [List.length_append, List.length_cons, List.length_nil]
    omega
  | case5 tokenString c it hne hne' hquote ih =>
    rw [readQuoted.eq_4 _ _ _ hne hne', if_neg hquote]
    simp only [List.length_append, List.length_cons, List.length_nil] at ih ⊢
    omega

/-- Where `readPlain` stops, and the valid strings that it has seen. -/
structure PlainSpec (tokenString it : Bytes) (size : Int) (lastIt : Bytes)
    (s : ReadState) : Prop where
  strIt : s.strIt.length ≤ it.length
  total : s.tokenString.length + s.strIt.length ≤ tokenString.length + it.length
  lastValid : (s.lastValidStrSize = size ∧ s.lastValidStrIt = lastIt) ∨
    s.lastValidStrIt.length ≤ it.length

theorem PlainSpec.mono {tokenString tokenString' it it' : Bytes} {size : Int}
    {lastIt : Bytes} {s : ReadState} (h : PlainSpec tokenString' it' size lastIt s)
    (hit : it'.length ≤ it.length)
    (htotal : tokenString'.length + it'.length ≤ tokenString.length + it.length) :
    PlainSpec tokenString it size lastIt s where
  strIt := Nat.le_trans h.strIt hit
  total := Nat.le_trans h.total htotal
  lastValid := h.lastValid.imp_right fun hle => Nat.le_trans hle hit

theorem readPlain_spec (tokenString it : Bytes) (size : Int) (lastIt : Bytes) :
    PlainSpec tokenString it size lastIt (readPlain strHinter tokenString it size lastIt) := by
  have hsnoc : ∀ (c : UInt8) (tokenString it : Bytes),
      (tokenString ++ [c]).length + it.length ≤ tokenString.length + (c :: it).length := by
    intro c tokenString it
    simp only [List.length_append, List.length_cons, List.length_nil]
    omega
  induction tokenString, it, size, lastIt using readPlain.induct strHinter with
  | case1 tokenString size lastIt =>
    rw [readPlain]
    exact ⟨Nat.le_refl _, Nat.le_refl _, .inl ⟨rfl, rfl⟩⟩
  | case2 tokenString size lastIt =>
    rw [readPlain]
    exact ⟨Nat.zero_le _, Nat.le_succ _, .inl ⟨rfl, rfl⟩⟩
  | case3 tokenString c it size lastIt ih =>
    rw [readPlain]
    refine ih.mono ?_ ?_ <;> simp only [List.length_append, List.length_cons, List.length_nil] <;>
      omega
  | case4 tokenString it size lastIt hne hne' hhint hvalid ih =>
    rw [readPlain.eq_4 _ _ _ _ _ _ hne hne', if_pos rfl, if_pos hhint, if_pos hvalid]
    refine ⟨Nat.le_trans ih.strIt (Nat.le_succ _), Nat.le_trans ih.total (hsnoc _ _ _), .inr ?_⟩
    rcases ih.lastValid with ⟨-, hlast⟩ | hle
    · rw [hlast]
    · exact Nat.le_trans hle (Nat.le_succ _)
  | case5 tokenString it size lastIt hne hne' hhint hvalid ih =>
    rw [readPlain.eq_4 _ _ _ _ _ _ hne hne', if_pos rfl, if_pos hhint, if_neg hvalid]
    exact ih.mono (Nat.le_succ _) (hsnoc _ _ _)
  | case6 tokenString it size lastIt hne hne' hhint =>
    rw [readPlain.eq_4 _ _ _ _ _ _ hne hne', if_pos rfl, if_neg hhint]
    exact ⟨Nat.le_refl _, Nat.le_refl _, .inl ⟨rfl, rfl⟩⟩
  | case7 tokenString c it size lastIt hne hne' hspace hparen hvalid =>
    rw [readPlain.eq_4 _ _ _ _ _ _ hne hne', if_neg hspace, if_pos hparen, if_pos hvalid]
    exact ⟨Nat.le_refl _, Nat.le_refl _, .inr (Nat.le_refl _)⟩
  | case8 tokenString c it size lastIt hne hne' hspace hparen hvalid =>
    rw [readPlain.eq_4 _ _ _ _ _ _ hne hne', if_neg hspace, if_pos hparen, if_neg hvalid]
    exact ⟨Nat.le_refl _, Nat.le_refl _, .inl ⟨rfl, rfl⟩⟩
  | case9 tokenString c it size lastIt hne hne' hspace hparen hop hback =>
    rw [readPlain.eq_4 _ _ _ _ _ _ hne hne', if_neg hspace, if_neg hparen, if_pos hop,
      if_pos hback]
    exact ⟨Nat.le_refl _, Nat.le_refl _, .inl ⟨rfl, rfl⟩⟩
  | case10 tokenString c it size lastIt hne hne' hspace hparen hop hback ih =>
    rw [readPlain.eq_4 _ _ _ _ _ _ hne hne', if_neg hspace, if_neg hparen, if_pos hop,
      if_neg hback]
    exact ih.mono (Nat.le_succ _) (hsnoc _ _ _)
  | case11 tokenString c it size lastIt hne hne' hspace hparen hop ih =>
    rw [readPlain.eq_4 _ _ _ _ _ _ hne hne', if_neg hspace, if_neg hparen, if_neg hop]
    exact ih.mono (Nat.le_succ _) (hsnoc _ _ _)

theorem toInt_of_lt {size : Nat} (h : size < 2 ^ 31) : toInt size = (size : Int) := by
  have hmod : size % 2 ^ 32 = size := Nat.mod_eq_of_lt (by omega)
  rw [toInt, hmod, if_pos h]

/-- The outcomes of `readString` with at most so many characters that can get into the token, which
leaves at most so many. -/
def ReadSpec (total left : Nat) : Except Fault (Token × Bytes) → Prop
  | .error e => e = .lengthError ∧ 2 ^ 31 ≤ total
  | .ok (token, it) => token.type = .string ∧ it.length ≤ left

theorem finish_spec {s : ReadState} {total left : Nat}
    (hsize : s.lastValidStrSize < 0 → 2 ^ 31 ≤ total) (hleft : s.strIt.length ≤ left) :
    ReadSpec total left (finish s) := by
  rw [finish, resize]
  split
  next hneg => exact ⟨rfl, hsize hneg⟩
  next hneg => exact ⟨rfl, hleft⟩

theorem le_of_toInt_neg {size total : Nat} (h : toInt size < 0) (hsize : size ≤ total) :
    2 ^ 31 ≤ total := by
  by_contra hlt
  rw [toInt_of_lt (by omega)] at h
  omega

theorem readPlain_cons (c : UInt8) (tokenString it : Bytes) (size : Int) (lastIt : Bytes)
    (hspace : c ≠ octet ' ') (hparen : ¬ (c = octet '(' ∨ c = octet ')'))
    (hop : ¬ (opMap c).isSome) :
    PlainSpec (tokenString ++ [c]) it size lastIt
      (readPlain strHinter tokenString (c :: it) size lastIt) := by
  by_cases hback : c = 0x5c
  · subst hback
    cases it with
    | nil =>
      rw [readPlain]
      exact ⟨Nat.le_refl _, by simp, .inl ⟨rfl, rfl⟩⟩
    | cons d it =>
      rw [readPlain]
      exact (readPlain_spec _ _ _ _).mono (Nat.le_succ _) (by simp)
  · rw [readPlain.eq_4 _ _ _ _ _ _ (fun h _ => hback h) (fun _ _ h _ => hback h), if_neg hspace,
      if_neg hparen, if_neg hop]
    exact readPlain_spec _ _ _ _

theorem ReadSpec.mono {total left total' left' : Nat} {r : Except Fault (Token × Bytes)}
    (h : ReadSpec total left r) (htotal : total ≤ total') (hleft : left ≤ left') :
    ReadSpec total' left' r := by
  cases r with
  | error e => exact ⟨h.1, Nat.le_trans h.2 htotal⟩
  | ok r => exact ⟨h.1, Nat.le_trans h.2 hleft⟩

theorem readBody_quoted (begin' tokenString it : Bytes) :
    ReadSpec (tokenString.length + it.length + 1) it.length
      (readBody strHinter begin' tokenString (octet '"' :: it)) := by
  obtain ⟨hleft, htotal⟩ := readQuoted_le (tokenString ++ [octet '"']) it
  rw [List.length_append, List.length_singleton] at htotal
  rw [readBody, if_pos (List.head?_cons ..)]
  generalize hread : readQuoted (tokenString ++ [octet '"']) (octet '"' :: it).tail = read
  rw [List.tail_cons] at hread
  rw [hread] at hleft htotal
  obtain ⟨quoted, rest⟩ := read
  dsimp only at hleft htotal
  by_cases hquestion : rest.head? = some (octet '?')
  · simp only [if_pos hquestion]
    obtain ⟨rest', rfl⟩ : ∃ rest', rest = octet '?' :: rest' := List.head?_eq_some_iff.mp hquestion
    simp only [List.length_cons] at hleft htotal
    refine finish_spec (fun h => le_of_toInt_neg h ?_) ?_
    · simp only [List.length_append, List.length_singleton]
      omega
    · simp only [List.tail_cons]
      omega
  · simp only [if_neg hquestion]
    exact finish_spec (fun h => le_of_toInt_neg h (by omega)) hleft

theorem readBody_plain {begin' tokenString it tokenString' it' : Bytes}
    (hquote : it.head? ≠ some (octet '"'))
    (h : PlainSpec tokenString' it' (-1) begin' (readPlain strHinter tokenString it (-1) begin')) :
    ReadSpec (tokenString'.length + it'.length) it'.length
      (readBody strHinter begin' tokenString it) := by
  have htotal := h.total
  have hleft := h.strIt
  rw [readBody, if_neg hquote]
  dsimp only
  split
  next => exact finish_spec (fun hneg => le_of_toInt_neg hneg (by omega)) hleft
  next hvalid =>
    have hsize : ¬ (readPlain strHinter tokenString it (-1) begin').lastValidStrSize < 0 :=
      fun hneg => hvalid (.inl hneg)
    split
    next hpos =>
      refine finish_spec (fun hneg => absurd hneg hsize) ?_
      rcases h.lastValid with ⟨hfirst, -⟩ | hle
      · omega
      · exact hle
    next => exact finish_spec (fun hneg => absurd hneg hsize) hleft

theorem readString_spec (c : UInt8) (it : Bytes) (hspace : c ≠ octet ' ')
    (hparen : ¬ (c = octet '(' ∨ c = octet ')')) (hop : ¬ (opMap c).isSome) :
    ReadSpec (it.length + 1) it.length (readString strHinter (c :: it)) := by
  by_cases hquestion : c = octet '?'
  · subst hquestion
    rw [readString, if_pos (List.head?_cons ..), List.tail_cons]
    by_cases hquote : it.head? = some (octet '"')
    · obtain ⟨it', rfl⟩ : ∃ it', it = octet '"' :: it' := List.head?_eq_some_iff.mp hquote
      refine (readBody_quoted _ _ _).mono ?_ (Nat.le_succ _)
      simp only [List.length_cons, List.length_nil]
      omega
    · refine (readBody_plain hquote (readPlain_spec _ _ _ _)).mono ?_ (Nat.le_refl _)
      simp only [List.length_singleton]
      omega
  · have hhead : (c :: it).head? ≠ some (octet '?') := by simpa using hquestion
    rw [readString, if_neg hhead]
    by_cases hquote : c = octet '"'
    · subst hquote
      exact (readBody_quoted _ _ _).mono (by simp) (Nat.le_refl _)
    · refine (readBody_plain (by simpa using hquote)
        (readPlain_cons c [] it _ _ hspace hparen hop)).mono ?_ (Nat.le_refl _)
      simp only [List.nil_append, List.length_singleton]
      omega

def Tokenizer.measure (t : Tokenizer) : Nat :=
  2 * t.strIt.length + if t.beforeWasTerminal then 1 else 0

theorem Tokenizer.measure_lt {t t' : Tokenizer} (h : t'.strIt.length < t.strIt.length) :
    t'.measure < t.measure := by
  have hflag : (if t'.beforeWasTerminal then 1 else 0) ≤ 1 := by split <;> decide
  rw [measure, measure]
  omega

structure Separates (beforeWasTerminal : Bool) (token : Token) (t : Tokenizer) : Prop where
  before : beforeWasTerminal = true → token.kind ≠ .operand ∧ token.kind ≠ .braceOpen
  after : token.kind = .operand ∨ token.kind = .braceClose → t.beforeWasTerminal = true

def NextSpec (t : Tokenizer) : Except Fault (Token × Tokenizer) → Prop
  | .error e => e = .lengthError ∧ 2 ^ 32 ≤ t.measure
  | .ok (token, t') =>
    Separates t.beforeWasTerminal token t' ∧ (token.kind = .other ∨ t'.measure < t.measure)

theorem nextTokenLoop_spec (beforeWasTerminal : Bool) (it : Bytes) :
    NextSpec ⟨it, beforeWasTerminal⟩ (nextTokenLoop strHinter beforeWasTerminal it) := by
  induction it with
  | nil => exact ⟨⟨fun _ => by simp [Token.kind], by rintro (h | h) <;> cases h⟩, .inl rfl⟩
  | cons c it ih =>
    rw [nextTokenLoop]
    split
    next hspace =>
      have hle : Tokenizer.measure ⟨it, beforeWasTerminal⟩ ≤
          Tokenizer.measure ⟨c :: it, beforeWasTerminal⟩ := by
        simp [Tokenizer.measure]
      cases hnext : nextTokenLoop strHinter beforeWasTerminal it with
      | error e =>
        rw [hnext] at ih
        exact ⟨ih.1, Nat.le_trans ih.2 hle⟩
      | ok r =>
        rw [hnext] at ih
        exact ⟨ih.1, ih.2.imp_right fun hlt => Nat.lt_of_lt_of_le hlt hle⟩
    next hspace =>
      split
      next hop =>
        exact ⟨⟨fun _ => by simp [Token.kind], by rintro (h | h) <;> cases h⟩,
          Or.inr (Tokenizer.measure_lt (Nat.lt_succ_self _))⟩
      next hop =>
        split
        next hopen =>
          split
          next hbefore =>
            refine ⟨⟨fun _ => by simp [Token.kind, defaultOp], by rintro (h | h) <;> cases h⟩,
              Or.inr ?_⟩
            simp [Tokenizer.measure, hbefore]
          next hbefore =>
            exact ⟨⟨fun h => absurd h hbefore, by rintro (h | h) <;> cases h⟩,
              Or.inr (Tokenizer.measure_lt (Nat.lt_succ_self _))⟩
        next hopen =>
          split
          next hclose =>
            exact ⟨⟨fun _ => by simp [Token.kind], fun _ => rfl⟩,
              Or.inr (Tokenizer.measure_lt (Nat.lt_succ_self _))⟩
          next hclose =>
            split
            next hbefore =>
              refine ⟨⟨fun _ => by simp [Token.kind, defaultOp], by rintro (h | h) <;> cases h⟩,
                Or.inr ?_⟩
              simp [Tokenizer.measure, hbefore]
            next hbefore =>
              have hread : ReadSpec (it.length + 1) it.length (readString strHinter (c :: it)) :=
                readString_spec c it hspace (by rintro (h | h) <;> contradiction) hop
              cases hstring : readString strHinter (c :: it) with
              | error e =>
                rw [hstring] at hread
                refine ⟨hread.1, ?_⟩
                have hlong := hread.2
                simp only [Tokenizer.measure, List.length_cons]
                omega
              | ok r =>
                rw [hstring] at hread
                exact ⟨⟨fun h => absurd h hbefore, fun _ => rfl⟩,
                  Or.inr (Tokenizer.measure_lt (Nat.lt_succ_of_le hread.2))⟩

theorem nextToken_spec (t : Tokenizer) : NextSpec t (nextToken strHinter t) :=
  nextTokenLoop_spec t.beforeWasTerminal t.strIt

theorem exists_delivers (t : Tokenizer) : ∃ ts o, Delivers (parser strHinter) t ts o := by
  induction hn : t.measure using Nat.strong_induction_on generalizing t with
  | _ n ih =>
    have hspec : NextSpec t (nextToken strHinter t) := nextToken_spec t
    cases hnext : nextToken strHinter t with
    | error e => exact ⟨[], .error e, .fault hnext⟩
    | ok r =>
      obtain ⟨token, t'⟩ := r
      rw [hnext] at hspec
      by_cases hkind : token.kind = .other
      · exact ⟨[], .ok (), .endOfInput hnext hkind⟩
      · have hlt : t'.measure < n := hn ▸ hspec.2.resolve_left hkind
        obtain ⟨ts, o, hrest⟩ := ih t'.measure hlt t' rfl
        exact ⟨token :: ts, o, .token hnext hkind hrest⟩

variable {o : Except Fault Unit} {ts : List Token}

theorem delivers_bounds {t : Tokenizer} (h : Delivers (parser strHinter) t ts o) :
    ts.length ≤ t.measure ∧ ∀ e, o = .error e → e = .lengthError ∧ 2 ^ 32 ≤ t.measure := by
  induction h with
  | @fault l e hnext =>
    have hspec : NextSpec l (nextToken strHinter l) := nextToken_spec l
    have hnext' : nextToken strHinter l = .error e := hnext
    rw [hnext'] at hspec
    refine ⟨Nat.zero_le _, fun e' he => ?_⟩
    cases he
    exact hspec
  | endOfInput _ _ => exact ⟨Nat.zero_le _, fun e he => by cases he⟩
  | @token l l' token ts o hnext hkind _ ih =>
    have hspec : NextSpec l (nextToken strHinter l) := nextToken_spec l
    have hnext' : nextToken strHinter l = .ok (token, l') := hnext
    rw [hnext'] at hspec
    have hlt : l'.measure < l.measure := hspec.2.resolve_left hkind
    refine ⟨?_, fun e he => ⟨(ih.2 e he).1, ?_⟩⟩
    · rw [List.length_cons]
      omega
    · have hlong := (ih.2 e he).2
      omega

theorem delivers_isChain {t : Tokenizer} (h : Delivers (parser strHinter) t ts o) :
    (t.beforeWasTerminal = true →
      ∀ u ∈ ts.head?, u.kind ≠ .operand ∧ u.kind ≠ .braceOpen) ∧
    ts.IsChain fun u v =>
      u.kind = .operand ∨ u.kind = .braceClose → v.kind ≠ .operand ∧ v.kind ≠ .braceOpen := by
  induction h with
  | fault _ | endOfInput _ _ => exact ⟨fun _ u hu => by simp at hu, .nil⟩
  | @token l l' token ts o hnext _ _ ih =>
    have hspec : NextSpec l (nextToken strHinter l) := nextToken_spec l
    have hnext' : nextToken strHinter l = .ok (token, l') := hnext
    rw [hnext'] at hspec
    have hsep : Separates l.beforeWasTerminal token l' := hspec.1
    refine ⟨fun hbefore u hu => ?_, ?_⟩
    · obtain rfl : token = u := by simpa using hu
      exact hsep.before hbefore
    · cases ts with
      | nil => exact .singleton _
      | cons v vs =>
        refine List.isChain_cons_cons.mpr ⟨fun hterminal => ?_, ih.2⟩
        exact ih.1 (hsep.after hterminal) v rfl

def Node.leaves : Node → List (Bytes)
  | .leaf q => [q]
  | .op _ left right => left.leaves ++ right.leaves

theorem measure_initTokenizer (query : Bytes) :
    (initTokenizer query).measure = 2 * (sanitize query).length := by
  simp [Tokenizer.measure, initTokenizer]

theorem run_ends {query : Bytes} (h : Delivers (parser strHinter) (initTokenizer query) ts o)
    {rounds : Nat} (hrounds : 4 * (sanitize query).length + 2 ≤ rounds) :
    ∃ r, run strHinter rounds query = some r ∧ Ends ts [] o r := by
  have hlength := (delivers_bounds h).1
  rw [measure_initTokenizer] at hlength
  rw [run, Parser.start]
  rcases h.next with ⟨e, he, ho⟩ | ⟨token, tokenizer, hnext, hreads⟩
  · rw [he]
    exact ⟨.error e, rfl, ho⟩
  · rw [hnext]
    exact loop_ends (.expecting .top) hreads (by
      simp only [Config.weight, Context.operators]
      omega)

/-- `parse` ends for all strings and hinters. The only exception is that of the tokenizer on strings
with a size that is no `int`, so no empty stack is popped. A default operator stands between adjacent
operands. The tokens are consumed in their order, each of them once, and if they are those of an
expression, then the tree of its derivation is returned. -/
theorem parse_correct (strHinter : Bytes → Bool) (query : Bytes) :
    (∃ ts o, Delivers (parser strHinter) (initTokenizer query) ts o) ∧
      ∀ ts o, Delivers (parser strHinter) (initTokenizer query) ts o →
        (ts.IsChain fun t u =>
          t.kind = .operand ∨ t.kind = .braceClose → u.kind ≠ .operand ∧ u.kind ≠ .braceOpen) ∧
        ∀ rounds, 4 * (sanitize query).length + 2 ≤ rounds →
          ∃ r, run strHinter rounds query = some r ∧
            (∀ e, r = .error e →
              o = .error e ∧ e = .lengthError ∧ 2 ^ 31 ≤ (sanitize query).length) ∧
            (∀ s, r = .ok s → ∃ rest, ts = s.consumed.reverse ++ rest) ∧
            ∀ v, o = .ok () → Derives (parser strHinter).toSemantics .expression ts v →
              parse strHinter rounds query = some (.ok (some v)) ∧
              (∃ s, r = .ok s ∧ s.consumed = ts.reverse) ∧
              v.leaves = (ts.filter fun t => t.type = .string).map Token.tokenString := by
  refine ⟨exists_delivers _, fun ts o hdelivers =>
    ⟨(delivers_isChain hdelivers).2, fun rounds hrounds => ?_⟩⟩
  obtain ⟨r, hrun, hends⟩ := run_ends hdelivers hrounds
  refine ⟨r, hrun, ?_, ?_, ?_⟩
  · rintro e rfl
    have ho : o = .error e := hends
    obtain ⟨he, hlong⟩ := (delivers_bounds hdelivers).2 e ho
    rw [measure_initTokenizer] at hlong
    exact ⟨ho, he, by omega⟩
  · rintro s rfl
    obtain ⟨shifted, rest, hts, hconsumed⟩ := hends
    exact ⟨rest, by rw [hconsumed, hts]; simp⟩
  · rintro v rfl hderives
    have hinit : (initTokenizer query).strIt ≠ [] := by
      intro hnil
      have hlength := (delivers_bounds hdelivers).1
      rw [measure_initTokenizer, show sanitize query = [] from hnil] at hlength
      exact hderives.ne_nil (List.length_eq_zero_iff.mp (by simpa using hlength))
    rw [run] at hrun
    obtain ⟨s, hs, hresult, hconsumed⟩ : ∃ s, r = .ok s ∧ Parser.result s = some v ∧
        s.consumed = ts.reverse := by
      cases hstart : (parser strHinter).start (initTokenizer query) with
      | error e =>
        rw [hstart] at hrun
        cases hrun
        cases hends
      | ok s₀ =>
        rw [hstart] at hrun
        exact loop_of_derives hderives hstart hdelivers hrun
    refine ⟨?_, ⟨s, hs, hconsumed⟩, ?_⟩
    · rw [parse, if_neg hinit, run, hrun, hs]
      simp [Except.map, hresult]
    · have hkind : ∀ t : Token, t.kind = .operand ↔ t.type = .string := by
        intro t
        cases htype : t.type <;> simp [Token.kind, htype]
      have hleaves := hderives.leaves_eq Node.leaves Token.tokenString (fun t _ => rfl) (fun o l r => rfl)
      rw [hleaves]
      congr 2
      funext t
      exact decide_eq_decide.mpr (hkind t)

end SetOpsOpTreeParser

end Sserialize
