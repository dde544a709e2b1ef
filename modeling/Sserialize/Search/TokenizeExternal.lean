import Mathlib.Data.List.TakeWhile
import Sserialize.Search.Sanitize

/-!
# Filters in a query

A filter `f` with the value `s` is written `$f[s']`, where `s'` has a backslash in front of every
backslash and closing bracket of `s`. The sanitized query is read twice behind a backslash, so that
most values with one of the two characters are not read back.
-/

namespace Sserialize.SetOpTreePrivateComplex

def escapeValue (s : Bytes) : Bytes :=
  s.flatMap fun c => if c = octet '\\' ∨ c = octet ']' then [octet '\\', c] else [c]

def filterQuery (f s : Bytes) : Bytes :=
  octet '$' :: (f ++ octet '[' :: (escapeValue s ++ [octet ']']))

def YieldsExternal (externalFunctoids : List (Bytes × SelectableOpFilter)) (f s : Bytes) : Prop :=
  ∃ id fuel, (externalFunctoids.findIdx? fun entry => entry.1 = f) = some id ∧
    tokens externalFunctoids fuel (initTokenizer (filterQuery f s)) =
      some [⟨s, .external, .external id⟩]

/-! ## The values that are read back -/

def Ordinary (c : UInt8) : Prop :=
  c ≠ octet '\\' ∧ c ≠ octet '(' ∧ c ≠ octet ')' ∧ (opMap c).isSome = false

/-- The value of a filter, with the open parentheses and the pending operator in front of it. There
is no closing bracket in it, and `sanitize` drops nothing of it and appends nothing, but for what
stands behind a backslash: there the reader gives a character too many, and `sanitize` drops the
second one of two operators, or the last one of closing parentheses. -/
inductive Survives : Nat → Bool → Bytes → Prop
  | nil (before : Bool) : Survives 0 before []
  | ordinary {depth : Nat} {before : Bool} {c : UInt8} {s : Bytes} :
    Ordinary c → c ≠ octet ']' → Survives depth false s → Survives depth before (c :: s)
  | opening {depth : Nat} {before : Bool} {s : Bytes} :
    Survives (u32 (depth + 1)) before s → Survives depth before (octet '(' :: s)
  | closing {depth : Nat} {before : Bool} {s : Bytes} :
    Survives depth before s → Survives (depth + 1) before (octet ')' :: s)
  | operator {depth : Nat} {c : UInt8} {s : Bytes} :
    (opMap c).isSome → Survives depth true s → Survives depth false (c :: s)
  | operatorTwice {depth : Nat} {c : UInt8} {s : Bytes} :
    (opMap c).isSome → Survives depth true s →
      Survives depth false (octet '\\' :: c :: c :: s)
  | closingTwice {depth : Nat} {before : Bool} {s : Bytes} :
    Survives 0 before s →
      Survives (depth + 1) before (octet '\\' :: (List.replicate (depth + 2) (octet ')') ++ s))

/-- The name of a filter in front of the value: it has no opening bracket and no space, and
`sanitize` drops nothing of it. -/
inductive Named (s : Bytes) : Nat → Bool → Bytes → Prop
  | nil {depth : Nat} {before : Bool} : Survives depth false s → Named s depth before []
  | escape {depth : Nat} {before : Bool} :
    Survives depth before s → Named s depth before [octet '\\']
  | escaped {depth : Nat} {before : Bool} {c : UInt8} {f : Bytes} :
    c ≠ octet '[' → c ≠ octet ' ' → Named s depth before f →
      Named s depth before (octet '\\' :: c :: f)
  | ordinary {depth : Nat} {before : Bool} {c : UInt8} {f : Bytes} :
    Ordinary c → c ≠ octet '[' → c ≠ octet ' ' → Named s depth false f →
      Named s depth before (c :: f)
  | opening {depth : Nat} {before : Bool} {f : Bytes} :
    Named s (u32 (depth + 1)) before f → Named s depth before (octet '(' :: f)
  | closing {depth : Nat} {before : Bool} {f : Bytes} :
    Named s depth before f → Named s (depth + 1) before (octet ')' :: f)
  | operator {depth : Nat} {c : UInt8} {f : Bytes} :
    (opMap c).isSome → Named s depth true f → Named s depth false (c :: f)

/-! ## Kinds of characters -/

inductive CharKind (c : UInt8) : Prop
  | escape (h : c = octet '\\')
  | opening (h : c = octet '(')
  | closing (h : c = octet ')')
  | operator (h : (opMap c).isSome)
  | ordinary (h : Ordinary c)

theorem charKind (c : UInt8) : CharKind c := by
  by_cases hescape : c = octet '\\'
  · exact .escape hescape
  · by_cases hopening : c = octet '('
    · exact .opening hopening
    · by_cases hclosing : c = octet ')'
      · exact .closing hclosing
      · cases hop : (opMap c).isSome with
        | true => exact .operator hop
        | false => exact .ordinary ⟨hescape, hopening, hclosing, hop⟩

variable {c : UInt8} {depth : Nat} {before : Bool}

theorem ne_of_isOp {d : UInt8} (hc : (opMap c).isSome) (hd : (opMap d).isSome = false) : c ≠ d := by
  rintro rfl
  rw [hd] at hc
  cases hc

theorem ordinary_bracket : Ordinary (octet ']') :=
  ⟨by decide, by decide, by decide, by decide⟩

theorem ordinary_opening_bracket : Ordinary (octet '[') :=
  ⟨by decide, by decide, by decide, by decide⟩

/-! ## Sanitized text -/

theorem sanitizeLoop_escaped (depth : Nat) (before : Bool) (c : UInt8) (text : Bytes) :
    sanitizeLoop depth before (octet '\\' :: c :: text) =
      octet '\\' :: c :: sanitizeLoop depth before text := cleaningLoop.escaped depth before c text

theorem sanitizeLoop_ordinary (depth : Nat) (before : Bool) (hc : Ordinary c) (text : Bytes) :
    sanitizeLoop depth before (c :: text) = c :: sanitizeLoop depth false text := by
  obtain ⟨hescape, hopening, hclosing, hop⟩ := hc
  refine (cleaningLoop.char depth before c text hescape).trans ?_
  refine (if_neg hclosing).trans ((if_neg ?_).trans (if_neg hopening))
  change ¬ (opMap c).isSome = true
  rw [hop]
  exact Bool.false_ne_true

theorem sanitizeLoop_opening (depth : Nat) (before : Bool) (text : Bytes) :
    sanitizeLoop depth before (octet '(' :: text) =
      octet '(' :: sanitizeLoop (u32 (depth + 1)) before text :=
  cleaningLoop.char depth before (octet '(') text (by decide)

theorem sanitizeLoop_closing_zero (before : Bool) (text : Bytes) :
    sanitizeLoop 0 before (octet ')' :: text) = sanitizeLoop 0 before text :=
  cleaningLoop.char 0 before (octet ')') text (by decide)

theorem sanitizeLoop_closing_succ (depth : Nat) (before : Bool) (text : Bytes) :
    sanitizeLoop (depth + 1) before (octet ')' :: text) =
      octet ')' :: sanitizeLoop depth before text :=
  cleaningLoop.char (depth + 1) before (octet ')') text (by decide)

theorem sanitizeLoop_operator (depth : Nat) (before : Bool) (hc : (opMap c).isSome) (text : Bytes) :
    sanitizeLoop depth before (c :: text) =
      if before then sanitizeLoop depth before text else c :: sanitizeLoop depth true text := by
  refine (cleaningLoop.char depth before c text (ne_of_isOp hc (by decide))).trans ?_
  exact (if_neg (ne_of_isOp hc (by decide))).trans (if_pos hc)

def Dropped (depth : Nat) (before : Bool) (c : UInt8) : Prop :=
  (c = octet ')' ∧ depth = 0) ∨ ((opMap c).isSome ∧ before = true)

theorem Dropped.ne {d : UInt8} (h : Dropped depth before c) (hclosing : d ≠ octet ')')
    (hop : (opMap d).isSome = false) : d ≠ c := by
  rcases h with ⟨rfl, -⟩ | ⟨hc, -⟩
  · exact hclosing
  · exact (ne_of_isOp hc hop).symm

theorem sanitizeLoop_dropped (h : Dropped depth before c) (text : Bytes) :
    sanitizeLoop depth before (c :: text) = sanitizeLoop depth before text := by
  rcases h with ⟨rfl, rfl⟩ | ⟨hc, rfl⟩
  · exact sanitizeLoop_closing_zero before text
  · exact sanitizeLoop_operator depth true hc text

/-- What `sanitize` does with a character, by its kind. -/
inductive TextCase (depth : Nat) (before : Bool) (c : UInt8) : Prop
  | escape (h : c = octet '\\')
  | dropped (h : Dropped depth before c)
  | kept (depth' : Nat) (before' : Bool) (hne : c ≠ octet '\\') (hdropped : ¬ Dropped depth before c)
      (h : ∀ text, sanitizeLoop depth before (c :: text) = c :: sanitizeLoop depth' before' text)

theorem not_dropped_of_kind (hclosing : c ≠ octet ')') (hop : (opMap c).isSome = false) :
    ¬ Dropped depth before c := fun h => h.ne hclosing hop rfl

theorem textCase (depth : Nat) (before : Bool) (c : UInt8) : TextCase depth before c := by
  cases charKind c with
  | escape h => exact .escape h
  | opening h =>
    subst h
    exact .kept _ before (by decide) (not_dropped_of_kind (by decide) (by decide))
      (sanitizeLoop_opening depth before)
  | closing h =>
    subst h
    cases depth with
    | zero => exact .dropped (.inl ⟨rfl, rfl⟩)
    | succ depth =>
      exact .kept depth before (by decide)
        (fun h => h.elim (fun h => nomatch h.2) (fun h => absurd h.1 (by decide)))
        (sanitizeLoop_closing_succ depth before)
  | operator h =>
    have hclosing : c ≠ octet ')' := ne_of_isOp h (by decide)
    cases before with
    | true => exact .dropped (.inr ⟨h, rfl⟩)
    | false =>
      exact .kept depth true (ne_of_isOp h (by decide))
        (fun h => h.elim (fun h => hclosing h.1) (fun h => nomatch h.2))
        (sanitizeLoop_operator depth false h)
  | ordinary h =>
    exact .kept depth false h.1 (not_dropped_of_kind h.2.2.1 h.2.2.2)
      (sanitizeLoop_ordinary depth before h)

theorem head?_sanitizeLoop_ne (h : Dropped depth before c) (text : Bytes) :
    (sanitizeLoop depth before text).head? ≠ some c := by
  have hescape : octet '\\' ≠ c := h.ne (by decide) (by decide)
  have hclosing : (List.replicate depth (octet ')')).head? ≠ some c := by
    rcases h with ⟨rfl, rfl⟩ | ⟨hc, rfl⟩
    · exact nofun
    · intro hhead
      have hmem := List.mem_of_mem_head? hhead
      exact ne_of_isOp hc (by decide) (List.eq_of_mem_replicate hmem)
  induction text using alphabet.text_induction with
  | nil => exact hclosing
  | lone =>
    rw [cleaningLoop.lone]
    exact hclosing
  | escaped e text _ =>
    rw [cleaningLoop.escaped]
    exact fun heq => hescape (Option.some.inj heq)
  | char d text hd ih =>
    cases textCase depth before d with
    | escape hd' => exact absurd hd' hd
    | dropped hd' =>
      rw [sanitizeLoop_dropped hd']
      exact ih
    | kept depth' before' hne hdropped hd' =>
      rw [hd']
      exact fun heq => hdropped (Option.some.inj heq ▸ h)

/-! ## The sanitized value -/

def valueText (depth : Nat) (before : Bool) (s : Bytes) : Bytes :=
  sanitizeLoop depth before (escapeValue s ++ [octet ']'])

theorem escapeValue_escaped (hc : c = octet '\\' ∨ c = octet ']') (s : Bytes) :
    escapeValue (c :: s) = octet '\\' :: c :: escapeValue s := by
  rw [escapeValue, List.flatMap_cons, if_pos hc]
  rfl

theorem escapeValue_cons (hescape : c ≠ octet '\\') (hbracket : c ≠ octet ']') (s : Bytes) :
    escapeValue (c :: s) = c :: escapeValue s := by
  rw [escapeValue, List.flatMap_cons, if_neg (not_or.mpr ⟨hescape, hbracket⟩)]
  rfl

theorem valueText_nil (depth : Nat) (before : Bool) :
    valueText depth before [] = octet ']' :: List.replicate depth (octet ')') :=
  sanitizeLoop_ordinary depth before ordinary_bracket []

theorem valueText_escaped (depth : Nat) (before : Bool) (hc : c = octet '\\' ∨ c = octet ']')
    (s : Bytes) :
    valueText depth before (c :: s) = octet '\\' :: c :: valueText depth before s := by
  rw [valueText, escapeValue_escaped hc]
  exact sanitizeLoop_escaped depth before c _

theorem valueText_ordinary (depth : Nat) (before : Bool) (hc : Ordinary c) (hbracket : c ≠ octet ']')
    (s : Bytes) : valueText depth before (c :: s) = c :: valueText depth false s := by
  rw [valueText, escapeValue_cons hc.1 hbracket]
  exact sanitizeLoop_ordinary depth before hc _

theorem valueText_opening (depth : Nat) (before : Bool) (s : Bytes) :
    valueText depth before (octet '(' :: s) = octet '(' :: valueText (u32 (depth + 1)) before s := by
  rw [valueText, escapeValue_cons (by decide) (by decide)]
  exact sanitizeLoop_opening depth before _

theorem valueText_closing (depth : Nat) (before : Bool) (s : Bytes) :
    valueText (depth + 1) before (octet ')' :: s) = octet ')' :: valueText depth before s := by
  rw [valueText, escapeValue_cons (by decide) (by decide)]
  exact sanitizeLoop_closing_succ depth before _

theorem valueText_operator (depth : Nat) (hc : (opMap c).isSome) (s : Bytes) :
    valueText depth false (c :: s) = c :: valueText depth true s := by
  rw [valueText, escapeValue_cons (ne_of_isOp hc (by decide)) (ne_of_isOp hc (by decide))]
  exact sanitizeLoop_operator depth false hc _

theorem valueText_dropped (h : Dropped depth before c) (s : Bytes) :
    valueText depth before (c :: s) = valueText depth before s := by
  have hescape : octet '\\' ≠ c := h.ne (by decide) (by decide)
  have hbracket : octet ']' ≠ c := h.ne (by decide) (by decide)
  rw [valueText, escapeValue_cons hescape.symm hbracket.symm]
  exact sanitizeLoop_dropped h _

/-- What stands in front of a value, read by the kind of its character. -/
inductive ValueCase (depth : Nat) (before : Bool) (c : UInt8) : Prop
  | escape (h : c = octet '\\')
  | bracket (h : c = octet ']')
  | dropped (h : Dropped depth before c)
  | kept (depth' : Nat) (before' : Bool) (hne : c ≠ octet '\\') (hne' : c ≠ octet ']')
      (hdropped : ¬ Dropped depth before c)
      (h : ∀ s, valueText depth before (c :: s) = c :: valueText depth' before' s)

theorem valueCase (depth : Nat) (before : Bool) (c : UInt8) : ValueCase depth before c := by
  by_cases hbracket : c = octet ']'
  · exact .bracket hbracket
  · cases textCase depth before c with
    | escape h => exact .escape h
    | dropped h => exact .dropped h
    | kept depth' before' hne hdropped h =>
      refine .kept depth' before' hne hbracket hdropped fun s => ?_
      rw [valueText, escapeValue_cons hne hbracket]
      exact h _

/-! ## Reading -/

theorem readValue_eq_append (efValue it : Bytes) :
    readValue efValue it = (efValue ++ (readValue [] it).1, (readValue [] it).2) := by
  induction it generalizing efValue with
  | nil => exact congrArg (·, []) (List.append_nil efValue).symm
  | cons c it ih =>
    rw [readValue.eq_def efValue, readValue.eq_def []]
    dsimp only
    split
    next =>
      cases it with
      | nil => exact congrArg (·, []) (List.append_nil efValue).symm
      | cons e it =>
        dsimp only
        rw [ih (efValue ++ [e]), ih ([] ++ [e]), List.append_assoc]
        rfl
    next =>
      split
      next => exact congrArg (·, it) (List.append_nil efValue).symm
      next =>
        rw [ih (efValue ++ [c]), ih ([] ++ [c]), List.append_assoc]
        rfl

variable (it : Bytes)

theorem readValue_bracket : readValue [] (octet ']' :: it) = ([], it) := by
  rw [readValue.eq_def]
  rfl

theorem readValue_escape (c : UInt8) (it : Bytes) :
    readValue [] (octet '\\' :: c :: it) =
      (c :: (readValue [] (c :: it)).1, (readValue [] (c :: it)).2) := by
  rw [readValue.eq_def]
  exact readValue_eq_append [c] (c :: it)

theorem readValue_cons (hescape : c ≠ octet '\\') (hbracket : c ≠ octet ']') (it : Bytes) :
    readValue [] (c :: it) = (c :: (readValue [] it).1, (readValue [] it).2) := by
  rw [readValue.eq_def]
  dsimp only
  rw [if_neg hescape, if_neg hbracket]
  exact readValue_eq_append [c] it

def value (depth : Nat) (before : Bool) (s : Bytes) : Bytes × Bytes :=
  readValue [] (valueText depth before s)

theorem value_nil (depth : Nat) (before : Bool) :
    value depth before [] = ([], List.replicate depth (octet ')')) := by
  rw [value, valueText_nil, readValue_bracket]

theorem value_bracket (depth : Nat) (before : Bool) (s : Bytes) :
    value depth before (octet ']' :: s) = ([octet ']'], valueText depth before s) := by
  rw [value, valueText_escaped depth before (.inr rfl), readValue_escape, readValue_bracket]

theorem value_dropped (h : Dropped depth before c) (s : Bytes) :
    value depth before (c :: s) = value depth before s := by
  rw [value, valueText_dropped h, value]

theorem value_kept {depth' : Nat} {before' : Bool} (hne : c ≠ octet '\\') (hne' : c ≠ octet ']')
    {s : Bytes} (h : valueText depth before (c :: s) = c :: valueText depth' before' s) :
    value depth before (c :: s) = (c :: (value depth' before' s).1, (value depth' before' s).2) := by
  rw [value, h, readValue_cons hne hne', value]

theorem value_escape {x : UInt8} {it s : Bytes} (h : valueText depth before s = x :: it) :
    value depth before (octet '\\' :: s) =
      (octet '\\' :: x :: (value depth before s).1, (value depth before s).2) := by
  rw [value, valueText_escaped depth before (.inl rfl), readValue_escape, h, readValue_escape, value, h]

theorem exists_valueText_eq_cons (depth : Nat) (before : Bool) (s : Bytes) :
    ∃ x it, valueText depth before s = x :: it := by
  induction s with
  | nil => exact ⟨_, _, valueText_nil depth before⟩
  | cons c s ih =>
    cases valueCase depth before c with
    | escape h => exact ⟨_, _, valueText_escaped depth before (.inl h) s⟩
    | bracket h => exact ⟨_, _, valueText_escaped depth before (.inr h) s⟩
    | dropped h =>
      rw [valueText_dropped h]
      exact ih
    | kept depth' before' _ _ _ h => exact ⟨_, _, h s⟩

theorem mem_valueText (depth : Nat) (before : Bool) (s : Bytes) :
    octet ']' ∈ valueText depth before s := by
  induction s generalizing depth before with
  | nil =>
    rw [valueText_nil]
    exact List.mem_cons_self
  | cons c s ih =>
    cases valueCase depth before c with
    | escape h =>
      rw [valueText_escaped depth before (.inl h)]
      exact List.mem_cons_of_mem _ (List.mem_cons_of_mem _ (ih depth before))
    | bracket h =>
      rw [valueText_escaped depth before (.inr h)]
      exact List.mem_cons_of_mem _ (List.mem_cons_of_mem _ (ih depth before))
    | dropped h =>
      rw [valueText_dropped h]
      exact ih depth before
    | kept depth' before' _ _ _ h =>
      rw [h]
      exact List.mem_cons_of_mem _ (ih depth' before')

theorem head?_ne_of_dropped (h : Dropped depth before c) (s : Bytes) :
    (valueText depth before s).head? ≠ some c ∧ (value depth before s).1.head? ≠ some c := by
  have hescape : octet '\\' ≠ c := h.ne (by decide) (by decide)
  have hbracket : octet ']' ≠ c := h.ne (by decide) (by decide)
  induction s with
  | nil =>
    rw [valueText_nil, value_nil]
    exact ⟨fun heq => hbracket (Option.some.inj heq), nofun⟩
  | cons d s ih =>
    cases valueCase depth before d with
    | escape hd =>
      subst hd
      obtain ⟨x, it, hx⟩ := exists_valueText_eq_cons depth before s
      rw [valueText_escaped depth before (.inl rfl), value_escape hx]
      exact ⟨fun heq => hescape (Option.some.inj heq), fun heq => hescape (Option.some.inj heq)⟩
    | bracket hd =>
      subst hd
      rw [valueText_escaped depth before (.inr rfl), value_bracket]
      exact ⟨fun heq => hescape (Option.some.inj heq), fun heq => hbracket (Option.some.inj heq)⟩
    | dropped hd =>
      rw [valueText_dropped hd, value_dropped hd]
      exact ih
    | kept depth' before' hne hne' hdropped hd =>
      have hdc : d ≠ c := fun heq => hdropped (heq ▸ h)
      rw [value_kept hne hne' (hd s), hd]
      exact ⟨fun heq => hdc (Option.some.inj heq), fun heq => hdc (Option.some.inj heq)⟩

/-! ## The values that are read back -/

def ReadsBack (v : Bytes × Bytes) (s : Bytes) : Prop :=
  v.1 = s ∧ ∀ x ∈ v.2, x = octet ' '

theorem readsBack_cons {v : Bytes × Bytes} {s : Bytes} :
    ReadsBack (c :: v.1, v.2) (c :: s) ↔ ReadsBack v s :=
  and_congr_left fun _ => List.cons_inj_right c

theorem value_replicate_closing (depth : Nat) (before : Bool) (s : Bytes) :
    value depth before (List.replicate (depth + 1) (octet ')') ++ s) =
      (List.replicate depth (octet ')') ++ (value 0 before s).1, (value 0 before s).2) := by
  induction depth with
  | zero => exact value_dropped (.inl ⟨rfl, rfl⟩) s
  | succ depth ih =>
    rw [List.replicate_succ, List.cons_append,
      value_kept (by decide) (by decide) (valueText_closing depth before _), ih]
    rfl

theorem Survives.readsBack {s : Bytes} (h : Survives depth before s) :
    ReadsBack (value depth before s) s := by
  induction h with
  | nil before =>
    rw [value_nil]
    exact ⟨rfl, nofun⟩
  | ordinary hc hbracket _ ih =>
    rw [value_kept hc.1 hbracket (valueText_ordinary _ _ hc hbracket _)]
    exact readsBack_cons.mpr ih
  | opening _ ih =>
    rw [value_kept (by decide) (by decide) (valueText_opening _ _ _)]
    exact readsBack_cons.mpr ih
  | closing _ ih =>
    rw [value_kept (by decide) (by decide) (valueText_closing _ _ _)]
    exact readsBack_cons.mpr ih
  | operator hc _ ih =>
    rw [value_kept (ne_of_isOp hc (by decide)) (ne_of_isOp hc (by decide))
      (valueText_operator _ hc _)]
    exact readsBack_cons.mpr ih
  | operatorTwice hc _ ih =>
    rw [value_escape (valueText_operator _ hc _), value_kept (ne_of_isOp hc (by decide))
      (ne_of_isOp hc (by decide)) (valueText_operator _ hc _), value_dropped (.inr ⟨hc, rfl⟩)]
    exact readsBack_cons.mpr (readsBack_cons.mpr (readsBack_cons.mpr ih))
  | @closingTwice depth before s _ ih =>
    have hfirst := valueText_closing depth before (List.replicate (depth + 1) (octet ')') ++ s)
    rw [← List.cons_append, ← List.replicate_succ] at hfirst
    rw [value_escape hfirst, value_replicate_closing]
    exact ⟨congrArg (fun t => octet '\\' :: (octet ')' :: (List.replicate (depth + 1) _ ++ t))) ih.1,
      ih.2⟩

/-! What a value that is read back looks like behind a backslash. -/

theorem cons_value_ne_of_kept (hescape : c ≠ octet '\\') (hbracket : c ≠ octet ']')
    (hkept : ∀ depth before, ¬ Dropped depth before c) (s : Bytes) :
    c :: (value depth before s).1 ≠ s := by
  induction s generalizing depth before with
  | nil => exact List.cons_ne_nil _ _
  | cons d s ih =>
    intro h
    obtain rfl : c = d := (List.cons.inj h).1
    cases valueCase depth before c with
    | escape hc => exact hescape hc
    | bracket hc => exact hbracket hc
    | dropped hc => exact hkept _ _ hc
    | kept depth' before' hne hne' hdropped hc =>
      rw [value_kept hne hne' (hc s)] at h
      exact ih (List.cons.inj h).2

theorem replicate_append_cons (n : Nat) (x : UInt8) (l : Bytes) :
    List.replicate n x ++ x :: l = List.replicate (n + 1) x ++ l := by
  rw [List.replicate_succ', List.append_assoc]
  rfl

theorem escapes_value_ne (n : Nat) (s : Bytes) :
    List.replicate (n + 1) (octet '\\') ++ (value depth before s).1 ≠ s := by
  induction s generalizing n with
  | nil => exact List.cons_ne_nil _ _
  | cons d s ih =>
    intro h
    rw [List.replicate_succ, List.cons_append] at h
    obtain ⟨rfl, hrest⟩ := List.cons.inj h
    obtain ⟨x, it, hx⟩ := exists_valueText_eq_cons depth before s
    rw [value_escape hx, replicate_append_cons] at hrest
    -- the text goes on with a backslash, which is the one that is read twice
    have hescape : x = octet '\\' := by
      rw [List.replicate_succ, List.cons_append] at hrest
      rw [← hrest, valueText_escaped depth before (.inl rfl)] at hx
      exact (List.cons.inj hx).1.symm
    subst hescape
    rw [replicate_append_cons] at hrest
    exact ih (n + 1) hrest

theorem exists_of_closing_value_eq {s : Bytes}
    (h : octet ')' :: (value depth before s).1 = s) :
    ∃ t, s = List.replicate (depth + 1) (octet ')') ++ t ∧ (value 0 before t).1 = t ∧
      (value 0 before t).2 = (value depth before s).2 := by
  induction depth generalizing s with
  | zero =>
    obtain ⟨t, rfl⟩ : ∃ t, s = octet ')' :: t := ⟨_, h.symm⟩
    have hdropped : Dropped 0 before (octet ')') := .inl ⟨rfl, rfl⟩
    rw [value_dropped hdropped] at h
    exact ⟨t, rfl, (List.cons.inj h).2, by rw [value_dropped hdropped]⟩
  | succ depth ih =>
    obtain ⟨s, rfl⟩ : ∃ t, s = octet ')' :: t := ⟨_, h.symm⟩
    have hkept := value_kept (by decide) (by decide) (valueText_closing depth before s)
    rw [hkept] at h
    obtain ⟨t, hs, ht, hrest⟩ := ih (List.cons.inj h).2
    refine ⟨t, ?_, ht, ?_⟩
    · rw [List.replicate_succ, List.cons_append, ← hs]
    · rw [hkept, hrest]

theorem survives_escape {s : Bytes} {x : UInt8} {it : Bytes}
    (ih : ∀ t : Bytes, t.length ≤ s.length → ∀ {depth before},
      ReadsBack (value depth before t) t → Survives depth before t)
    (hx : valueText depth before s = x :: it) (h : x :: (value depth before s).1 = s)
    (hspaces : ∀ y ∈ (value depth before s).2, y = octet ' ') :
    Survives depth before (octet '\\' :: s) := by
  obtain ⟨s, rfl⟩ : ∃ t, s = x :: t := ⟨_, h.symm⟩
  have hnot : ¬ Dropped depth before x := fun hdropped =>
    (head?_ne_of_dropped hdropped (x :: s)).1 (by rw [hx]; rfl)
  cases charKind x with
  | escape hc =>
    subst hc
    exact absurd h (escapes_value_ne 0 _)
  | opening hc =>
    subst hc
    exact absurd h (cons_value_ne_of_kept (by decide) (by decide)
      (fun _ _ => not_dropped_of_kind (by decide) (by decide)) _)
  | ordinary hc =>
    by_cases hbracket : x = octet ']'
    · rw [valueText_escaped depth before (.inr hbracket), hbracket] at hx
      exact absurd (List.cons.inj hx).1 (by decide)
    · exact absurd h (cons_value_ne_of_kept hc.1 hbracket
        (fun _ _ => not_dropped_of_kind hc.2.2.1 hc.2.2.2) _)
  | operator hc =>
    cases before with
    | true => exact absurd (.inr ⟨hc, rfl⟩) hnot
    | false =>
      rw [value_kept (ne_of_isOp hc (by decide)) (ne_of_isOp hc (by decide))
        (valueText_operator depth hc s)] at h hspaces
      obtain ⟨t, rfl⟩ : ∃ t, s = x :: t := ⟨_, (List.cons.inj h).2.symm⟩
      rw [value_dropped (.inr ⟨hc, rfl⟩)] at h hspaces
      have ht := (List.cons.inj (List.cons.inj h).2).2
      exact .operatorTwice hc (ih t (by simp only [List.length_cons]; omega) ⟨ht, hspaces⟩)
  | closing hc =>
    subst hc
    cases depth with
    | zero => exact absurd (.inl ⟨rfl, rfl⟩) hnot
    | succ depth =>
      rw [value_kept (by decide) (by decide) (valueText_closing depth before s)] at h hspaces
      obtain ⟨t, rfl, ht, hrest⟩ := exists_of_closing_value_eq (List.cons.inj h).2
      rw [← hrest] at hspaces
      refine .closingTwice (ih t ?_ ⟨ht, hspaces⟩)
      simp only [List.length_cons, List.length_append]
      omega

theorem survives_of_readsBack {s : Bytes} (h : ReadsBack (value depth before s) s) :
    Survives depth before s := by
  induction hn : s.length using Nat.strong_induction_on generalizing s depth before with
  | _ n ih =>
    cases s with
    | nil =>
      rw [value_nil] at h
      cases depth with
      | zero => exact .nil before
      | succ depth => exact absurd (h.2 _ List.mem_cons_self) (by decide)
    | cons c s =>
      rw [List.length_cons] at hn
      have hdropped : ¬ Dropped depth before c := fun hc =>
        (head?_ne_of_dropped hc (c :: s)).2 (by rw [h.1]; rfl)
      cases charKind c with
      | escape hc =>
        subst hc
        obtain ⟨x, it, hx⟩ := exists_valueText_eq_cons depth before s
        rw [value_escape hx] at h
        refine survives_escape ?_ hx (List.cons.inj h.1).2 h.2
        exact fun t ht _ _ htback => ih t.length (by omega) htback rfl
      | opening hc =>
        subst hc
        rw [value_kept (by decide) (by decide) (valueText_opening depth before s)] at h
        exact .opening (ih s.length (by omega) (readsBack_cons.mp h) rfl)
      | closing hc =>
        subst hc
        cases depth with
        | zero => exact absurd (.inl ⟨rfl, rfl⟩) hdropped
        | succ depth =>
          rw [value_kept (by decide) (by decide) (valueText_closing depth before s)] at h
          exact .closing (ih s.length (by omega) (readsBack_cons.mp h) rfl)
      | operator hc =>
        cases before with
        | true => exact absurd (.inr ⟨hc, rfl⟩) hdropped
        | false =>
          rw [value_kept (ne_of_isOp hc (by decide)) (ne_of_isOp hc (by decide))
            (valueText_operator depth hc s)] at h
          exact .operator hc (ih s.length (by omega) (readsBack_cons.mp h) rfl)
      | ordinary hc =>
        by_cases hbracket : c = octet ']'
        · subst hbracket
          rw [value_bracket] at h
          exact absurd (h.2 _ (mem_valueText depth before s)) (by decide)
        · rw [value_kept hc.1 hbracket (valueText_ordinary depth before hc hbracket s)] at h
          exact .ordinary hc hbracket (ih s.length (by omega) (readsBack_cons.mp h) rfl)

/-! ## The name in front of the value -/

theorem readName_eq_append (efName it : Bytes) :
    readName efName it =
      ((readName [] it).1, efName ++ (readName [] it).2.1, (readName [] it).2.2) := by
  induction it generalizing efName with
  | nil => exact congrArg (true, ·, []) (List.append_nil efName).symm
  | cons c it ih =>
    rw [readName, readName]
    split
    next => exact congrArg (true, ·, it) (List.append_nil efName).symm
    next =>
      split
      next => exact congrArg (false, ·, c :: it) (List.append_nil efName).symm
      next =>
        rw [ih (efName ++ [c]), ih ([] ++ [c]), List.append_assoc]
        rfl

theorem readName_cons (hbracket : c ≠ octet '[') (hspace : c ≠ octet ' ') (it : Bytes) :
    readName [] (c :: it) =
      ((readName [] it).1, c :: (readName [] it).2.1, (readName [] it).2.2) := by
  rw [readName, if_neg hbracket, if_neg hspace]
  exact readName_eq_append [c] it

theorem readName_bracket : readName [] (octet '[' :: it) = (true, [], it) := if_pos rfl

theorem readName_space : readName [] (octet ' ' :: it) = (false, [], octet ' ' :: it) := rfl

def FilterRead (it f s : Bytes) : Prop :=
  (readName [] it).1 = true ∧ (readName [] it).2.1 = f ∧
    ReadsBack (readValue [] (readName [] it).2.2) s

theorem filterRead_bracket (it s : Bytes) :
    FilterRead (octet '[' :: it) [] s ↔ ReadsBack (readValue [] it) s := by
  rw [FilterRead, readName_bracket]
  exact ⟨fun h => h.2.2, fun h => ⟨rfl, rfl, h⟩⟩

theorem FilterRead.cons {it f s : Bytes} (h : FilterRead it (c :: f) s) :
    ∃ it', it = c :: it' ∧ c ≠ octet '[' ∧ c ≠ octet ' ' ∧ FilterRead it' f s := by
  obtain ⟨hread, hname, hvalue⟩ := h
  cases it with
  | nil => cases hname
  | cons d it =>
    by_cases hbracket : d = octet '['
    · subst hbracket
      rw [readName_bracket] at hname
      cases hname
    · by_cases hspace : d = octet ' '
      · subst hspace
        rw [readName_space] at hname
        cases hname
      · rw [readName_cons hbracket hspace] at hread hname hvalue
        obtain ⟨rfl, hrest⟩ := List.cons.inj hname
        exact ⟨it, rfl, hbracket, hspace, hread, hrest, hvalue⟩

theorem filterRead_cons (hbracket : c ≠ octet '[') (hspace : c ≠ octet ' ') {it f s : Bytes}
    (h : FilterRead it f s) : FilterRead (c :: it) (c :: f) s := by
  obtain ⟨hread, hname, hvalue⟩ := h
  rw [FilterRead, readName_cons hbracket hspace]
  exact ⟨hread, congrArg (c :: ·) hname, hvalue⟩

def nameText (s : Bytes) (depth : Nat) (before : Bool) (f : Bytes) : Bytes :=
  sanitizeLoop depth before (f ++ octet '[' :: (escapeValue s ++ [octet ']']))

theorem nameText_nil (s : Bytes) (depth : Nat) (before : Bool) :
    nameText s depth before [] = octet '[' :: valueText depth false s :=
  sanitizeLoop_ordinary depth before ordinary_opening_bracket _

theorem Named.filterRead {s f : Bytes} (h : Named s depth before f) :
    FilterRead (nameText s depth before f) f s := by
  induction h with
  | nil h =>
    rw [nameText_nil, filterRead_bracket]
    exact h.readsBack
  | escape h =>
    exact filterRead_cons (by decide) (by decide) ((filterRead_bracket _ s).mpr h.readsBack)
  | escaped hbracket hspace _ ih =>
    rw [nameText, List.cons_append, List.cons_append, sanitizeLoop_escaped]
    exact filterRead_cons (by decide) (by decide) (filterRead_cons hbracket hspace ih)
  | ordinary hc hbracket hspace _ ih =>
    rw [nameText, List.cons_append, sanitizeLoop_ordinary _ _ hc]
    exact filterRead_cons hbracket hspace ih
  | opening _ ih =>
    rw [nameText, List.cons_append, sanitizeLoop_opening]
    exact filterRead_cons (by decide) (by decide) ih
  | closing _ ih =>
    rw [nameText, List.cons_append, sanitizeLoop_closing_succ]
    exact filterRead_cons (by decide) (by decide) ih
  | operator hc _ ih =>
    rw [nameText, List.cons_append, sanitizeLoop_operator _ _ hc, if_neg Bool.false_ne_true]
    exact filterRead_cons (ne_of_isOp hc (by decide)) (ne_of_isOp hc (by decide)) ih

theorem named_of_filterRead {s f : Bytes} (h : FilterRead (nameText s depth before f) f s) :
    Named s depth before f := by
  induction f using alphabet.text_induction generalizing depth before with
  | nil =>
    rw [nameText_nil, filterRead_bracket] at h
    exact .nil (survives_of_readsBack h)
  | lone =>
    obtain ⟨it, hit, -, -, h⟩ := h.cons
    have hlone : nameText s depth before [octet '\\'] =
        octet '\\' :: octet '[' :: valueText depth before s := sanitizeLoop_escaped _ _ _ _
    obtain rfl := (List.cons.inj (hlone.symm.trans hit)).2
    rw [filterRead_bracket] at h
    exact .escape (survives_of_readsBack h)
  | escaped e f ih =>
    obtain ⟨it, hit, -, -, h⟩ := h.cons
    have hescaped : nameText s depth before (octet '\\' :: e :: f) =
        octet '\\' :: e :: nameText s depth before f := sanitizeLoop_escaped _ _ _ _
    obtain rfl := (List.cons.inj (hescaped.symm.trans hit)).2
    obtain ⟨it, hit, hbracket, hspace, h⟩ := h.cons
    obtain rfl := (List.cons.inj hit).2
    exact .escaped hbracket hspace (ih h)
  | char c f hc ih =>
    obtain ⟨it, hit, hbracket, hspace, h⟩ := h.cons
    have hdropped : ¬ Dropped depth before c := fun hd =>
      head?_sanitizeLoop_ne hd (c :: f ++ octet '[' :: (escapeValue s ++ [octet ']'])) (by
        rw [← nameText, hit]
        rfl)
    rw [nameText, List.cons_append] at hit
    cases charKind c with
    | escape hc' => exact absurd hc' hc
    | opening hc =>
      subst hc
      rw [sanitizeLoop_opening] at hit
      obtain rfl := (List.cons.inj hit).2
      exact .opening (ih h)
    | closing hc =>
      subst hc
      cases depth with
      | zero => exact absurd (.inl ⟨rfl, rfl⟩) hdropped
      | succ depth =>
        rw [sanitizeLoop_closing_succ] at hit
        obtain rfl := (List.cons.inj hit).2
        exact .closing (ih h)
    | operator hc =>
      cases before with
      | true => exact absurd (.inr ⟨hc, rfl⟩) hdropped
      | false =>
        rw [sanitizeLoop_operator depth false hc] at hit
        obtain rfl := (List.cons.inj hit).2
        exact .operator hc (ih h)
    | ordinary hc =>
      rw [sanitizeLoop_ordinary depth before hc] at hit
      obtain rfl := (List.cons.inj hit).2
      exact .ordinary hc hbracket hspace (ih h)

/-! ## The tokens of the query -/

variable {externalFunctoids : List (Bytes × SelectableOpFilter)} {f s : Bytes}

theorem sanitize_filterQuery (f s : Bytes) :
    sanitize (filterQuery f s) = octet '$' :: nameText s 0 false f :=
  sanitizeLoop_ordinary 0 false ⟨by decide, by decide, by decide, by decide⟩ _

theorem next_filterQuery (f s : Bytes) :
    next externalFunctoids (initTokenizer (filterQuery f s)) =
      ((readExternal externalFunctoids (nameText s 0 false f)).1,
        ⟨(readExternal externalFunctoids (nameText s 0 false f)).2, true⟩) := by
  rw [next, initTokenizer, sanitize_filterQuery]
  rfl

theorem readExternal_eq (externalFunctoids : List (Bytes × SelectableOpFilter)) (it : Bytes) :
    readExternal externalFunctoids it =
      if (readName [] it).1 then
        (⟨(readValue [] (readName [] it).2.2).1, .external,
          ((externalFunctoids.findIdx? fun entry => entry.1 = (readName [] it).2.1).map
            .external).getD .none⟩, (readValue [] (readName [] it).2.2).2)
      else (⟨[], .external, .none⟩, (readName [] it).2.2) := by
  rw [readExternal]
  obtain ⟨ok, efName, it'⟩ := readName [] it
  cases ok with
  | false => rfl
  | true =>
    dsimp only
    rw [if_pos rfl]
    cases externalFunctoids.findIdx? fun entry => entry.1 = efName <;> rfl

theorem eq_of_findIdx?_eq {f f' : Bytes} {id : Nat}
    (h : (externalFunctoids.findIdx? fun entry => entry.1 = f) = some id)
    (h' : (externalFunctoids.findIdx? fun entry => entry.1 = f') = some id) : f = f' := by
  obtain ⟨_, hf, _⟩ := List.findIdx?_eq_some_iff_getElem.mp h
  obtain ⟨_, hf', _⟩ := List.findIdx?_eq_some_iff_getElem.mp h'
  exact (of_decide_eq_true hf).symm.trans (of_decide_eq_true hf')

theorem filterRead_iff {id : Nat}
    (hid : (externalFunctoids.findIdx? fun entry => entry.1 = f) = some id) :
    FilterRead it f s ↔ (readExternal externalFunctoids it).1 = ⟨s, .external, .external id⟩ ∧
      ∀ x ∈ (readExternal externalFunctoids it).2, x = octet ' ' := by
  rw [FilterRead, ReadsBack, readExternal_eq]
  cases hread : (readName [] it).1 with
  | false =>
    rw [if_neg Bool.false_ne_true]
    exact iff_of_false (fun h => Bool.false_ne_true h.1) (fun h => nomatch h.1)
  | true =>
    rw [if_pos rfl]
    constructor
    · rintro ⟨-, rfl, rfl, hspaces⟩
      rw [hid]
      exact ⟨rfl, hspaces⟩
    · rintro ⟨htoken, hspaces⟩
      obtain ⟨hvalue, -, hop⟩ := Token.mk.inj htoken
      refine ⟨rfl, ?_, hvalue, hspaces⟩
      cases hid' : externalFunctoids.findIdx? fun entry => entry.1 = (readName [] it).2.1 with
      | none =>
        rw [hid'] at hop
        cases hop
      | some id' =>
        rw [hid'] at hop
        cases hop
        exact eq_of_findIdx?_eq hid' hid

theorem type_next_eq_endOfInput_iff (t : Tokenizer) :
    (next externalFunctoids t).1.type = .endOfInput ↔ ∀ x ∈ t.strIt, x = octet ' ' := by
  have hspaces : t.strIt.dropWhile (· = octet ' ') = [] ↔ ∀ x ∈ t.strIt, x = octet ' ' := by
    rw [List.dropWhile_eq_nil_iff]
    simp only [decide_eq_true_eq]
  rw [← hspaces]
  constructor
  · intro hend
    cases advances externalFunctoids t with
    | atEnd spaces token => exact spaces
    | consumes reads => exact absurd hend reads.1
    | inserted token strIt reads =>
      rw [token] at hend
      cases hend
  · intro hspaces
    rw [next, nextLoop_dropWhile, hspaces]
    rfl

theorem tokens_eq_nil {fuel : Nat} {t : Tokenizer} (h : tokens externalFunctoids fuel t = some []) :
    (next externalFunctoids t).1.type = .endOfInput := by
  cases fuel with
  | zero => cases h
  | succ fuel =>
    rw [tokens_succ] at h
    by_contra hend
    rw [if_neg hend] at h
    obtain ⟨ts, -, hts⟩ := Option.map_eq_some_iff.mp h
    exact List.cons_ne_nil _ _ hts

theorem yieldsExternal_iff_named (hf : f ∈ externalFunctoids.map Prod.fst) :
    YieldsExternal externalFunctoids f s ↔ Named s 0 false f := by
  have hnamed : FilterRead (nameText s 0 false f) f s ↔ Named s 0 false f :=
    ⟨named_of_filterRead, Named.filterRead⟩
  obtain ⟨hexternal, -⟩ := readExternal_spec externalFunctoids (nameText s 0 false f)
  have hfirst : (next externalFunctoids (initTokenizer (filterQuery f s))).1.type ≠ .endOfInput := by
    rw [next_filterQuery, hexternal]
    exact nofun
  rw [← hnamed]
  constructor
  · rintro ⟨id, fuel, hid, htokens⟩
    rw [filterRead_iff _ hid]
    cases fuel with
    | zero => cases htokens
    | succ fuel =>
      rw [tokens_succ, if_neg hfirst, next_filterQuery] at htokens
      obtain ⟨ts, hts, hcons⟩ := Option.map_eq_some_iff.mp htokens
      obtain ⟨htoken, rfl⟩ := List.cons.inj hcons
      exact ⟨htoken, (type_next_eq_endOfInput_iff _).mp (tokens_eq_nil hts)⟩
  · intro hread
    obtain ⟨id, hid⟩ : ∃ id, (externalFunctoids.findIdx? fun entry => entry.1 = f) = some id := by
      obtain ⟨entry, hentry, rfl⟩ := List.mem_map.mp hf
      rw [← Option.isSome_iff_exists, List.findIdx?_isSome, List.any_eq_true]
      exact ⟨entry, hentry, decide_eq_true rfl⟩
    obtain ⟨htoken, hspaces⟩ := (filterRead_iff _ hid).mp hread
    refine ⟨id, 2, hid, ?_⟩
    rw [tokens_succ, if_neg hfirst, next_filterQuery, tokens_succ,
      if_pos ((type_next_eq_endOfInput_iff _).mpr hspaces), htoken]
    rfl

/-- The value of a registered filter and the tokens of any query. -/
theorem tokenizer_iff (externalFunctoids : List (Bytes × SelectableOpFilter)) (f s query : Bytes)
    (hf : f ∈ externalFunctoids.map Prod.fst) :
    (YieldsExternal externalFunctoids f s ∧ Tokenizes externalFunctoids query) ↔
      Named s 0 false f := by
  rw [yieldsExternal_iff_named hf]
  exact and_iff_left (tokenizes externalFunctoids query)

def oneFilter : List (Bytes × SelectableOpFilter) :=
  [([octet 'f'], externalFunctoid fun _ => ItemIndex.empty)]

theorem tokenizer_one :
    [octet 'f'] ∈ oneFilter.map Prod.fst ∧
      ((YieldsExternal oneFilter [octet 'f'] [octet 'a'] ∧ Tokenizes oneFilter [octet 'a']) ↔
        Named [octet 'a'] 0 false [octet 'f']) :=
  ⟨List.mem_cons_self, tokenizer_iff oneFilter _ _ _ List.mem_cons_self⟩

theorem not_survives_escape (depth : Nat) (before : Bool) :
    ¬ Survives depth before [octet '\\'] := by
  intro h
  have hback := h.readsBack
  rw [value_escape (valueText_nil depth before)] at hback
  exact List.cons_ne_nil _ _ (List.cons.inj hback.1).2

theorem named_ordinary_cons (hc : Ordinary c) (h : Named s depth before (c :: f)) :
    Named s depth false f := by
  have hread := h.filterRead
  rw [nameText, List.cons_append, sanitizeLoop_ordinary depth before hc] at hread
  obtain ⟨it, hit, -, -, hread⟩ := hread.cons
  obtain rfl := (List.cons.inj hit).2
  exact named_of_filterRead hread

/-- The value is a backslash. -/
theorem not_yieldsExternal : ¬ ∀ (externalFunctoids : List (Bytes × SelectableOpFilter))
    (f s query : Bytes), f ∈ externalFunctoids.map Prod.fst →
      YieldsExternal externalFunctoids f s ∧ Tokenizes externalFunctoids query := by
  intro h
  have hyields := (h oneFilter [octet 'f'] [octet '\\'] [] List.mem_cons_self).1
  rw [yieldsExternal_iff_named List.mem_cons_self] at hyields
  have hname := named_ordinary_cons ⟨by decide, by decide, by decide, by decide⟩ hyields
  cases hname with
  | nil hsurvives => exact not_survives_escape _ _ hsurvives

end Sserialize.SetOpTreePrivateComplex
