import Mathlib.Data.List.Basic

/-!
# Text with escapes, parentheses and operators

A text is read as a list of items, of which one is an escaped character with its escape. Cleaning
the items drops closing parentheses without an opening one and operators that follow an operator,
and appends what is missing at the end. The open parentheses are counted up to a limit.
-/

namespace EscapedText

structure Alphabet (α : Type) where
  escape : α
  opening : α
  closing : α
  isOp : α → Bool
  opening_ne : opening ≠ escape
  closing_ne : closing ≠ escape
  opening_ne_closing : opening ≠ closing
  isOp_escape : isOp escape = false
  isOp_opening : isOp opening = false
  isOp_closing : isOp closing = false

inductive Item (α : Type) where
  | escaped (c : α)
  | opening
  | closing
  | op (c : α)
  | plain (c : α)
  deriving DecidableEq

variable {α : Type}

namespace Alphabet

variable [DecidableEq α] (A : Alphabet α)

def classify (c : α) : Item α :=
  if c = A.closing then .closing
  else if A.isOp c then .op c
  else if c = A.opening then .opening
  else .plain c

def items : List α → List (Item α)
  | [] => []
  | [c] => if c = A.escape then [] else [A.classify c]
  | c :: e :: text =>
    if c = A.escape then .escaped e :: items text else A.classify c :: items (e :: text)

def EndsInEscape : List α → Prop
  | [] => False
  | [c] => c = A.escape
  | c :: e :: text => if c = A.escape then EndsInEscape text else EndsInEscape (e :: text)

omit [DecidableEq α] in
def charsOf : Item α → List α
  | .escaped c => [A.escape, c]
  | .opening => [A.opening]
  | .closing => [A.closing]
  | .op c => [c]
  | .plain c => [c]

def render (is : List (Item α)) : List α := is.flatMap A.charsOf

def Proper : Item α → Prop
  | .op c => A.isOp c = true
  | .plain c => c ≠ A.escape ∧ A.classify c = .plain c
  | _ => True

end Alphabet

/-! ## Parentheses and operators -/

def depthAfter : Nat → List (Item α) → Option Nat
  | depth, [] => some depth
  | depth, .opening :: is => depthAfter (depth + 1) is
  | depth, .closing :: is => if depth = 0 then none else depthAfter (depth - 1) is
  | depth, .escaped _ :: is => depthAfter depth is
  | depth, .op _ :: is => depthAfter depth is
  | depth, .plain _ :: is => depthAfter depth is

def Balanced (is : List (Item α)) : Prop := depthAfter 0 is = some 0

/-- Never are `limit` parentheses open, where one that closes too many is ignored. -/
def DepthBelow (limit : Nat) : Nat → List (Item α) → Prop
  | depth, [] => depth < limit
  | depth, .opening :: is => depth + 1 < limit ∧ DepthBelow limit (depth + 1) is
  | depth, .closing :: is => DepthBelow limit (depth - 1) is
  | depth, .escaped _ :: is => DepthBelow limit depth is
  | depth, .op _ :: is => DepthBelow limit depth is
  | depth, .plain _ :: is => DepthBelow limit depth is

def Apart (separates : Item α → Prop) (is : List (Item α)) : Prop :=
  ∀ front c middle d back, is = front ++ .op c :: (middle ++ .op d :: back) →
    ∃ i ∈ middle, separates i

def IsPlain : Item α → Prop
  | .plain _ => True
  | _ => False

def IsOperand : Item α → Prop
  | .plain _ => True
  | .escaped _ => True
  | _ => False

/-! ## Cleaning -/

def clean (limit : Nat) : Nat → Bool → List (Item α) → List (Item α)
  | depth, _, [] => List.replicate depth .closing
  | depth, before, .escaped c :: is => .escaped c :: clean limit depth before is
  | depth, before, .closing :: is =>
    if depth = 0 then clean limit depth before is
    else .closing :: clean limit (depth - 1) before is
  | depth, before, .op c :: is =>
    if before then clean limit depth before is else .op c :: clean limit depth true is
  | depth, before, .opening :: is => .opening :: clean limit ((depth + 1) % limit) before is
  | depth, _, .plain c :: is => .plain c :: clean limit depth false is

/-- No operator without a plain character since the last one, of which `before` tells. -/
def Spaced : Bool → List (Item α) → Prop
  | _, [] => True
  | before, .op _ :: is => before = false ∧ Spaced true is
  | _, .plain _ :: is => Spaced false is
  | before, .escaped _ :: is => Spaced before is
  | before, .opening :: is => Spaced before is
  | before, .closing :: is => Spaced before is

/-! ## What a text asks for -/

namespace Alphabet

variable [DecidableEq α] (A : Alphabet α)

def Nice (text : List α) : Prop :=
  Balanced (A.items text) ∧ ¬ A.EndsInEscape text ∧ Apart IsOperand (A.items text)

structure Sanitizes (f : List α → List α) (text : List α) : Prop where
  balanced : Balanced (A.items (f text))
  idempotent : f (f text) = f text
  unchanged : A.Nice text → f text = text

/-- The count of the open parentheses does not reach the limit, and of a text that needs no cleaning
the operators are separated by plain characters. -/
def SanitizesWhen (limit : Nat) (text : List α) : Prop :=
  DepthBelow limit 0 (A.items text) ∧ (A.Nice text → Apart IsPlain (A.items text))

end Alphabet

/-! ## Items -/

variable {is : List (Item α)} {limit depth : Nat} {before : Bool}

namespace Alphabet

variable [DecidableEq α] {A : Alphabet α}

theorem items_escape (e : α) (text : List α) :
    A.items (A.escape :: e :: text) = .escaped e :: A.items text := if_pos rfl

theorem items_single_escape : A.items [A.escape] = [] := if_pos rfl

theorem items_cons {c : α} (hc : c ≠ A.escape) (text : List α) :
    A.items (c :: text) = A.classify c :: A.items text := by
  cases text with
  | nil => exact if_neg hc
  | cons e text => exact if_neg hc

theorem endsInEscape_escape (e : α) (text : List α) :
    A.EndsInEscape (A.escape :: e :: text) ↔ A.EndsInEscape text := by
  rw [EndsInEscape, if_pos rfl]

theorem endsInEscape_cons {c : α} (hc : c ≠ A.escape) (text : List α) :
    A.EndsInEscape (c :: text) ↔ A.EndsInEscape text := by
  cases text with
  | nil => exact iff_of_false hc id
  | cons e text => rw [EndsInEscape, if_neg hc]

omit [DecidableEq α] in
theorem render_cons (i : Item α) (is : List (Item α)) :
    A.render (i :: is) = A.charsOf i ++ A.render is := List.flatMap_cons

theorem text_induction {motive : List α → Prop} (nil : motive []) (lone : motive [A.escape])
    (escaped : ∀ e text, motive text → motive (A.escape :: e :: text))
    (char : ∀ c text, c ≠ A.escape → motive text → motive (c :: text)) (text : List α) :
    motive text := by
  induction hlength : text.length using Nat.strongRecOn generalizing text with
  | _ n ih =>
    match text with
    | [] => exact nil
    | c :: text =>
      rw [List.length_cons] at hlength
      by_cases hc : c = A.escape
      · subst hc
        match text with
        | [] => exact lone
        | e :: text =>
          rw [List.length_cons] at hlength
          exact escaped e text (ih _ (by omega) text rfl)
      · exact char c text hc (ih _ (by omega) text rfl)

theorem classify_closing : A.classify A.closing = .closing := if_pos rfl

theorem classify_op {c : α} (hc : A.isOp c = true) : A.classify c = .op c := by
  have hclosing : c ≠ A.closing := by
    rintro rfl
    rw [A.isOp_closing] at hc
    cases hc
  rw [classify, if_neg hclosing, if_pos hc]

theorem classify_opening : A.classify A.opening = .opening := by
  rw [classify, if_neg A.opening_ne_closing, A.isOp_opening, if_neg Bool.false_ne_true, if_pos rfl]

theorem charsOf_classify (c : α) : A.charsOf (A.classify c) = [c] := by
  rw [classify]
  split
  next h => rw [h, charsOf]
  next =>
    split
    next => rfl
    next =>
      split
      next h => rw [h, charsOf]
      next => rfl

theorem proper_classify {c : α} (hc : c ≠ A.escape) : A.Proper (A.classify c) := by
  rw [classify]
  split
  next => trivial
  next hclosing =>
    split
    next hop => exact hop
    next hop =>
      split
      next => trivial
      next hopening =>
        refine ⟨hc, ?_⟩
        rw [classify, if_neg hclosing, if_neg hop, if_neg hopening]

theorem proper_items (text : List α) : ∀ i ∈ A.items text, A.Proper i := by
  induction text using A.text_induction with
  | nil => exact fun i hi => absurd hi List.not_mem_nil
  | lone =>
    rw [items_single_escape]
    exact fun i hi => absurd hi List.not_mem_nil
  | escaped e text ih =>
    rw [items_escape]
    exact List.forall_mem_cons.mpr ⟨trivial, ih⟩
  | char c text hc ih =>
    rw [items_cons hc]
    exact List.forall_mem_cons.mpr ⟨proper_classify hc, ih⟩

theorem render_items {text : List α} (h : ¬ A.EndsInEscape text) : A.render (A.items text) = text := by
  induction text using A.text_induction with
  | nil => rfl
  | lone => exact absurd rfl h
  | escaped e text ih =>
    rw [endsInEscape_escape] at h
    rw [items_escape, render_cons, ih h]
    rfl
  | char c text hc ih =>
    rw [endsInEscape_cons hc] at h
    rw [items_cons hc, render_cons, ih h, charsOf_classify]
    rfl

theorem items_charsOf {i : Item α} (hi : A.Proper i) (text : List α) :
    A.items (A.charsOf i ++ text) = i :: A.items text := by
  cases i with
  | escaped c => exact items_escape c text
  | opening => exact (items_cons A.opening_ne text).trans (congrArg (· :: _) classify_opening)
  | closing => exact (items_cons A.closing_ne text).trans (congrArg (· :: _) classify_closing)
  | op c =>
    have hc : c ≠ A.escape := by
      rintro rfl
      rw [Proper, A.isOp_escape] at hi
      cases hi
    exact (items_cons hc text).trans (congrArg (· :: _) (classify_op hi))
  | plain c => exact (items_cons hi.1 text).trans (congrArg (· :: _) hi.2)

theorem items_render (his : ∀ i ∈ is, A.Proper i) : A.items (A.render is) = is := by
  induction is with
  | nil => rfl
  | cons i is ih =>
    obtain ⟨hi, his⟩ := List.forall_mem_cons.mp his
    rw [render_cons, items_charsOf hi, ih his]

end Alphabet

/-! ## Separated operators -/

def Guarded (is : List (Item α)) : Prop :=
  ∀ middle d back, is = middle ++ .op d :: back → ∃ i ∈ middle, IsPlain i

theorem guarded_cons_op (c : α) : ¬ Guarded (.op c :: is) := by
  intro h
  obtain ⟨i, hi, -⟩ := h [] c is rfl
  cases hi

theorem guarded_cons_plain (c : α) : Guarded (.plain c :: is) := by
  intro middle d back h
  cases middle with
  | nil => cases h
  | cons j middle =>
    cases h
    exact ⟨_, List.mem_cons_self, trivial⟩

theorem guarded_cons {i : Item α} (hop : ∀ c, i ≠ .op c) (hplain : ¬ IsPlain i) :
    Guarded (i :: is) ↔ Guarded is := by
  constructor
  · intro h middle d back his
    obtain ⟨j, hj, hjplain⟩ := h (i :: middle) d back (congrArg (i :: ·) his)
    rcases List.mem_cons.mp hj with rfl | hj
    · exact absurd hjplain hplain
    · exact ⟨j, hj, hjplain⟩
  · intro h middle d back his
    cases middle with
    | nil => exact absurd (List.cons.inj his).1 (hop d)
    | cons j middle =>
      obtain ⟨k, hk, hkplain⟩ := h middle d back (List.cons.inj his).2
      exact ⟨k, List.mem_cons_of_mem _ hk, hkplain⟩

theorem apart_nil : Apart IsPlain ([] : List (Item α)) := by
  intro front c middle d back h
  exact absurd h.symm (List.append_ne_nil_of_right_ne_nil _ (List.cons_ne_nil _ _))

theorem apart_cons_op (c : α) : Apart IsPlain (.op c :: is) ↔ Guarded is ∧ Apart IsPlain is := by
  constructor
  · intro h
    refine ⟨fun middle d back his => h [] c middle d back (congrArg (_ :: ·) his), ?_⟩
    intro front e middle d back his
    exact h (.op c :: front) e middle d back (congrArg (_ :: ·) his)
  · rintro ⟨hguarded, hapart⟩ front e middle d back his
    cases front with
    | nil =>
      cases his
      exact hguarded middle d back rfl
    | cons j front => exact hapart front e middle d back (List.cons.inj his).2

theorem apart_cons {i : Item α} (hop : ∀ c, i ≠ .op c) :
    Apart IsPlain (i :: is) ↔ Apart IsPlain is := by
  constructor
  · intro h front e middle d back his
    exact h (i :: front) e middle d back (congrArg (_ :: ·) his)
  · intro h front e middle d back his
    cases front with
    | nil => exact absurd (List.cons.inj his).1 (hop e)
    | cons j front => exact h front e middle d back (List.cons.inj his).2

theorem spaced_iff (before : Bool) (is : List (Item α)) :
    Spaced before is ↔ (before = true → Guarded is) ∧ Apart IsPlain is := by
  induction is generalizing before with
  | nil =>
    refine iff_of_true trivial ⟨fun _ middle d back h => ?_, apart_nil⟩
    exact absurd h.symm (List.append_ne_nil_of_right_ne_nil _ (List.cons_ne_nil _ _))
  | cons i is ih =>
    cases i with
    | op c =>
      rw [Spaced, ih, apart_cons_op]
      cases before with
      | false => exact ⟨fun h => ⟨nofun, h.2.1 rfl, h.2.2⟩, fun h => ⟨rfl, fun _ => h.2.1, h.2.2⟩⟩
      | true => exact iff_of_false (fun h => nomatch h.1) (fun h => guarded_cons_op c (h.1 rfl))
    | plain c =>
      rw [Spaced, ih, apart_cons (i := .plain c) (fun _ h => nomatch h)]
      exact ⟨fun h => ⟨fun _ => guarded_cons_plain c, h.2⟩, fun h => ⟨nofun, h.2⟩⟩
    | escaped c =>
      rw [Spaced, ih, apart_cons (i := .escaped c) (fun _ h => nomatch h),
        guarded_cons (i := .escaped c) (fun _ h => nomatch h) id]
    | opening =>
      rw [Spaced, ih, apart_cons (i := .opening) (fun _ h => nomatch h),
        guarded_cons (i := .opening) (fun _ h => nomatch h) id]
    | closing =>
      rw [Spaced, ih, apart_cons (i := .closing) (fun _ h => nomatch h),
        guarded_cons (i := .closing) (fun _ h => nomatch h) id]

theorem spaced_false_iff : Spaced false is ↔ Apart IsPlain is := by
  rw [spaced_iff]
  exact and_iff_right nofun

/-! ## What cleaning gives -/

theorem clean_closing (is : List (Item α)) :
    clean limit depth before (.closing :: is) =
      if depth = 0 then clean limit depth before is
      else .closing :: clean limit (depth - 1) before is := rfl

theorem clean_op (c : α) (is : List (Item α)) :
    clean limit depth before (.op c :: is) =
      if before then clean limit depth before is else .op c :: clean limit depth true is := rfl

theorem spaced_replicate_closing (n : Nat) :
    Spaced before (List.replicate n (.closing : Item α)) := by
  induction n with
  | zero => trivial
  | succ _ ih => exact ih

theorem spaced_clean (limit depth : Nat) (before : Bool) (is : List (Item α)) :
    Spaced before (clean limit depth before is) := by
  induction is generalizing depth before with
  | nil => exact spaced_replicate_closing depth
  | cons i is ih =>
    cases i with
    | escaped c => exact ih depth before
    | opening => exact ih _ before
    | plain c => exact ih depth false
    | closing =>
      rw [clean_closing]
      split
      next => exact ih depth before
      next => exact ih (depth - 1) before
    | op c =>
      rw [clean_op]
      cases before with
      | false => exact ⟨rfl, ih depth true⟩
      | true => exact ih depth true

theorem depthAfter_closing (is : List (Item α)) :
    depthAfter (depth + 1) (.closing :: is) = depthAfter depth is := rfl

theorem depthAfter_replicate_closing (n m : Nat) :
    depthAfter (n + m) (List.replicate n (.closing : Item α)) = some m := by
  induction n with
  | zero =>
    rw [Nat.zero_add]
    rfl
  | succ n ih =>
    rw [List.replicate_succ, Nat.add_right_comm, depthAfter_closing]
    exact ih

/-- Behind the cleaned items as many parentheses are open as were lost when the count reached the
limit: `k` times the limit in front of the items, and more behind them if it was reached there. -/
theorem depthAfter_clean (hdepth : depth < limit) (k : Nat) (before : Bool) (is : List (Item α)) :
    ∃ k', depthAfter (depth + limit * k) (clean limit depth before is) = some (limit * k') ∧
      k ≤ k' ∧ (k' = k ↔ DepthBelow limit depth is) := by
  induction is generalizing depth before k with
  | nil =>
    refine ⟨k, depthAfter_replicate_closing depth _, Nat.le_refl k, iff_of_true rfl hdepth⟩
  | cons i is ih =>
    cases i with
    | escaped c => exact ih hdepth k before
    | plain c => exact ih hdepth k false
    | op c =>
      rw [clean_op]
      cases before with
      | false | true => exact ih hdepth k true
    | closing =>
      rw [clean_closing]
      split
      next hzero =>
        subst hzero
        exact ih hdepth k before
      next hpos =>
        obtain ⟨depth, rfl⟩ : ∃ d, depth = d + 1 := ⟨depth - 1, by omega⟩
        rw [Nat.add_right_comm, depthAfter_closing]
        exact ih (Nat.lt_of_succ_lt hdepth) k before
    | opening =>
      change ∃ k', depthAfter (depth + limit * k + 1) (clean limit ((depth + 1) % limit) before is) =
        _ ∧ _ ∧ (_ ↔ depth + 1 < limit ∧ DepthBelow limit (depth + 1) is)
      rcases Nat.lt_or_ge (depth + 1) limit with hlt | hge
      · rw [Nat.mod_eq_of_lt hlt, Nat.add_right_comm, and_iff_right hlt]
        exact ih hlt k before
      · -- the count starts again
        have hlimit : depth + 1 = limit := by omega
        obtain ⟨k', hk', hle, -⟩ := ih (Nat.lt_of_le_of_lt (Nat.zero_le _) hdepth) (k + 1) before
        have hopen : depth + limit * k + 1 = 0 + limit * (k + 1) := by
          rw [Nat.mul_succ]
          omega
        refine ⟨k', ?_, by omega, iff_of_false (by omega) (by omega)⟩
        rw [hlimit, Nat.mod_self, hopen]
        exact hk'

theorem balanced_clean_iff (hlimit : 0 < limit) (is : List (Item α)) :
    Balanced (clean limit 0 false is) ↔ DepthBelow limit 0 is := by
  obtain ⟨k, hk, -, hiff⟩ := depthAfter_clean hlimit 0 false is
  rw [Nat.mul_zero] at hk
  rw [Balanced, hk, ← hiff, Option.some_inj, Nat.mul_eq_zero, or_iff_right (Nat.ne_of_gt hlimit)]

theorem clean_eq_append {open' : Nat} (hdepth : depthAfter depth is = some open')
    (hbelow : DepthBelow limit depth is) (hspaced : Spaced before is) :
    clean limit depth before is = is ++ List.replicate open' .closing := by
  induction is generalizing depth before with
  | nil =>
    cases hdepth
    rfl
  | cons i is ih =>
    cases i with
    | escaped c | plain c => exact congrArg (_ :: ·) (ih hdepth hbelow hspaced)
    | op c =>
      obtain ⟨rfl, hspaced⟩ := hspaced
      exact congrArg (_ :: ·) (ih hdepth hbelow hspaced)
    | closing =>
      cases depth with
      | zero => cases hdepth
      | succ depth => exact congrArg (_ :: ·) (ih hdepth hbelow hspaced)
    | opening =>
      change Item.opening :: clean limit ((depth + 1) % limit) before is = _
      rw [Nat.mod_eq_of_lt hbelow.1]
      exact congrArg (_ :: ·) (ih hdepth hbelow.2 hspaced)

theorem depthBelow_replicate_closing (hdepth : depth < limit) (n : Nat) :
    DepthBelow limit depth (List.replicate n (.closing : Item α)) := by
  induction n generalizing depth with
  | zero => exact hdepth
  | succ _ ih => exact ih (by omega)

theorem depthBelow_clean (hdepth : depth < limit) (hbelow : DepthBelow limit depth is)
    (before : Bool) : DepthBelow limit depth (clean limit depth before is) := by
  induction is generalizing depth before with
  | nil => exact depthBelow_replicate_closing hdepth depth
  | cons i is ih =>
    cases i with
    | escaped c => exact ih hdepth hbelow before
    | plain c => exact ih hdepth hbelow false
    | op c =>
      rw [clean_op]
      cases before with
      | false | true => exact ih hdepth hbelow true
    | closing =>
      rw [clean_closing]
      split
      next hzero =>
        subst hzero
        exact ih hdepth hbelow before
      next => exact ih (by omega) hbelow before
    | opening =>
      refine ⟨hbelow.1, ?_⟩
      rw [Nat.mod_eq_of_lt hbelow.1]
      exact ih hbelow.1 hbelow.2 before

theorem clean_clean (hlimit : 0 < limit) (hbelow : DepthBelow limit 0 is) :
    clean limit 0 false (clean limit 0 false is) = clean limit 0 false is := by
  rw [clean_eq_append ((balanced_clean_iff hlimit is).mpr hbelow)
    (depthBelow_clean hlimit hbelow false) (spaced_clean limit 0 false is)]
  exact List.append_nil _

namespace Alphabet

variable [DecidableEq α] {A : Alphabet α}

theorem proper_clean (his : ∀ i ∈ is, A.Proper i) (limit depth : Nat) (before : Bool) :
    ∀ i ∈ clean limit depth before is, A.Proper i := by
  induction is generalizing depth before with
  | nil =>
    intro i hi
    rw [List.eq_of_mem_replicate hi]
    trivial
  | cons i is ih =>
    obtain ⟨hi, hrest⟩ := List.forall_mem_cons.mp his
    cases i with
    | escaped c => exact List.forall_mem_cons.mpr ⟨hi, ih hrest depth before⟩
    | opening => exact List.forall_mem_cons.mpr ⟨hi, ih hrest _ before⟩
    | plain c => exact List.forall_mem_cons.mpr ⟨hi, ih hrest depth false⟩
    | closing =>
      rw [clean_closing]
      split
      next => exact ih hrest depth before
      next => exact List.forall_mem_cons.mpr ⟨hi, ih hrest _ before⟩
    | op c =>
      rw [clean_op]
      cases before with
      | false => exact List.forall_mem_cons.mpr ⟨hi, ih hrest depth true⟩
      | true => exact ih hrest depth true

/-- A loop over the characters that counts open parentheses and remembers a pending operator. -/
structure CleaningLoop (A : Alphabet α) (limit : Nat) (loop : Nat → Bool → List α → List α) :
    Prop where
  nil : ∀ depth before, loop depth before [] = List.replicate depth A.closing
  lone : ∀ depth before, loop depth before [A.escape] = List.replicate depth A.closing
  escaped : ∀ depth before c text,
    loop depth before (A.escape :: c :: text) = A.escape :: c :: loop depth before text
  char : ∀ depth before c text, c ≠ A.escape → loop depth before (c :: text) =
    if c = A.closing then
      if depth = 0 then loop depth before text else c :: loop (depth - 1) before text
    else if A.isOp c then
      if before then loop depth before text else c :: loop depth true text
    else if c = A.opening then c :: loop ((depth + 1) % limit) before text
    else c :: loop depth false text

omit [DecidableEq α] in
theorem render_replicate_closing (n : Nat) :
    A.render (List.replicate n .closing) = List.replicate n A.closing := by
  induction n with
  | zero => rfl
  | succ n ih =>
    rw [List.replicate_succ, render_cons, ih]
    rfl

theorem CleaningLoop.eq_render {loop : Nat → Bool → List α → List α}
    (h : CleaningLoop A limit loop) (depth : Nat) (before : Bool) (text : List α) :
    loop depth before text = A.render (clean limit depth before (A.items text)) := by
  induction text using A.text_induction generalizing depth before with
  | nil => rw [h.nil, items, clean, render_replicate_closing]
  | lone => rw [h.lone, items_single_escape, clean, render_replicate_closing]
  | escaped e text ih =>
    rw [h.escaped, ih, items_escape]
    rfl
  | char c text hc ih =>
    rw [h.char depth before c text hc, items_cons hc, classify]
    split
    next hclosing =>
      rw [clean_closing]
      split
      next => exact ih depth before
      next =>
        rw [ih, render_cons, hclosing]
        rfl
    next =>
      split
      next =>
        rw [clean_op]
        cases before with
        | true => exact ih depth true
        | false => exact congrArg (c :: ·) (ih depth true)
      next =>
        split
        next hopening =>
          rw [ih, hopening]
          rfl
        next => exact congrArg (c :: ·) (ih depth false)

theorem sanitizes_iff_sanitizesWhen (hlimit : 0 < limit) {f : List α → List α}
    (hf : ∀ text, f text = A.render (clean limit 0 false (A.items text))) (text : List α) :
    A.Sanitizes f text ↔ A.SanitizesWhen limit text := by
  have hitems : ∀ text, A.items (f text) = clean limit 0 false (A.items text) := by
    intro text
    rw [hf, items_render (proper_clean (proper_items text) limit 0 false)]
  constructor
  · intro h
    have hbalanced := h.balanced
    rw [hitems, balanced_clean_iff hlimit] at hbalanced
    refine ⟨hbalanced, ?_⟩
    intro hnice
    have hspaced := spaced_clean limit 0 false (A.items text)
    rw [← hitems, h.unchanged hnice] at hspaced
    exact spaced_false_iff.mp hspaced
  · rintro ⟨hbelow, hapart⟩
    refine ⟨?_, ?_, ?_⟩
    · rw [hitems, balanced_clean_iff hlimit]
      exact hbelow
    · rw [hf (f text), hitems, clean_clean hlimit hbelow, ← hf]
    · intro hnice
      rw [hf, clean_eq_append hnice.1 hbelow (spaced_false_iff.mpr (hapart hnice))]
      rw [List.replicate_zero, List.append_nil, render_items hnice.2.1]

end Alphabet

end EscapedText
