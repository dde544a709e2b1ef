import Mathlib.Data.List.Basic

/-!
# Left associative infix expressions

The grammar `E -> T | E op T`, `T -> operand | ( E )` over any tokens, with the value that is built
along a derivation.
-/

namespace InfixGrammar

inductive Kind where
  | operand
  | operator
  | braceOpen
  | braceClose
  | other
  deriving Repr, DecidableEq

inductive Level where
  | expression
  | term
  deriving Repr, DecidableEq

/-- The kinds of the tokens, and what is built for an operand and for an operator. -/
structure Semantics (τ ν : Type*) where
  kind : τ → Kind
  leaf : τ → ν
  node : τ → ν → ν → ν

variable {τ ν : Type*}

inductive Derives (sem : Semantics τ ν) : Level → List τ → ν → Prop
  | single {ts : List τ} {v : ν} (h : Derives sem .term ts v) : Derives sem .expression ts v
  | operator {ts us : List τ} {o : τ} {l r : ν} (hl : Derives sem .expression ts l)
      (ho : sem.kind o = .operator) (hr : Derives sem .term us r) :
      Derives sem .expression (ts ++ o :: us) (sem.node o l r)
  | operand {t : τ} (h : sem.kind t = .operand) : Derives sem .term [t] (sem.leaf t)
  | group {ts : List τ} {o c : τ} {v : ν} (ho : sem.kind o = .braceOpen)
      (h : Derives sem .expression ts v) (hc : sem.kind c = .braceClose) :
      Derives sem .term (o :: (ts ++ [c])) v

theorem Derives.leaves_eq {sem : Semantics τ ν} {level : Level} {ts : List τ} {v : ν}
    (h : Derives sem level ts v) {α : Type*} (leaves : ν → List α) (content : τ → α)
    (hleaf : ∀ t, sem.kind t = .operand → leaves (sem.leaf t) = [content t])
    (hnode : ∀ o l r, leaves (sem.node o l r) = leaves l ++ leaves r) :
    leaves v = (ts.filter fun t => sem.kind t = .operand).map content := by
  induction h with
  | single _ ih => exact ih
  | operator _ ho _ ihl ihr => simp [hnode, ihl, ihr, ho]
  | operand ht => simp [hleaf _ ht, ht]
  | group ho _ hc ih => simp [ih, ho, hc]

theorem Derives.ne_nil {sem : Semantics τ ν} {level : Level} {ts : List τ} {v : ν}
    (h : Derives sem level ts v) : ts ≠ [] := by
  induction h with
  | single _ ih => exact ih
  | operator => simp
  | operand => simp
  | group => simp

end InfixGrammar
