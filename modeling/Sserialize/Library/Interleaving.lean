import Mathlib.Data.DFinsupp.WellFounded

/-!
# Interleaved programs

Programs that share a state and whose actions are atomic run in any order. A program is safe when it
keeps its promise although the others change the state in between, as long as they leave alone what
the program relies on. The ghost state says who relies on what; it is no part of the programs.
-/

namespace Interleaving

/-- What is left to do: an action, and a program for each of its results. -/
inductive Prog (α ρ : Type*) where
  | done
  | act (a : α) (next : ρ → Prog α ρ)

variable {α ρ σ γ ι : Type*}

namespace Prog

end Prog

/-- The shared state and what is left to do for each of the programs. -/
structure Pool (α ρ σ ι : Type*) where
  state : σ
  programs : ι → Prog α ρ

variable (exec : α → σ → Option (ρ × σ)) (Fine : σ → α → Prop)

/-- An action of one of the programs. -/
inductive Step [DecidableEq ι] : Pool α ρ σ ι → Pool α ρ σ ι → Prop
  | mk {s s' : σ} {programs : ι → Prog α ρ} (i : ι) {a : α} {next : ρ → Prog α ρ} {r : ρ}
      (hact : programs i = .act a next) (hfine : Fine s a) (hexec : exec a s = some (r, s')) :
      Step ⟨s, programs⟩ ⟨s', Function.update programs i (next r)⟩

variable (R : ι → σ × γ → σ × γ → Prop) (Post : ι → σ × γ → Prop)

/-- The program `i` succeeds with all of its actions, leaves alone what the others rely on, and
reaches its promise, whatever happens to the state that it does not rely on. -/
def Safe (i : ι) : Prog α ρ → σ × γ → Prop
  | .done, t => ∀ t', R i t t' → Post i t'
  | .act a next, t => ∀ s g, R i t (s, g) → Fine s a →
      ∃ r s' g', exec a s = some (r, s') ∧ (∀ j, j ≠ i → R j (s, g) (s', g')) ∧
        Safe i (next r) (s', g')

variable {exec Fine R Post}

section

variable (htrans : ∀ i t t' t'', R i t t' → R i t' t'' → R i t t'')

include htrans in
theorem Safe.mono {i : ι} {p : Prog α ρ} {t t' : σ × γ} (h : Safe exec Fine R Post i p t)
    (hr : R i t t') : Safe exec Fine R Post i p t' := by
  cases p with
  | done => exact fun t'' hr' => h t'' (htrans i _ _ _ hr hr')
  | act a next => exact fun s g hr' => h s g (htrans i _ _ _ hr hr')

end

def AllSafe (exec : α → σ → Option (ρ × σ)) (Fine : σ → α → Prop)
    (R : ι → σ × γ → σ × γ → Prop) (Post : ι → σ × γ → Prop) (p : Pool α ρ σ ι) : Prop :=
  ∃ g, ∀ i, Safe exec Fine R Post i (p.programs i) (p.state, g)

section

variable (hrefl : ∀ i t, R i t t)

include hrefl

theorem AllSafe.post {p : Pool α ρ σ ι} (h : AllSafe exec Fine R Post p)
    (hdone : ∀ i, p.programs i = .done) : ∃ g, ∀ i, Post i (p.state, g) := by
  obtain ⟨g, h⟩ := h
  refine ⟨g, fun i => ?_⟩
  have hi := h i
  rw [hdone i] at hi
  exact hi _ (hrefl i _)

variable (htrans : ∀ i t t' t'', R i t t' → R i t' t'' → R i t t'') [DecidableEq ι]

include htrans

theorem AllSafe.step {p q : Pool α ρ σ ι} (h : AllSafe exec Fine R Post p)
    (hstep : Step exec Fine p q) : AllSafe exec Fine R Post q := by
  obtain ⟨g, h⟩ := h
  cases hstep with
  | mk i hact hfine hexec =>
    rename_i s s' programs a next r
    have hi := h i
    dsimp only at hi
    rw [hact] at hi
    obtain ⟨r', s'', g', hexec', hothers, hnext⟩ := hi s g (hrefl i _) hfine
    cases hexec.symm.trans hexec'
    refine ⟨g', fun j => ?_⟩
    dsimp only
    by_cases hji : j = i
    · subst hji
      rwa [Function.update_self]
    · rw [Function.update_of_ne hji]
      exact (h j).mono htrans (hothers j hji)

theorem AllSafe.run {p q : Pool α ρ σ ι} (h : AllSafe exec Fine R Post p)
    (hrun : Relation.ReflTransGen (Step exec Fine) p q) : AllSafe exec Fine R Post q := by
  induction hrun with
  | refl => exact h
  | tail _ hstep ih => exact ih.step hrefl htrans hstep

end

end Interleaving
