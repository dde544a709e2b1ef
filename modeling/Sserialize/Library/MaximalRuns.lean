import Mathlib.Data.List.Pairwise
import Mathlib.Data.Nat.Find
import Mathlib.Order.Lattice
import Mathlib.Tactic.Set

/-!
# Maximal runs of equal keys

The positions of a list fall into runs of equal keys that cannot be extended at either end.
-/

namespace MaximalRuns

variable {κ : Type*} {keys : List κ}

def Constant (keys : List κ) (b e : Nat) : Prop := ∀ i, b ≤ i → i < e → keys[i]? = keys[b]?

/-- A run does not go on over `p`. -/
def Boundary (keys : List κ) (p : Nat) : Prop := p = 0 ∨ keys[p - 1]? ≠ keys[p]?

structure Run (keys : List κ) (b e : Nat) : Prop where
  nonempty : b < e
  inRange : e ≤ keys.length
  constant : Constant keys b e
  left : Boundary keys b
  right : Boundary keys e

theorem Constant.eq {b e i j : Nat} (h : Constant keys b e) (hi : b ≤ i ∧ i < e)
    (hj : b ≤ j ∧ j < e) : keys[i]? = keys[j]? :=
  (h i hi.1 hi.2).trans (h j hj.1 hj.2).symm

theorem Constant.not_boundary {b e p : Nat} (h : Constant keys b e) (hb : b < p) (he : p < e) :
    ¬ Boundary keys p := by
  rintro (rfl | hne)
  · omega
  · exact hne (h.eq ⟨by omega, by omega⟩ ⟨by omega, he⟩)

theorem Constant.succ {b e : Nat} (h : Constant keys b e) (he : keys[e]? = keys[b]?) :
    Constant keys b (e + 1) := by
  intro i hi hlt
  by_cases hlast : i = e
  · rw [hlast, he]
  · exact h i hi (by omega)

theorem constant_singleton (b : Nat) : Constant keys b (b + 1) := by
  intro i hi hlt
  have heq : i = b := by omega
  rw [heq]

theorem Run.unique {b e b' e' i : Nat} (h : Run keys b e) (h' : Run keys b' e')
    (hi : b ≤ i ∧ i < e) (hi' : b' ≤ i ∧ i < e') : b = b' ∧ e = e' := by
  have hb := h.constant.not_boundary (p := b')
  have hb' := h'.constant.not_boundary (p := b)
  have he := h.constant.not_boundary (p := e')
  have he' := h'.constant.not_boundary (p := e)
  have hleft := h.left
  have hleft' := h'.left
  have hright := h.right
  have hright' := h'.right
  constructor
  · rcases Nat.lt_trichotomy b b' with hlt | heq | hlt
    · exact absurd hleft' (hb hlt (by omega))
    · exact heq
    · exact absurd hleft (hb' hlt (by omega))
  · rcases Nat.lt_trichotomy e e' with hlt | heq | hlt
    · exact absurd hright (he' (by omega) hlt)
    · exact heq
    · exact absurd hright' (he (by omega) hlt)

theorem exists_run {i : Nat} (hi : i < keys.length) :
    ∃ b e, Run keys b e ∧ b ≤ i ∧ i < e := by
  classical
  have hleft : ∃ b, b ≤ i ∧ Constant keys b (i + 1) := ⟨i, Nat.le_refl i, constant_singleton i⟩
  have hright : ∃ e, i < e ∧ (e = keys.length ∨ keys[e]? ≠ keys[i]?) :=
    ⟨keys.length, hi, .inl rfl⟩
  obtain ⟨hbi, hbefore⟩ := Nat.find_spec hleft
  obtain ⟨hie, hend⟩ := Nat.find_spec hright
  have hminLeft := fun b => Nat.find_min hleft (m := b)
  have hminRight := fun e => Nat.find_min hright (m := e)
  set b := Nat.find hleft
  set e := Nat.find hright
  have hbehind : ∀ j, i ≤ j → j < e → keys[j]? = keys[i]? := by
    intro j hij hje
    rcases Nat.eq_or_lt_of_le hij with rfl | hlt
    · rfl
    · by_contra hne
      exact hminRight j hje ⟨hlt, .inr hne⟩
  have hle : e ≤ keys.length := by
    by_contra hlt
    exact hminRight keys.length (not_le.mp hlt) ⟨hi, .inl rfl⟩
  have hkey : keys[b]? = keys[i]? := (hbefore i hbi (Nat.lt_succ_self i)).symm
  refine ⟨b, e, ⟨by omega, hle, fun j hbj hje => ?_, ?_, ?_⟩, hbi, hie⟩
  · rcases Nat.lt_or_ge i j with hij | hji
    · rw [hbehind j (Nat.le_of_lt hij) hje, hkey]
    · exact hbefore j hbj (Nat.lt_succ_of_le hji)
  · rcases Nat.eq_zero_or_pos b with hzero | hpos
    · exact .inl hzero
    · refine .inr fun heq => hminLeft (b - 1) (by omega) ⟨by omega, fun j hj hji => ?_⟩
      rcases Nat.eq_or_lt_of_le hj with rfl | hlt
      · rfl
      · rw [hbefore j (by omega) hji, heq]
  · refine .inr fun heq => ?_
    rcases hend with hlast | hne
    · rw [hlast, List.getElem?_eq_none (Nat.le_refl _), List.getElem?_eq_some_iff.mpr
        ⟨by omega, rfl⟩] at heq
      cases heq
    · exact hne (heq.symm.trans (hbehind (e - 1) (by omega) (by omega)))

theorem Run.eq_iff [LinearOrder κ] {b e i : Nat} (h : Run keys b e)
    (hsorted : keys.Pairwise (· ≤ ·)) (hi : i < keys.length) :
    keys[i]? = keys[b]? ↔ b ≤ i ∧ i < e := by
  have hmono : ∀ (j k : Nat) (hj : j < keys.length) (hk : k < keys.length), j ≤ k →
      keys[j] ≤ keys[k] := by
    intro j k hj hk hjk
    rcases Nat.eq_or_lt_of_le hjk with rfl | hlt
    · exact le_rfl
    · exact List.pairwise_iff_getElem.mp hsorted j k hj hk hlt
  have hnonempty := h.nonempty
  have hrange := h.inRange
  refine ⟨fun heq => ?_, fun ⟨hbi, hie⟩ => h.constant i hbi hie⟩
  rw [List.getElem?_eq_getElem hi, List.getElem?_eq_getElem (show b < keys.length by omega),
    Option.some_inj] at heq
  constructor
  · by_contra hlt
    rcases h.left with hzero | hne
    · omega
    · apply hne
      rw [List.getElem?_eq_getElem (show b - 1 < keys.length by omega),
        List.getElem?_eq_getElem (show b < keys.length by omega), Option.some_inj]
      apply le_antisymm (hmono _ _ (by omega) (by omega) (by omega))
      rw [← heq]
      exact hmono _ _ (by omega) (by omega) (by omega)
  · by_contra hlt
    have hconst := h.constant (e - 1) (by omega) (by omega)
    rw [List.getElem?_eq_getElem (show e - 1 < keys.length by omega),
      List.getElem?_eq_getElem (show b < keys.length by omega), Option.some_inj] at hconst
    rcases h.right with hzero | hne
    · omega
    · apply hne
      rw [List.getElem?_eq_getElem (show e - 1 < keys.length by omega),
        List.getElem?_eq_getElem (show e < keys.length by omega), Option.some_inj]
      apply le_antisymm (hmono _ _ (by omega) (by omega) (by omega))
      rw [hconst, ← heq]
      exact hmono _ _ (by omega) hi (by omega)

end MaximalRuns
