import Sserialize.ItemIndex.ItemIndex
import Sserialize.Storage.Bytes
import Mathlib.Tactic.IntervalCases

/-!
# `dgg::interface::SpatialGrid`

The interface of a hierarchical grid and of the items of its pixels. What the interface promises is
a predicate: level 0 has a single pixel, the children of a pixel are the pixels with it as parent,
and the items of a pixel are those of its children.
-/

namespace Sserialize

/-- `interface::SpatialGrid`. -/
structure SpatialGrid where
  rootPixelId : Nat
  level : Nat → Nat
  isAncestor : Nat → Nat → Bool
  index : Nat → Nat → Except Fault Nat
  parent : Nat → Except Fault Nat
  childrenCount : Nat → Nat

/-- `interface::SpatialGridInfo`. -/
structure SpatialGridInfo where
  items : Nat → ItemIndex
  pixelId : Nat → Nat

namespace SpatialGrid

variable (sg : SpatialGrid)

/-- The pixel `p` is an ancestor of `q` or `q` itself. -/
inductive Covers (p : Nat) : Nat → Prop where
  | refl : Covers p p
  | child {q c : Nat} : Covers p q → 0 < sg.level c → sg.parent c = .ok q → Covers p c

structure Lawful (Pixel : Nat → Prop) : Prop where
  root : Pixel sg.rootPixelId
  level_root : sg.level sg.rootPixelId = 0
  eq_root : ∀ p, Pixel p → sg.level p = 0 → p = sg.rootPixelId
  parent_ok : ∀ c, Pixel c → 0 < sg.level c →
    ∃ p, sg.parent c = .ok p ∧ Pixel p ∧ sg.level c = sg.level p + 1
  index_ok : ∀ p, Pixel p → ∀ i < sg.childrenCount p,
    ∃ c, sg.index p i = .ok c ∧ Pixel c ∧ sg.parent c = .ok p ∧ sg.level c = sg.level p + 1
  child_index : ∀ p c, Pixel c → 0 < sg.level c → sg.parent c = .ok p →
    ∃ i < sg.childrenCount p, sg.index p i = .ok c
  index_inj : ∀ p, Pixel p → ∀ i < sg.childrenCount p, ∀ j < sg.childrenCount p,
    sg.index p i = sg.index p j → i = j
  isAncestor_iff : ∀ p q, Pixel p → Pixel q →
    (sg.isAncestor p q = true ↔ sg.Covers p q ∧ p ≠ q)

/-! ## Pixels below a pixel -/

section

variable {sg} {Pixel : Nat → Prop} {p q r : Nat}

theorem Covers.trans (hpq : sg.Covers p q) (hqr : sg.Covers q r) : sg.Covers p r := by
  induction hqr with
  | refl => exact hpq
  | child _ hlevel hparent ih => exact .child ih hlevel hparent

theorem Lawful.level_parent (h : sg.Lawful Pixel) {c : Nat} (hc : Pixel c) (hlevel : 0 < sg.level c)
    (hparent : sg.parent c = .ok q) : Pixel q ∧ sg.level c = sg.level q + 1 := by
  obtain ⟨p, hp, hpixel, heq⟩ := h.parent_ok c hc hlevel
  obtain rfl := Except.ok.inj (hp.symm.trans hparent)
  exact ⟨hpixel, heq⟩

theorem Covers.pixel (h : sg.Lawful Pixel) (hpq : sg.Covers p q) (hq : Pixel q) : Pixel p := by
  induction hpq with
  | refl => exact hq
  | child _ hlevel hparent ih => exact ih (h.level_parent hq hlevel hparent).1

theorem Covers.level_le (h : sg.Lawful Pixel) (hpq : sg.Covers p q) (hq : Pixel q) :
    sg.level p ≤ sg.level q := by
  induction hpq with
  | refl => exact Nat.le_refl _
  | child _ hlevel hparent ih =>
    obtain ⟨hpixel, heq⟩ := h.level_parent hq hlevel hparent
    have hle := ih hpixel
    omega

theorem Covers.level_lt (h : sg.Lawful Pixel) (hpq : sg.Covers p q) (hq : Pixel q) (hne : p ≠ q) :
    sg.level p < sg.level q := by
  cases hpq with
  | refl => exact absurd rfl hne
  | child hcov hlevel hparent =>
    obtain ⟨hpixel, heq⟩ := h.level_parent hq hlevel hparent
    have hle := hcov.level_le h hpixel
    omega

theorem Lawful.covers_root (h : sg.Lawful Pixel) (hq : Pixel q) : sg.Covers sg.rootPixelId q := by
  induction hn : sg.level q generalizing q with
  | zero =>
    rw [h.eq_root q hq hn]
    exact .refl
  | succ n ih =>
    have hpos : 0 < sg.level q := by omega
    obtain ⟨p, hparent, hp, hlevel⟩ := h.parent_ok q hq hpos
    exact .child (ih hp (by omega)) hpos hparent

theorem Covers.eq_of_level (h : sg.Lawful Pixel) {p' : Nat} (hpq : sg.Covers p q)
    (hpq' : sg.Covers p' q) (hq : Pixel q) (hlevel : sg.level p = sg.level p') : p = p' := by
  induction hpq with
  | refl =>
    by_contra hne
    exact Nat.ne_of_gt (hpq'.level_lt h hq (Ne.symm hne)) hlevel
  | child hcov hpos hparent ih =>
    obtain ⟨hpixel, heq⟩ := h.level_parent hq hpos hparent
    cases hpq' with
    | refl =>
      have hle := hcov.level_le h hpixel
      omega
    | child hcov' _ hparent' =>
      obtain rfl := Except.ok.inj (hparent.symm.trans hparent')
      exact ih hcov' hpixel

theorem Covers.exists_child (hpq : sg.Covers p q) (hne : p ≠ q) :
    ∃ c, 0 < sg.level c ∧ sg.parent c = .ok p ∧ sg.Covers c q := by
  induction hpq with
  | refl => exact absurd rfl hne
  | @child q c hcov hlevel hparent ih =>
    by_cases heq : p = q
    · obtain rfl := heq
      exact ⟨c, hlevel, hparent, .refl⟩
    · obtain ⟨d, hd, hparent', hcov'⟩ := ih heq
      exact ⟨d, hd, hparent', .child hcov' hlevel hparent⟩

end

def twoChildren : SpatialGrid where
  rootPixelId := 0
  level p := if p = 0 then 0 else 1
  isAncestor p q := p = 0 && (q = 1 || q = 2)
  index p i := if p = 0 ∧ i < 2 then .ok (i + 1) else .error .outOfBounds
  parent c := if c = 0 then .error .outOfBounds else .ok 0
  childrenCount p := if p = 0 then 2 else 0

theorem lawful_twoChildren : twoChildren.Lawful (· ≤ 2) where
  root := Nat.zero_le 2
  level_root := rfl
  eq_root p hp hlevel := by
    interval_cases p
    · rfl
    · cases hlevel
    · cases hlevel
  parent_ok c hc hlevel := by
    interval_cases c
    · cases hlevel
    · exact ⟨0, rfl, Nat.zero_le 2, rfl⟩
    · exact ⟨0, rfl, Nat.zero_le 2, rfl⟩
  index_ok p hp i hi := by
    interval_cases p
    · have hi' : i < 2 := hi
      interval_cases i
      · exact ⟨1, rfl, by decide, rfl, rfl⟩
      · exact ⟨2, rfl, by decide, rfl, rfl⟩
    · cases hi
    · cases hi
  child_index p c hc hlevel hparent := by
    interval_cases c
    · cases hlevel
    · obtain rfl : 0 = p := Except.ok.inj hparent
      exact ⟨0, Nat.zero_lt_two, rfl⟩
    · obtain rfl : 0 = p := Except.ok.inj hparent
      exact ⟨1, Nat.one_lt_two, rfl⟩
  index_inj p hp i hi j hj heq := by
    interval_cases p
    · have hi' : i < 2 := hi
      have hj' : j < 2 := hj
      interval_cases i <;> interval_cases j
      · rfl
      · cases Except.ok.inj heq
      · cases Except.ok.inj heq
      · rfl
    · cases hi
    · cases hi
  isAncestor_iff p q hp hq := by
    have hroot : ∀ r, twoChildren.Covers r 0 → r = 0 := by
      intro r hr
      cases hr with
      | refl => rfl
      | child _ hlevel => cases hlevel
    have hchild : ∀ c, c = 1 ∨ c = 2 → ∀ r, twoChildren.Covers r c ↔ r = 0 ∨ r = c := by
      intro c hc r
      constructor
      · intro hr
        cases hr with
        | refl => exact .inr rfl
        | child hcov _ hparent =>
          rcases hc with rfl | rfl
          · obtain rfl := Except.ok.inj hparent
            exact .inl (hroot r hcov)
          · obtain rfl := Except.ok.inj hparent
            exact .inl (hroot r hcov)
      · rintro (rfl | rfl)
        · rcases hc with rfl | rfl
          · exact .child .refl (by decide) rfl
          · exact .child .refl (by decide) rfl
        · exact .refl
    interval_cases q
    · exact iff_of_false (by simp [twoChildren]) fun h => h.2 (hroot p h.1)
    · rw [hchild 1 (.inl rfl) p]
      interval_cases p <;> simp [twoChildren]
    · rw [hchild 2 (.inr rfl) p]
      interval_cases p <;> simp [twoChildren]

end SpatialGrid

end Sserialize
