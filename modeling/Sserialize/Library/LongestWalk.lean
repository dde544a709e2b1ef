import Mathlib.Data.Finset.Card
import Mathlib.Order.Bounds.Defs

/-!
# Longest walks in acyclic graphs

The lengths of the longest walks from some vertices, by a relaxation that follows an edge whenever
it makes a walk longer. A vertex is entered again whenever a longer walk to it is found, so that the
recursion ends only in acyclic graphs.
-/

namespace LongestWalk

open Function (update update_self update_of_ne)

variable {α : Type*} (succ : α → List α)

/-- There is a walk of `n` edges. -/
inductive Walk : Nat → α → α → Prop
  | nil (x : α) : Walk 0 x x
  | cons {n : Nat} {x y z : α} : y ∈ succ x → Walk n y z → Walk (n + 1) x z

/-- No vertex of the domain is on a cycle, and no edge leaves the domain. -/
structure Acyclic (dom : Finset α) : Prop where
  closed : ∀ x ∈ dom, ∀ y ∈ succ x, y ∈ dom
  irrefl : ∀ x ∈ dom, ¬ Relation.TransGen (fun a b => b ∈ succ a) x x

variable {succ}

theorem Walk.snoc {n : Nat} {x y z : α} (h : Walk succ n x y) (hz : z ∈ succ y) :
    Walk succ (n + 1) x z := by
  induction h with
  | nil x => exact .cons hz (.nil z)
  | cons hy _ ih => exact .cons hy (ih hz)

theorem Walk.append {m n : Nat} {x y z : α} (h : Walk succ m x y) (h' : Walk succ n y z) :
    Walk succ (m + n) x z := by
  induction h with
  | nil x => rwa [Nat.zero_add]
  | @cons k a b c hb _ ih =>
    have hlength : k + 1 + n = k + n + 1 := by omega
    rw [hlength]
    exact .cons hb (ih h')

theorem Walk.transGen {n : Nat} {x y : α} (h : Walk succ (n + 1) x y) :
    Relation.TransGen (fun a b => b ∈ succ a) x y := by
  generalize hm : n + 1 = m at h
  induction h generalizing n with
  | nil x => cases hm
  | @cons k a b c hb h ih =>
    cases k with
    | zero =>
      cases h
      exact .single hb
    | succ k => exact .head hb (ih rfl)

theorem exists_walk_of_transGen {x y : α} (h : Relation.TransGen (fun a b => b ∈ succ a) x y) :
    ∃ n, Walk succ (n + 1) x y := by
  induction h with
  | single h => exact ⟨0, .cons h (.nil _)⟩
  | tail _ h ih =>
    obtain ⟨n, hn⟩ := ih
    exact ⟨n + 1, hn.snoc h⟩

/-! ## The rank of a vertex -/

section

open Classical

noncomputable def rank (succ : α → List α) (dom : Finset α) (x : α) : Nat :=
  (dom.filter fun y => Relation.TransGen (fun a b => b ∈ succ a) x y).card

variable {dom : Finset α}

theorem Acyclic.rank_lt (h : Acyclic succ dom) {x y : α} (hx : x ∈ dom) (hy : y ∈ succ x) :
    rank succ dom y < rank succ dom x := by
  have hydom := h.closed x hx y hy
  apply Finset.card_lt_card
  rw [Finset.ssubset_iff_of_subset]
  · exact ⟨y, Finset.mem_filter.mpr ⟨hydom, .single hy⟩,
      fun hmem => h.irrefl y hydom (Finset.mem_filter.mp hmem).2⟩
  · intro z hz
    obtain ⟨hzdom, hyz⟩ := Finset.mem_filter.mp hz
    exact Finset.mem_filter.mpr ⟨hzdom, .head hy hyz⟩

theorem Acyclic.rank_lt_card (h : Acyclic succ dom) {x : α} (hx : x ∈ dom) :
    rank succ dom x < dom.card := by
  apply Finset.card_lt_card
  rw [Finset.ssubset_iff_of_subset (Finset.filter_subset _ _)]
  exact ⟨x, hx, fun hmem => h.irrefl x hx (Finset.mem_filter.mp hmem).2⟩

end

/-! ## The relaxation -/

section

variable [DecidableEq α]

def relax (succ : α → List α) : Nat → (α → Nat) → α → Option (α → Nat)
  | 0, _, _ => none
  | fuel + 1, d, x =>
    (succ x).foldlM (fun d y =>
      if d y ≤ d x then relax succ fuel (update d y (d x + 1)) y else some d) d

theorem relax_succ (fuel : Nat) (d : α → Nat) (x : α) : relax succ (fuel + 1) d x =
    (succ x).foldlM (fun d y =>
      if d y ≤ d x then relax succ fuel (update d y (d x + 1)) y else some d) d := rfl

def Settled (succ : α → List α) (d : α → Nat) (x : α) : Prop := ∀ y ∈ succ x, d x < d y

/-- What the relaxation along some edges of `x` does: values become larger, those that do are the
lengths of walks from `x`, and the vertices that have them are settled. -/
structure Relaxed (succ : α → List α) (x : α) (d d' : α → Nat) : Prop where
  le : ∀ y, d y ≤ d' y
  settled : ∀ y, d' y ≠ d y → Settled succ d' y
  walk : ∀ y, d' y ≠ d y → ∃ n, Walk succ (n + 1) x y ∧ d' y = d x + (n + 1)

variable {d d' : α → Nat}

omit [DecidableEq α] in
theorem Settled.mono {x : α} (h : Settled succ d x) (hle : ∀ y, d y ≤ d' y) (hx : d' x = d x) :
    Settled succ d' x := by
  intro y hy
  rw [hx]
  exact (h y hy).trans_le (hle y)

omit [DecidableEq α] in
theorem Relaxed.refl (x : α) (d : α → Nat) : Relaxed succ x d d where
  le _ := Nat.le_refl _
  settled _ h := absurd rfl h
  walk _ h := absurd rfl h

omit [DecidableEq α] in
theorem Relaxed.self {x : α} (h : Relaxed succ x d d')
    (hx : ¬ Relation.TransGen (fun a b => b ∈ succ a) x x) : d' x = d x := by
  by_contra hne
  obtain ⟨n, hwalk, -⟩ := h.walk x hne
  exact hx hwalk.transGen

omit [DecidableEq α] in
theorem Relaxed.trans {x : α} {d d' d'' : α → Nat} (h : Relaxed succ x d d')
    (h' : Relaxed succ x d' d'') (hx : d' x = d x) : Relaxed succ x d d'' := by
  refine ⟨fun y => (h.le y).trans (h'.le y), ?_, ?_⟩
  · intro y hne
    by_cases hlast : d'' y = d' y
    · apply (h.settled y ?_).mono h'.le hlast
      rwa [← hlast]
    · exact h'.settled y hlast
  · intro y hne
    by_cases hlast : d'' y = d' y
    · rw [hlast] at hne ⊢
      exact h.walk y hne
    · rw [← hx]
      exact h'.walk y hlast

theorem Relaxed.descend {x y : α} (hy : y ∈ succ x) (hle : d y ≤ d x) (hself : d' y = d x + 1)
    (hsettled : Settled succ d' y) (h : Relaxed succ y (update d y (d x + 1)) d') :
    Relaxed succ x d d' := by
  have hkeep : ∀ z, z ≠ y → update d y (d x + 1) z = d z := fun z hz =>
    update_of_ne hz _ _
  refine ⟨?_, ?_, ?_⟩
  · intro z
    by_cases hz : z = y
    · rw [hz, hself]
      omega
    · rw [← hkeep z hz]
      exact h.le z
  · intro z hne
    by_cases hz : z = y
    · rwa [hz]
    · apply h.settled z
      rwa [hkeep z hz]
  · intro z hne
    by_cases hz : z = y
    · rw [hz]
      exact ⟨0, .cons hy (.nil y), hself⟩
    · obtain ⟨n, hwalk, hvalue⟩ := h.walk z (by rwa [hkeep z hz])
      rw [update_self] at hvalue
      exact ⟨n + 1, .cons hy hwalk, by omega⟩

theorem relax_spec {dom : Finset α} (h : Acyclic succ dom) {fuel : Nat} {x : α} (hx : x ∈ dom)
    (hfuel : rank succ dom x < fuel) (d : α → Nat) :
    ∃ d', relax succ fuel d x = some d' ∧ Relaxed succ x d d' ∧ Settled succ d' x := by
  induction fuel generalizing x d with
  | zero => omega
  | succ fuel ih =>
    -- the edges that are done lead to larger values
    have hloop : ∀ (ys : List α) (d : α → Nat), (∀ y ∈ ys, y ∈ succ x) →
        ∃ d', ys.foldlM (fun d y =>
            if d y ≤ d x then relax succ fuel (update d y (d x + 1)) y else some d) d =
          some d' ∧ Relaxed succ x d d' ∧ ∀ y ∈ ys, d' x < d' y := by
      intro ys
      induction ys with
      | nil =>
        intro d _
        exact ⟨d, rfl, .refl x d, fun y hy => absurd hy List.not_mem_nil⟩
      | cons y ys ihLoop =>
        intro d hys
        have hy := hys y List.mem_cons_self
        have hrank := h.rank_lt hx hy
        obtain ⟨d₁, hstep, hrelaxed, hlt⟩ : ∃ d₁,
            (if d y ≤ d x then relax succ fuel (update d y (d x + 1)) y else some d) =
              some d₁ ∧ Relaxed succ x d d₁ ∧ d₁ x < d₁ y := by
          by_cases hle : d y ≤ d x
          · obtain ⟨d₁, hd₁, hrelaxed, hsettled⟩ := ih (h.closed x hx y hy) (by omega)
              (update d y (d x + 1))
            have hself := hrelaxed.self (h.irrefl y (h.closed x hx y hy))
            rw [update_self] at hself
            have hdescend := Relaxed.descend hy hle hself hsettled hrelaxed
            refine ⟨d₁, by rw [if_pos hle, hd₁], hdescend, ?_⟩
            rw [hdescend.self (h.irrefl x hx), hself]
            exact Nat.lt_succ_self _
          · exact ⟨d, if_neg hle, .refl x d, Nat.lt_of_not_le hle⟩
        obtain ⟨d', hrest, hrelaxed', hlt'⟩ := ihLoop d₁ fun z hz =>
          hys z (List.mem_cons_of_mem _ hz)
        refine ⟨d', ?_, hrelaxed.trans hrelaxed' (hrelaxed.self (h.irrefl x hx)), ?_⟩
        · rw [List.foldlM_cons, hstep]
          exact hrest
        · intro z hz
          obtain rfl | hz := List.mem_cons.mp hz
          · rw [hrelaxed'.self (h.irrefl x hx)]
            exact hlt.trans_le (hrelaxed'.le z)
          · exact hlt' z hz
    obtain ⟨d', hd', hrelaxed, hsettled⟩ := hloop (succ x) d fun y hy => hy
    exact ⟨d', by rw [relax_succ, hd'], hrelaxed, hsettled⟩

def relaxAll (succ : α → List α) (fuel : Nat) (roots : List α) : Option (α → Nat) :=
  roots.foldlM (relax succ fuel) fun x => if x ∈ roots then 1 else 0

/-- What holds between the recursions: the values are lengths of walks from a root, counted with
the root, and the vertices with a value are settled, up to the roots that are left. -/
structure Between (succ : α → List α) (roots left : List α) (d : α → Nat) : Prop where
  root : ∀ x ∈ roots, 1 ≤ d x
  walk : ∀ x, d x ≠ 0 → ∃ r ∈ roots, ∃ n, Walk succ n r x ∧ d x = n + 1
  settled : ∀ x, d x ≠ 0 → Settled succ d x ∨ x ∈ left

theorem Between.step {dom : Finset α} (h : Acyclic succ dom) {roots left : List α} {r : α}
    {d : α → Nat} (hr : r ∈ roots) (hdom : r ∈ dom) {fuel : Nat} (hfuel : dom.card ≤ fuel)
    (hd : Between succ roots (r :: left) d) :
    ∃ d', relax succ fuel d r = some d' ∧ Between succ roots left d' := by
  have hrank := h.rank_lt_card hdom
  obtain ⟨d', hrelax, hrelaxed, hself⟩ := relax_spec h hdom (hrank.trans_le hfuel) d
  refine ⟨d', hrelax, fun x hx => (hd.root x hx).trans (hrelaxed.le x), ?_, ?_⟩
  · intro x hx
    by_cases hkeep : d' x = d x
    · rw [hkeep] at hx ⊢
      exact hd.walk x hx
    · obtain ⟨n, hwalk, hvalue⟩ := hrelaxed.walk x hkeep
      obtain ⟨s, hs, m, hm, hdr⟩ := hd.walk r (Nat.one_le_iff_ne_zero.mp (hd.root r hr))
      exact ⟨s, hs, m + (n + 1), hm.append hwalk, by omega⟩
  · intro x hx
    by_cases hkeep : d' x = d x
    · rw [hkeep] at hx
      obtain hsettled | hleft := hd.settled x hx
      · exact .inl (hsettled.mono hrelaxed.le hkeep)
      · obtain rfl | hleft := List.mem_cons.mp hleft
        · exact .inl hself
        · exact .inr hleft
    · exact .inl (hrelaxed.settled x hkeep)

/-- The value of a vertex is the number of vertices of the longest walk from a root to it; it is 0
for the vertices that are not reached. -/
theorem relaxAll_spec {dom : Finset α} (h : Acyclic succ dom) {roots : List α}
    (hroots : ∀ r ∈ roots, r ∈ dom) {fuel : Nat} (hfuel : dom.card ≤ fuel) :
    ∃ d, relaxAll succ fuel roots = some d ∧
      (∀ x, d x ≠ 0 → ∃ r ∈ roots, ∃ n, Walk succ n r x ∧ d x = n + 1) ∧
      ∀ r ∈ roots, ∀ n x, Walk succ n r x → n + 1 ≤ d x := by
  have hloop : ∀ (left : List α) (d : α → Nat), (∀ r ∈ left, r ∈ roots) →
      Between succ roots left d → ∃ d', left.foldlM (relax succ fuel) d = some d' ∧
        Between succ roots [] d' := by
    intro left
    induction left with
    | nil => exact fun d _ hd => ⟨d, rfl, hd⟩
    | cons r left ih =>
      intro d hleft hd
      have hr := hleft r List.mem_cons_self
      obtain ⟨d₁, hstep, hd₁⟩ := hd.step h hr (hroots r hr) hfuel
      obtain ⟨d', hrest, hd'⟩ := ih d₁ (fun s hs => hleft s (List.mem_cons_of_mem _ hs)) hd₁
      refine ⟨d', ?_, hd'⟩
      rw [List.foldlM_cons, hstep]
      exact hrest
  have hstart : Between succ roots roots fun x => if x ∈ roots then 1 else 0 := by
    have hmem : ∀ x, (if x ∈ roots then 1 else 0) ≠ 0 → x ∈ roots := by
      intro x hx
      by_contra hnot
      exact hx (if_neg hnot)
    refine ⟨fun x hx => (if_pos hx).ge, fun x hx => ?_, fun x hx => .inr (hmem x hx)⟩
    exact ⟨x, hmem x hx, 0, .nil x, if_pos (hmem x hx)⟩
  obtain ⟨d, hrun, hd⟩ := hloop roots _ (fun r hr => hr) hstart
  refine ⟨d, hrun, hd.walk, ?_⟩
  intro r hr n x hwalk
  -- along the walk every edge leads to a larger value
  suffices hgrow : ∀ n x y, Walk succ n x y → d x ≠ 0 → d x + n ≤ d y by
    have hone := hd.root r hr
    have hle := hgrow n r x hwalk (Nat.one_le_iff_ne_zero.mp hone)
    omega
  intro n x y hwalk
  induction hwalk with
  | nil x => exact fun _ => Nat.le_refl _
  | @cons k a b c hb _ ih =>
    intro ha
    have hab := (hd.settled a ha).resolve_right List.not_mem_nil b hb
    have hbc := ih (by omega)
    omega

end

end LongestWalk
