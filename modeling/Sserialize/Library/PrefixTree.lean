import Mathlib.Data.Finset.Sort
import Mathlib.Data.List.Lex
import Mathlib.Data.List.ProdSigma

/-!
# Prefix trees

Strings over a linear order, sorted lexicographically. The inner nodes of a prefix tree are the
longest common prefixes of its strings; a sorted list that holds them lists the tree in preorder,
the strings below a node being the ones behind it that start with it.
-/

namespace PrefixTree

section Lcp

variable {α : Type*} [DecidableEq α]

def lcp : List α → List α → List α
  | [], _ => []
  | _ :: _, [] => []
  | a :: s, b :: t => if a = b then a :: lcp s t else []

@[simp] theorem lcp_nil (s : List α) : lcp s [] = [] := by
  cases s <;> rfl

theorem lcp_cons (a : α) (s t : List α) : lcp (a :: s) (a :: t) = a :: lcp s t := if_pos rfl

theorem lcp_comm (s t : List α) : lcp s t = lcp t s := by
  induction s generalizing t with
  | nil => rw [lcp_nil, lcp]
  | cons a s ih =>
    cases t with
    | nil => rfl
    | cons b t =>
      by_cases h : a = b
      · subst h
        rw [lcp_cons, lcp_cons, ih]
      · rw [lcp, lcp, if_neg h, if_neg fun heq => h heq.symm]

theorem lcp_self (s : List α) : lcp s s = s := by
  induction s with
  | nil => rfl
  | cons a s ih => rw [lcp_cons, ih]

theorem lcp_prefix_left (s t : List α) : lcp s t <+: s := by
  induction s generalizing t with
  | nil => exact List.prefix_rfl
  | cons a s ih =>
    cases t with
    | nil => exact List.nil_prefix
    | cons b t =>
      by_cases h : a = b
      · rw [lcp, if_pos h]
        exact List.cons_prefix_cons.mpr ⟨rfl, ih t⟩
      · rw [lcp, if_neg h]
        exact List.nil_prefix

theorem lcp_prefix_right (s t : List α) : lcp s t <+: t := by
  rw [lcp_comm]
  exact lcp_prefix_left t s

theorem prefix_lcp {p s t : List α} (hs : p <+: s) (ht : p <+: t) : p <+: lcp s t := by
  induction p generalizing s t with
  | nil => exact List.nil_prefix
  | cons a p ih =>
    obtain ⟨s', rfl⟩ := hs
    obtain ⟨t', rfl⟩ := ht
    rw [List.cons_append, List.cons_append, lcp_cons]
    exact List.cons_prefix_cons.mpr
      ⟨rfl, ih (List.prefix_append p s') (List.prefix_append p t')⟩

theorem lcp_of_isPrefix {s t : List α} (h : s <+: t) : lcp s t = s :=
  (lcp_prefix_left s t).eq_of_length_le (prefix_lcp List.prefix_rfl h).length_le

theorem lcp_of_ne {p s t : List α} {c c' : α} (hne : c ≠ c') (hs : p ++ [c] <+: s)
    (ht : p ++ [c'] <+: t) : lcp s t = p := by
  have hp : p <+: lcp s t :=
    prefix_lcp ((List.prefix_append p [c]).trans hs) ((List.prefix_append p [c']).trans ht)
  refine (hp.eq_of_length_le ?_).symm
  by_contra hlong
  have hnext : ∀ {u d}, p ++ [d] <+: u → lcp s t <+: u → p ++ [d] <+: lcp s t := by
    intro u d hd hu
    refine List.prefix_of_prefix_length_le hd hu ?_
    rw [List.length_append, List.length_singleton]
    omega
  have heq := List.prefix_of_prefix_length_le (hnext hs (lcp_prefix_left s t))
    (hnext ht (lcp_prefix_right s t)) (by simp)
  have hlast := List.append_cancel_left (heq.eq_of_length (by simp))
  exact hne (List.singleton_inj.mp hlast)

def Closure (L : List (List α)) (s : List α) : Prop := ∃ a ∈ L, ∃ b ∈ L, s = lcp a b

variable {L : List (List α)}

theorem closure_of_mem {s : List α} (h : s ∈ L) : Closure L s :=
  ⟨s, h, s, h, (lcp_self s).symm⟩

theorem lcp_of_not_isPrefix {p s t : List α} (hs : p <+: s) (ht : ¬ p <+: t) :
    lcp s t = lcp p t := by
  have hle : lcp s t <+: p := by
    rcases List.prefix_or_prefix_of_prefix (lcp_prefix_left s t) hs with h | h
    · exact h
    · exact absurd (h.trans (lcp_prefix_right s t)) ht
  have hleft : lcp s t <+: lcp p t := prefix_lcp hle (lcp_prefix_right s t)
  have hright : lcp p t <+: lcp s t :=
    prefix_lcp ((lcp_prefix_left p t).trans hs) (lcp_prefix_right p t)
  exact hleft.eq_of_length_le hright.length_le

theorem lcp_lcp (s t u : List α) :
    lcp (lcp s t) (lcp s u) = lcp s t ∨ lcp (lcp s t) (lcp s u) = lcp s u := by
  rcases Nat.le_total (lcp s t).length (lcp s u).length with hle | hle
  · exact .inl (lcp_of_isPrefix (List.prefix_of_prefix_length_le (lcp_prefix_left s t)
      (lcp_prefix_left s u) hle))
  · rw [lcp_comm]
    exact .inr (lcp_of_isPrefix (List.prefix_of_prefix_length_le (lcp_prefix_left s u)
      (lcp_prefix_left s t) hle))

theorem lcp_assoc (s t u : List α) : lcp (lcp s t) u = lcp s (lcp t u) := by
  have hleft : lcp (lcp s t) u <+: lcp s (lcp t u) :=
    prefix_lcp ((lcp_prefix_left _ u).trans (lcp_prefix_left s t))
      (prefix_lcp ((lcp_prefix_left _ u).trans (lcp_prefix_right s t)) (lcp_prefix_right _ u))
  have hright : lcp s (lcp t u) <+: lcp (lcp s t) u :=
    prefix_lcp (prefix_lcp (lcp_prefix_left s _)
      ((lcp_prefix_right s _).trans (lcp_prefix_left t u)))
      ((lcp_prefix_right s _).trans (lcp_prefix_right t u))
  exact hleft.eq_of_length_le hright.length_le

theorem closure_lcp_mem {s t : List α} (hs : Closure L s) (ht : t ∈ L) : Closure L (lcp s t) := by
  obtain ⟨a, ha, b, hb, rfl⟩ := hs
  have heq : lcp (lcp a b) t = lcp (lcp a b) (lcp a t) := by
    have hprefix_left : lcp (lcp a b) t <+: lcp (lcp a b) (lcp a t) :=
      prefix_lcp (lcp_prefix_left _ t)
        (prefix_lcp ((lcp_prefix_left _ t).trans (lcp_prefix_left a b)) (lcp_prefix_right _ t))
    have hprefix_right : lcp (lcp a b) (lcp a t) <+: lcp (lcp a b) t :=
      prefix_lcp (lcp_prefix_left _ _) ((lcp_prefix_right _ _).trans (lcp_prefix_right a t))
    exact hprefix_left.eq_of_length_le hprefix_right.length_le
  rw [heq]
  rcases lcp_lcp a b t with h | h
  · exact ⟨a, ha, b, hb, h⟩
  · exact ⟨a, ha, t, ht, h⟩

theorem closure_lcp {s t : List α} (hs : Closure L s) (ht : Closure L t) : Closure L (lcp s t) := by
  obtain ⟨a, ha, b, hb, rfl⟩ := ht
  rw [← lcp_assoc]
  exact closure_lcp_mem (closure_lcp_mem hs ha) hb

theorem closure_congr {L L' : List (List α)} (hsub : ∀ s ∈ L, s ∈ L')
    (hclosure : ∀ s ∈ L', Closure L s) (s : List α) : Closure L' s ↔ Closure L s := by
  constructor
  · rintro ⟨a, ha, b, hb, rfl⟩
    exact closure_lcp (hclosure a ha) (hclosure b hb)
  · rintro ⟨a, ha, b, hb, rfl⟩
    exact ⟨a, hsub a ha, b, hsub b hb, rfl⟩

end Lcp

section Order

variable {α : Type*} [LinearOrder α]

omit [LinearOrder α] in
theorem exists_next {p s : List α} (h : p <+: s) (hne : s ≠ p) : ∃ c, p ++ [c] <+: s := by
  obtain ⟨t, rfl⟩ := h
  cases t with
  | nil => exact absurd (List.append_nil p) hne
  | cons c t => exact ⟨c, t, by simp⟩

theorem lt_of_isPrefix {s t : List α} (h : s <+: t) (hne : s ≠ t) : s < t := by
  obtain ⟨u, rfl⟩ := h
  cases u with
  | nil => exact absurd (List.append_nil s).symm hne
  | cons c u =>
    have hlt : s ++ [] < s ++ c :: u := List.append_left_lt (List.nil_lt_cons c u)
    rwa [List.append_nil] at hlt

theorem lt_of_next {p s t : List α} {c c' : α} (hlt : c < c') (hs : p ++ [c] <+: s)
    (ht : p ++ [c'] <+: t) : s < t := by
  obtain ⟨u, rfl⟩ := hs
  obtain ⟨v, rfl⟩ := ht
  rw [List.append_assoc, List.append_assoc]
  exact List.append_left_lt (List.cons_lt_cons_iff.mpr (.inl hlt))

theorem next_le {p s t : List α} {c c' : α} (hlt : s < t) (hs : p ++ [c] <+: s)
    (ht : p ++ [c'] <+: t) : c ≤ c' := by
  by_contra hgt
  exact lt_asymm hlt (lt_of_next (not_le.mp hgt) ht hs)

/-- The strings of `L₁` go on with `c` after `p`, those of `L₂` with something greater. -/
structure Group (p : List α) (c : α) (L₁ L₂ : List (List α)) : Prop where
  ne_nil : L₁ ≠ []
  first : ∀ s ∈ L₁, p ++ [c] <+: s
  rest : ∀ s ∈ L₂, ∃ c', c < c' ∧ p ++ [c'] <+: s

variable {p : List α}

theorem exists_group {L : List (List α)} (hne : L ≠ []) (hsorted : L.Pairwise (· < ·))
    (hbelow : ∀ s ∈ L, ∃ c, p ++ [c] <+: s) : ∃ c L₁ L₂, L = L₁ ++ L₂ ∧ Group p c L₁ L₂ := by
  induction L with
  | nil => exact absurd rfl hne
  | cons s L ih =>
    rw [List.forall_mem_cons] at hbelow
    rw [List.pairwise_cons] at hsorted
    obtain ⟨c, hc⟩ := hbelow.1
    by_cases hL : L = []
    · subst hL
      exact ⟨c, [s], [], rfl, List.cons_ne_nil s [], by simpa using hc, by simp⟩
    · obtain ⟨c', L₁, L₂, rfl, hgroup⟩ := ih hL hsorted.2 hbelow.2
      obtain ⟨t, ht⟩ := List.exists_mem_of_ne_nil L₁ hgroup.ne_nil
      have hle : c ≤ c' :=
        next_le (hsorted.1 t (List.mem_append_left L₂ ht)) hc (hgroup.first t ht)
      rcases hle.eq_or_lt with rfl | hlt
      · refine ⟨c, s :: L₁, L₂, rfl, List.cons_ne_nil s L₁, ?_, hgroup.rest⟩
        rw [List.forall_mem_cons]
        exact ⟨hc, hgroup.first⟩
      · refine ⟨c, [s], L₁ ++ L₂, rfl, List.cons_ne_nil s [], by simpa using hc, ?_⟩
        intro u hu
        rcases List.mem_append.mp hu with hu | hu
        · exact ⟨c', hlt, hgroup.first u hu⟩
        · obtain ⟨d, hd, hnext⟩ := hgroup.rest u hu
          exact ⟨d, hlt.trans hd, hnext⟩

theorem Group.lcp_eq {c : α} {L₁ L₂ : List (List α)} (h : Group p c L₁ L₂) {s t : List α}
    (hs : s ∈ L₁) (ht : t ∈ L₂) : lcp s t = p := by
  obtain ⟨c', hlt, hnext⟩ := h.rest t ht
  exact lcp_of_ne hlt.ne (h.first s hs) hnext

/-! ## Missing inner nodes -/

structure IsMissing (L M : List (List α)) : Prop where
  sorted : M.Pairwise (· < ·)
  mem : ∀ s, s ∈ M ↔ Closure L s ∧ s ∉ L

/-- The inner nodes below `p` that are not there, in order. -/
structure IsMissingBelow (p : List α) (L M : List (List α)) : Prop where
  sorted : M.Pairwise (· < ·)
  mem : ∀ s, s ∈ M ↔ (Closure L s ∧ s ∉ L) ∧ s ≠ p

theorem eq_of_sorted {L L' : List (List α)} (h : L.Pairwise (· < ·)) (h' : L'.Pairwise (· < ·))
    (hmem : ∀ s, s ∈ L ↔ s ∈ L') : L = L' := by
  have hperm := (List.perm_ext_iff_of_nodup (h.imp fun hlt => hlt.ne)
    (h'.imp fun hlt => hlt.ne)).mpr hmem
  exact hperm.eq_of_pairwise (fun s t _ _ hlt hgt => absurd hgt (lt_asymm hlt)) h h'

def missing (L : List (List α)) : List (List α) :=
  (((L.product L).map fun x => lcp x.1 x.2).filter fun s => s ∉ L).toFinset.sort (· ≤ ·)

theorem isMissing_missing (L : List (List α)) : IsMissing L (missing L) := by
  refine ⟨(Finset.sortedLT_sort _).pairwise, fun s => ?_⟩
  rw [missing, Finset.mem_sort, List.mem_toFinset, List.mem_filter, List.mem_map, decide_eq_true_eq]
  refine and_congr_left fun _ => ?_
  constructor
  · rintro ⟨⟨a, b⟩, hmem, rfl⟩
    obtain ⟨ha, hb⟩ := List.mem_product.mp hmem
    exact ⟨a, ha, b, hb, rfl⟩
  · rintro ⟨a, ha, b, hb, rfl⟩
    exact ⟨(a, b), List.mem_product.mpr ⟨ha, hb⟩, rfl⟩

theorem IsMissing.eq_missing {L M : List (List α)} (h : IsMissing L M) : M = missing L := by
  have hmissing := isMissing_missing L
  exact eq_of_sorted h.sorted hmissing.sorted fun s => by rw [h.mem, hmissing.mem]

theorem missing_congr {L L' : List (List α)} (h : ∀ s, s ∈ L ↔ s ∈ L') : missing L = missing L' := by
  refine IsMissing.eq_missing ⟨(isMissing_missing L).sorted, fun s => ?_⟩
  have hclosure : Closure L s ↔ Closure L' s := by
    unfold Closure
    simp only [h]
  rw [(isMissing_missing L).mem, hclosure, h]

theorem isMissingBelow_nil (p : List α) : IsMissingBelow p [] [] :=
  ⟨List.Pairwise.nil, fun s => by simp [Closure]⟩

theorem closure_isPrefix {L : List (List α)} (h : ∀ s ∈ L, p <+: s) {s : List α}
    (hs : Closure L s) : p <+: s := by
  obtain ⟨a, ha, b, hb, rfl⟩ := hs
  exact prefix_lcp (h a ha) (h b hb)

theorem IsMissingBelow.append {c : α} {L₁ L₂ M₁ M₂ : List (List α)} (hgroup : Group p c L₁ L₂)
    (h₁ : IsMissing L₁ M₁) (h₂ : IsMissingBelow p L₂ M₂) : IsMissingBelow p (L₁ ++ L₂) (M₁ ++ M₂) := by
  have hnext₁ : ∀ s, Closure L₁ s → p ++ [c] <+: s := fun s => closure_isPrefix hgroup.first
  have hne₁ : ∀ s, p ++ [c] <+: s → s ≠ p := by
    intro s hs heq
    have hlen := hs.length_le
    rw [heq, List.length_append, List.length_singleton] at hlen
    omega
  have hnext₂ : ∀ s, Closure L₂ s → s ≠ p → ∃ c', c < c' ∧ p ++ [c'] <+: s := by
    rintro s hs hne
    have hp : p <+: s := closure_isPrefix (fun t ht => by
      obtain ⟨c', -, hc'⟩ := hgroup.rest t ht
      exact (List.prefix_append p [c']).trans hc') hs
    obtain ⟨d, hd⟩ := exists_next hp hne
    obtain ⟨a, ha, b, -, rfl⟩ := hs
    obtain ⟨c', hlt, hc'⟩ := hgroup.rest a ha
    have heq := List.prefix_of_prefix_length_le (hd.trans (lcp_prefix_left a b)) hc' (by simp)
    have hlast := List.append_cancel_left (heq.eq_of_length (by simp))
    rw [← List.singleton_inj.mp hlast] at hlt
    exact ⟨d, hlt, hd⟩
  have hnot : ∀ {s d}, c < d → p ++ [c] <+: s → ¬ p ++ [d] <+: s := fun hlt hs hd =>
    lt_irrefl _ (lt_of_next hlt hs hd)
  refine ⟨List.pairwise_append.mpr ⟨h₁.sorted, h₂.sorted, ?_⟩, ?_⟩
  · intro s hs t ht
    obtain ⟨⟨hclosure, -⟩, hne⟩ := (h₂.mem t).mp ht
    obtain ⟨c', hlt, hc'⟩ := hnext₂ t hclosure hne
    exact lt_of_next hlt (hnext₁ s ((h₁.mem s).mp hs).1) hc'
  · intro s
    rw [List.mem_append, List.mem_append, h₁.mem, h₂.mem]
    constructor
    · rintro (⟨hclosure, hmem⟩ | ⟨⟨hclosure, hmem⟩, hne⟩)
      · have hs := hnext₁ s hclosure
        obtain ⟨a, ha, b, hb, heq⟩ := hclosure
        refine ⟨⟨⟨a, List.mem_append_left L₂ ha, b, List.mem_append_left L₂ hb, heq⟩, ?_⟩,
          hne₁ s hs⟩
        rintro (hmem' | hmem')
        · exact hmem hmem'
        · obtain ⟨d, hlt, hd⟩ := hgroup.rest s hmem'
          exact hnot hlt hs hd
      · obtain ⟨d, hlt, hd⟩ := hnext₂ s hclosure hne
        obtain ⟨a, ha, b, hb, heq⟩ := hclosure
        refine ⟨⟨⟨a, List.mem_append_right L₁ ha, b, List.mem_append_right L₁ hb, heq⟩, ?_⟩, hne⟩
        rintro (hmem' | hmem')
        · exact hnot hlt (hgroup.first s hmem') hd
        · exact hmem hmem'
    · rintro ⟨⟨⟨a, ha, b, hb, heq⟩, hmem⟩, hne⟩
      rw [not_or] at hmem
      rcases List.mem_append.mp ha with ha | ha <;> rcases List.mem_append.mp hb with hb | hb
      · exact .inl ⟨⟨a, ha, b, hb, heq⟩, hmem.1⟩
      · exact absurd (heq.trans (hgroup.lcp_eq ha hb)) hne
      · rw [lcp_comm] at heq
        exact absurd (heq.trans (hgroup.lcp_eq hb ha)) hne
      · exact .inr ⟨⟨⟨a, ha, b, hb, heq⟩, hmem.2⟩, hne⟩

theorem IsMissingBelow.of_first {L M : List (List α)} (h : IsMissingBelow p L M)
    (hbelow : ∀ s ∈ L, p <+: s) : IsMissing (p :: L) M := by
  refine ⟨h.sorted, fun s => ?_⟩
  rw [h.mem, List.mem_cons, not_or]
  constructor
  · rintro ⟨⟨⟨a, ha, b, hb, heq⟩, hmem⟩, hne⟩
    exact ⟨⟨a, List.mem_cons_of_mem p ha, b, List.mem_cons_of_mem p hb, heq⟩, hne, hmem⟩
  · rintro ⟨⟨a, ha, b, hb, heq⟩, hne, hmem⟩
    have hp : ∀ {t}, t ∈ p :: L → lcp p t = p := by
      intro t ht
      rcases List.mem_cons.mp ht with rfl | ht
      · exact lcp_self t
      · exact lcp_of_isPrefix (hbelow t ht)
    rcases List.mem_cons.mp ha with rfl | ha'
    · exact absurd (heq.trans (hp hb)) hne
    rcases List.mem_cons.mp hb with rfl | hb'
    · rw [lcp_comm] at heq
      exact absurd (heq.trans (hp ha)) hne
    exact ⟨⟨⟨a, ha', b, hb', heq⟩, hmem⟩, hne⟩

theorem IsMissingBelow.of_group {c : α} {L₁ L₂ M : List (List α)} (hgroup : Group p c L₁ L₂)
    (hne : L₂ ≠ []) (h : IsMissingBelow p (L₁ ++ L₂) M) : IsMissing (L₁ ++ L₂) (p :: M) := by
  have hbelow : ∀ s ∈ L₁ ++ L₂, ∃ d, p ++ [d] <+: s := by
    intro s hs
    rcases List.mem_append.mp hs with hs | hs
    · exact ⟨c, hgroup.first s hs⟩
    · obtain ⟨d, -, hd⟩ := hgroup.rest s hs
      exact ⟨d, hd⟩
  have hprefix_of : ∀ s ∈ L₁ ++ L₂, p <+: s := by
    intro s hs
    obtain ⟨d, hd⟩ := hbelow s hs
    exact (List.prefix_append p [d]).trans hd
  have hclosure : Closure (L₁ ++ L₂) p := by
    obtain ⟨a, ha⟩ := List.exists_mem_of_ne_nil L₁ hgroup.ne_nil
    obtain ⟨b, hb⟩ := List.exists_mem_of_ne_nil L₂ hne
    exact ⟨a, List.mem_append_left L₂ ha, b, List.mem_append_right L₁ hb,
      (hgroup.lcp_eq ha hb).symm⟩
  have hmem : p ∉ L₁ ++ L₂ := by
    intro hp
    obtain ⟨d, hd⟩ := hbelow p hp
    have hlen := hd.length_le
    rw [List.length_append, List.length_singleton] at hlen
    omega
  refine ⟨List.pairwise_cons.mpr ⟨?_, h.sorted⟩, fun s => ?_⟩
  · intro s hs
    obtain ⟨⟨hs, -⟩, hne⟩ := (h.mem s).mp hs
    exact lt_of_isPrefix (closure_isPrefix hprefix_of hs) hne.symm
  · rw [List.mem_cons, h.mem]
    constructor
    · rintro (rfl | hs)
      · exact ⟨hclosure, hmem⟩
      · exact hs.1
    · intro hs
      by_cases heq : s = p
      · exact .inl heq
      · exact .inr ⟨hs, heq⟩

/-! ## The sorted strings as a tree -/

theorem first_isPrefix {S D : List (List α)} {q s : List α} (hclosed : ∀ a ∈ S, ∀ b ∈ S, lcp a b ∈ S)
    (hsorted : (s :: D).Pairwise (· < ·)) (hmem : ∀ x, x ∈ s :: D ↔ x ∈ S ∧ q <+: x) :
    ∀ x, x ∈ s :: D ↔ x ∈ S ∧ s <+: x := by
  have hs := (hmem s).mp List.mem_cons_self
  intro x
  constructor
  · intro hx
    have hx' := (hmem x).mp hx
    have hlcp := (hmem (lcp s x)).mpr ⟨hclosed s hs.1 x hx'.1, prefix_lcp hs.2 hx'.2⟩
    refine ⟨hx'.1, ?_⟩
    rcases List.mem_cons.mp hlcp with heq | hlt
    · rw [← heq]
      exact lcp_prefix_right s x
    · have hgt := List.rel_of_pairwise_cons hsorted hlt
      have hle := lcp_prefix_left s x
      exact absurd (lt_of_isPrefix hle hgt.ne') (lt_asymm hgt)
  · rintro ⟨hx, hstart⟩
    exact (hmem x).mpr ⟨hx, hs.2.trans hstart⟩

theorem Group.mem_iff {c : α} {L₁ L₂ : List (List α)} (h : Group p c L₁ L₂) (x : List α) :
    x ∈ L₁ ↔ x ∈ L₁ ++ L₂ ∧ p ++ [c] <+: x := by
  rw [List.mem_append]
  constructor
  · intro hx
    exact ⟨.inl hx, h.first x hx⟩
  · rintro ⟨hx | hx, hnext⟩
    · exact hx
    · obtain ⟨c', hlt, hc'⟩ := h.rest x hx
      exact absurd (lt_of_next hlt hnext hc') (lt_irrefl x)

end Order

end PrefixTree
