import Mathlib.InformationTheory.Coding.KraftMcMillan

/-!
# Prefix codes

A list of words is prefix free when no word is a prefix of another one. Concatenated words of a
prefix free list can be taken apart again. Merging the two smallest weights as long as there are
two gives the smallest weighted length that any lengths with Kraft's inequality have.
-/

namespace PrefixCode

variable {α : Type}

def PrefixFree (words : List (List α)) : Prop :=
  words.Pairwise fun p q => ¬ p <+: q ∧ ¬ q <+: p

variable {words : List (List α)}

theorem PrefixFree.eq_of_isPrefix (h : PrefixFree words) {p q : List α} (hp : p ∈ words)
    (hq : q ∈ words) (hpq : p <+: q) : p = q := by
  have : Std.Symm fun p q : List α => ¬ p <+: q ∧ ¬ q <+: p := ⟨fun _ _ hab => ⟨hab.2, hab.1⟩⟩
  by_contra hne
  exact (List.Pairwise.forall h hp hq hne).1 hpq

theorem PrefixFree.nodup (h : PrefixFree words) : words.Nodup := by
  refine List.Pairwise.imp ?_ h
  rintro p q ⟨hpq, -⟩ rfl
  exact hpq (List.prefix_refl p)

theorem PrefixFree.eq_of_append (h : PrefixFree words) {p q s t : List α} (hp : p ∈ words)
    (hq : q ∈ words) (hst : p ++ s = q ++ t) : p = q := by
  rcases List.prefix_or_prefix_of_prefix (List.prefix_append p s)
    (hst ▸ List.prefix_append q t) with hpq | hqp
  · exact h.eq_of_isPrefix hp hq hpq
  · exact (h.eq_of_isPrefix hq hp hqp).symm

theorem PrefixFree.flatten_inj (h : PrefixFree words) {ps qs : List (List α)}
    (hps : ∀ p ∈ ps, p ∈ words) (hqs : ∀ q ∈ qs, q ∈ words) (hlen : ps.length = qs.length)
    (hflat : ps.flatten = qs.flatten) : ps = qs := by
  induction ps generalizing qs with
  | nil => exact (List.eq_nil_of_length_eq_zero hlen.symm).symm
  | cons p ps ih =>
    cases qs with
    | nil => cases hlen
    | cons q qs =>
      rw [List.forall_mem_cons] at hps hqs
      rw [List.flatten_cons, List.flatten_cons] at hflat
      obtain rfl := h.eq_of_append hps.1 hqs.1 hflat
      rw [ih hps.2 hqs.2 (Nat.succ.inj hlen) (List.append_cancel_left hflat)]

theorem PrefixFree.uniquelyDecodable (h : PrefixFree words) (hne : [] ∉ words) :
    InformationTheory.UniquelyDecodable {w | w ∈ words} := by
  intro ps qs hps hqs hflat
  induction ps generalizing qs with
  | nil =>
    cases qs with
    | nil => rfl
    | cons q qs =>
      rw [List.flatten_nil, List.flatten_cons] at hflat
      have hq : q = [] := (List.append_eq_nil_iff.mp hflat.symm).1
      exact absurd (hq ▸ hqs q List.mem_cons_self) hne
  | cons p ps ih =>
    cases qs with
    | nil =>
      rw [List.flatten_nil, List.flatten_cons] at hflat
      have hp : p = [] := (List.append_eq_nil_iff.mp hflat).1
      exact absurd (hp ▸ hps p List.mem_cons_self) hne
    | cons q qs =>
      rw [List.forall_mem_cons] at hps hqs
      rw [List.flatten_cons, List.flatten_cons] at hflat
      obtain rfl := h.eq_of_append hps.1 hqs.1 hflat
      rw [ih qs hps.2 hqs.2 (List.append_cancel_left hflat)]

theorem PrefixFree.kraft [Fintype α] [Nonempty α] (h : PrefixFree words) :
    (words.map fun w => (1 / Fintype.card α : ℝ) ^ w.length).sum ≤ 1 := by
  classical
  by_cases hempty : [] ∈ words
  · have hall : ∀ w ∈ words, w = [] :=
      fun w hw => (h.eq_of_isPrefix hempty hw List.nil_prefix).symm
    have hone : words = [[]] := by
      have hnodup := h.nodup
      rw [List.eq_replicate_of_mem hall] at hnodup hempty ⊢
      have hle := List.nodup_replicate.mp hnodup
      have hpos : words.length ≠ 0 := by
        intro hzero
        rw [hzero] at hempty
        exact absurd hempty List.not_mem_nil
      have hlen : words.length = 1 := by omega
      rw [hlen]
      rfl
    rw [hone]
    simp
  · have hdecodable := h.uniquelyDecodable hempty
    rw [← List.coe_toFinset] at hdecodable
    have hkraft := InformationTheory.kraft_mcmillan_inequality hdecodable
    rwa [List.sum_toFinset _ h.nodup] at hkraft

/-! ## Merging the two smallest weights -/

section Merging

variable {F : Type} [AddCommMonoid F] [LinearOrder F] [IsOrderedAddMonoid F]

/-- Merging two smallest weights until one is left costs the sum of the merged weights. -/
inductive Merges : Multiset F → F → Prop
  | single (w : F) : Merges {w} 0
  | merge {a b : F} {s : Multiset F} {c : F} (hab : a ≤ b) (hb : ∀ x ∈ s, b ≤ x)
      (h : Merges ((a + b) ::ₘ s) c) : Merges (a ::ₘ b ::ₘ s) (a + b + c)

def weightedLength (words : Multiset (F × ℕ)) : F := (words.map fun w => w.2 • w.1).sum

noncomputable def kraftSum (words : Multiset (F × ℕ)) : ℝ :=
  (words.map fun w => (1 / 2 : ℝ) ^ w.2).sum

omit [LinearOrder F] [IsOrderedAddMonoid F] in
@[simp] theorem weightedLength_cons (w : F × ℕ) (words : Multiset (F × ℕ)) :
    weightedLength (w ::ₘ words) = w.2 • w.1 + weightedLength words := by
  rw [weightedLength, Multiset.map_cons, Multiset.sum_cons, weightedLength]

omit [AddCommMonoid F] [LinearOrder F] [IsOrderedAddMonoid F] in
@[simp] theorem kraftSum_cons (w : F × ℕ) (words : Multiset (F × ℕ)) :
    kraftSum (w ::ₘ words) = (1 / 2 : ℝ) ^ w.2 + kraftSum words := by
  rw [kraftSum, Multiset.map_cons, Multiset.sum_cons, kraftSum]

theorem exchange_le {a x : F} {l m : ℕ} (hax : a ≤ x) (hlm : l ≤ m) :
    m • a + l • x ≤ l • a + m • x := by
  obtain ⟨d, rfl⟩ := Nat.exists_eq_add_of_le hlm
  calc (l + d) • a + l • x = l • a + (l • x + d • a) := by
        rw [add_nsmul, add_assoc, add_comm (d • a)]
    _ ≤ l • a + (l • x + d • x) := by
        gcongr
    _ = l • a + (l + d) • x := by rw [add_nsmul]

theorem exists_longest {a : F} {s : Multiset F} (ha : ∀ x ∈ s, a ≤ x)
    (words : Multiset (F × ℕ)) (hwords : words.map Prod.fst = a ::ₘ s) :
    ∃ m rest, m ∈ words.map Prod.snd ∧ rest.map Prod.fst = s ∧ (∀ w ∈ rest, w.2 ≤ m) ∧
      kraftSum ((a, m) ::ₘ rest) = kraftSum words ∧
      weightedLength ((a, m) ::ₘ rest) ≤ weightedLength words := by
  obtain ⟨⟨a', l⟩, hmem, rfl⟩ : ∃ w ∈ words, w.1 = a := by
    have ha' : a ∈ words.map Prod.fst := by
      rw [hwords]
      exact Multiset.mem_cons_self a s
    simpa using ha'
  obtain ⟨rest, rfl⟩ := Multiset.exists_cons_of_mem hmem
  dsimp only at ha hwords ⊢
  rw [Multiset.map_cons, Multiset.cons_inj_right] at hwords
  by_cases hlongest : ∀ w ∈ rest, w.2 ≤ l
  · refine ⟨l, rest, ?_, hwords, hlongest, rfl, le_refl _⟩
    rw [Multiset.map_cons]
    exact Multiset.mem_cons_self l _
  · -- the longest of the other words gives its length away
    have hne : rest.map Prod.snd ≠ 0 := by
      rintro hzero
      rw [Multiset.map_eq_zero] at hzero
      subst hzero
      exact hlongest fun w hw => absurd hw (Multiset.notMem_zero w)
    obtain ⟨m, hm, hmax⟩ : ∃ m ∈ rest.map Prod.snd, ∀ k ∈ rest.map Prod.snd, k ≤ m := by
      obtain ⟨m, hm, hmax⟩ := Multiset.exists_max_image id hne
      exact ⟨m, hm, hmax⟩
    obtain ⟨⟨x, m'⟩, hx, rfl⟩ := Multiset.mem_map.mp hm
    obtain ⟨rest', rfl⟩ := Multiset.exists_cons_of_mem hx
    have hlm : l ≤ m' := by
      by_contra hgt
      refine hlongest fun w hw => ?_
      have hle := hmax w.2 (Multiset.mem_map_of_mem _ hw)
      dsimp only at hle
      omega
    refine ⟨m', (x, l) ::ₘ rest', ?_, ?_, ?_, ?_, ?_⟩
    · rw [Multiset.map_cons]
      exact Multiset.mem_cons_of_mem hm
    · rw [Multiset.map_cons] at hwords ⊢
      exact hwords
    · intro w hw
      rw [Multiset.mem_cons] at hw
      rcases hw with rfl | hw
      · exact hlm
      · exact hmax w.2 (Multiset.mem_map_of_mem _ (Multiset.mem_cons_of_mem hw))
    · simp only [kraftSum_cons]
      ring
    · have hax : a' ≤ x := by
        refine ha x ?_
        rw [← hwords, Multiset.map_cons]
        exact Multiset.mem_cons_self x _
      simp only [weightedLength_cons, ← add_assoc]
      gcongr ?_ + _
      exact exchange_le hax hlm

omit [AddCommMonoid F] [LinearOrder F] [IsOrderedAddMonoid F] in
theorem kraftSum_merge {a b c : F} {l m : ℕ} {rest : Multiset (F × ℕ)} (hlm : l ≤ m)
    (hrest : ∀ w ∈ rest, w.2 ≤ l)
    (hkraft : kraftSum ((a, m) ::ₘ (b, l) ::ₘ rest) ≤ 1) :
    1 ≤ l ∧ kraftSum ((c, l - 1) ::ₘ rest) ≤ 1 := by
  have hsum : ∃ k : ℕ, kraftSum rest = k * (1 / 2 : ℝ) ^ l := by
    clear hkraft
    induction rest using Multiset.induction with
    | empty => exact ⟨0, by simp [kraftSum]⟩
    | cons w rest ih =>
      obtain ⟨k, hk⟩ := ih fun w hw => hrest w (Multiset.mem_cons_of_mem hw)
      obtain ⟨d, hd⟩ := Nat.exists_eq_add_of_le (hrest w (Multiset.mem_cons_self w rest))
      refine ⟨2 ^ d + k, ?_⟩
      have hcancel : (2 : ℝ) ^ d * (1 / 2) ^ d = 1 := by
        rw [← mul_pow]
        norm_num
      rw [kraftSum_cons, hk, Nat.cast_add, Nat.cast_pow, Nat.cast_ofNat, add_mul]
      congr 1
      rw [hd, pow_add, mul_left_comm, hcancel, mul_one]
  obtain ⟨k, hk⟩ := hsum
  simp only [kraftSum_cons, hk] at hkraft ⊢
  have hpos : (0 : ℝ) < (1 / 2) ^ m := by positivity
  have hunit : (2 : ℝ) ^ l * (1 / 2) ^ l = 1 := by
    rw [← mul_pow]
    norm_num
  have hlt : ((k + 1 : ℕ) : ℝ) < ((2 ^ l : ℕ) : ℝ) := by
    have hstrict : (((k + 1 : ℕ) : ℝ)) * (1 / 2) ^ l < 2 ^ l * (1 / 2) ^ l := by
      push_cast
      linarith
    have hposl : (0 : ℝ) < (1 / 2) ^ l := by positivity
    push_cast at hstrict ⊢
    exact lt_of_mul_lt_mul_right hstrict hposl.le
  have hnat : k + 1 < 2 ^ l := by exact_mod_cast hlt
  have hl : 1 ≤ l := by
    rcases Nat.eq_zero_or_pos l with rfl | hl
    · simp at hnat
    · exact hl
  refine ⟨hl, ?_⟩
  obtain ⟨l, rfl⟩ := Nat.exists_eq_add_of_le' hl
  have hle : ((k + 2 : ℕ) : ℝ) ≤ ((2 ^ (l + 1) : ℕ) : ℝ) := by exact_mod_cast hnat
  have hscaled : ((k + 2 : ℕ) : ℝ) * (1 / 2) ^ (l + 1) ≤ 2 ^ (l + 1) * (1 / 2) ^ (l + 1) := by
    push_cast at hle ⊢
    gcongr
  rw [Nat.add_sub_cancel]
  rw [hunit] at hscaled
  push_cast at hscaled
  rw [pow_succ] at hscaled ⊢
  linarith

theorem Merges.le_weightedLength {s : Multiset F} {c : F} (h : Merges s c)
    (words : Multiset (F × ℕ)) (hwords : words.map Prod.fst = s) (hpos : ∀ x ∈ s, 0 ≤ x)
    (hkraft : kraftSum words ≤ 1) : c ≤ weightedLength words := by
  induction h generalizing words with
  | single w =>
    refine Multiset.sum_nonneg ?_
    intro x hx
    obtain ⟨w', hw', rfl⟩ := Multiset.mem_map.mp hx
    refine nsmul_nonneg (hpos w'.1 ?_) _
    rw [← hwords]
    exact Multiset.mem_map_of_mem _ hw'
  | @merge a b s c hab hb _ ih =>
    have ha : ∀ x ∈ b ::ₘ s, a ≤ x := by
      intro x hx
      rw [Multiset.mem_cons] at hx
      rcases hx with rfl | hx
      · exact hab
      · exact hab.trans (hb x hx)
    obtain ⟨m, rest, -, hrest, hmax, hkraft₁, hle₁⟩ := exists_longest ha words hwords
    obtain ⟨l, rest', hl, hrest', hmax', hkraft₂, hle₂⟩ := exists_longest hb rest hrest
    have hlm : l ≤ m := by
      obtain ⟨w, hw, rfl⟩ := Multiset.mem_map.mp hl
      exact hmax w hw
    have hkraft' : kraftSum ((a, m) ::ₘ (b, l) ::ₘ rest') ≤ 1 := by
      rw [kraftSum_cons, hkraft₂, ← kraftSum_cons, hkraft₁]
      exact hkraft
    obtain ⟨hl1, hmerged⟩ := kraftSum_merge (c := a + b) hlm hmax' hkraft'
    have ha0 : 0 ≤ a := hpos a (Multiset.mem_cons_self a _)
    have hb0 : 0 ≤ b := hpos b (Multiset.mem_cons_of_mem (Multiset.mem_cons_self b s))
    have hpos' : ∀ x ∈ (a + b) ::ₘ s, 0 ≤ x := by
      intro x hx
      rw [Multiset.mem_cons] at hx
      rcases hx with rfl | hx
      · exact add_nonneg ha0 hb0
      · exact hpos x (Multiset.mem_cons_of_mem (Multiset.mem_cons_of_mem hx))
    have hc := ih ((a + b, l - 1) ::ₘ rest') (by rw [Multiset.map_cons, hrest']) hpos' hmerged
    rw [weightedLength_cons] at hc hle₁ hle₂
    dsimp only at hc hle₁ hle₂
    calc a + b + c ≤ a + b + ((l - 1) • (a + b) + weightedLength rest') := by gcongr
      _ = l • a + (l • b + weightedLength rest') := by
          rw [← add_assoc, ← succ_nsmul', Nat.sub_add_cancel hl1, nsmul_add, add_assoc]
      _ ≤ m • a + (l • b + weightedLength rest') := by
          gcongr
      _ ≤ m • a + weightedLength rest := by gcongr
      _ ≤ weightedLength words := hle₁

end Merging

end PrefixCode
