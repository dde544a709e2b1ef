import Sserialize.ItemIndex.WAHFromBitSet
import Sserialize.ItemIndex.WAHSetOps

namespace Sserialize

open SetBits Overlay

namespace SetOp

def bool : SetOp → Bool → Bool → Bool
  | intersect, a, b => a && b
  | unite, a, b => a || b
  | difference, a, b => a && !b
  | symmetricDifference, a, b => a ^^ b

def group : SetOp → Nat → Nat → Nat
  | intersect, g, h => g &&& h
  | unite, g, h => g ||| h
  | difference, g, h => g ^^^ (g &&& h)
  | symmetricDifference, g, h => g ^^^ h

def groups (op : SetOp) (gs hs : List Nat) : List Nat :=
  overlay op.group op.func.pushFirstRemainder op.func.pushSecondRemainder gs hs

theorem testBit_group (op : SetOp) (g h i : Nat) :
    (op.group g h).testBit i = op.bool (g.testBit i) (h.testBit i) := by
  cases op with
  | intersect => exact Nat.testBit_and g h i
  | unite => exact Nat.testBit_or g h i
  | difference =>
    rw [group, Nat.testBit_xor, Nat.testBit_and, bool]
    cases g.testBit i <;> cases h.testBit i <;> rfl
  | symmetricDifference => exact Nat.testBit_xor g h i

theorem holds_iff_bool (op : SetOp) (a b : Bool) :
    op.Holds (a = true) (b = true) ↔ op.bool a b = true := by
  cases op <;> cases a <;> cases b <;> simp [Holds, bool]

theorem group_lt (op : SetOp) {g h : Nat} (hg : g < 2 ^ 31) (hh : h < 2 ^ 31) :
    op.group g h < 2 ^ 31 := by
  have hand : g &&& h < 2 ^ 31 := Nat.and_lt_two_pow g hh
  cases op with
  | intersect => exact hand
  | unite => exact Nat.or_lt_two_pow hg hh
  | difference => exact Nat.xor_lt_two_pow hg hand
  | symmetricDifference => exact Nat.xor_lt_two_pow hg hh

theorem getD_groups (op : SetOp) (gs hs : List Nat) (i : Nat) :
    (op.groups gs hs).getD i 0 = op.group (gs.getD i 0) (hs.getD i 0) := by
  refine getD_overlay (fun g => ?_) (fun h => ?_) gs hs i
  · cases op <;> simp [group, func]
  · cases op <;> simp [group, func]

theorem idsOf_groups (op : SetOp) (gs hs : List Nat) :
    idsOf (op.groups gs hs) = op.apply (idsOf gs) (idsOf hs) := by
  have hgs := pairwise_idsOf gs
  have hhs := pairwise_idsOf hs
  refine (List.Perm.eq_of_pairwise (fun a b _ _ hab hba => absurd hab (Nat.lt_asymm hba))
    (pairwise_idsOf _) (op.pairwise_apply hgs hhs) ?_)
  refine (List.perm_ext_iff_of_nodup ((pairwise_idsOf _).imp Nat.ne_of_lt)
    ((op.pairwise_apply hgs hhs).imp Nat.ne_of_lt)).mpr fun i => ?_
  rw [op.mem_apply hgs hhs, mem_idsOf, mem_idsOf, mem_idsOf, getD_groups, testBit_group,
    holds_iff_bool]

theorem group_runGroup (op : SetOp) (a b : Bool) :
    op.group (runGroup a) (runGroup b) = runGroup (op.bool a b) := by
  cases op <;> cases a <;> cases b <;> rfl

end SetOp

namespace WahWord

def single (g : Nat) : WahWord :=
  if g = 0 then .run false 1 else if g = allOnes then .run true 1 else .literal g

theorem single_zero : single 0 = .run false 1 := rfl

theorem single_allOnes : single allOnes = .run true 1 := rfl

variable {g : Nat}

theorem single_literal (hg : (literal g).WellFormed) : single g = .literal g := by
  rw [single, if_neg hg.1.ne', if_neg hg.2.ne]

theorem single_wellFormed (hg : g < 2 ^ 31) : (single g).WellFormed := by
  unfold single
  by_cases hzero : g = 0
  · rw [if_pos hzero]
    exact ⟨by decide, by decide⟩
  · by_cases hones : g = allOnes
    · rw [if_neg hzero, if_pos hones]
      exact ⟨by decide, by decide⟩
    · rw [if_neg hzero, if_neg hones]
      have hle : g ≤ allOnes := Nat.le_sub_one_of_lt hg
      exact ⟨Nat.pos_of_ne_zero hzero, by omega⟩

theorem single_groups (g : Nat) : (single g).groups = [g] := by
  unfold single
  by_cases hzero : g = 0
  · rw [if_pos hzero, hzero]
    rfl
  · by_cases hones : g = allOnes
    · rw [if_neg hzero, if_pos hones, hones]
      rfl
    · rw [if_neg hzero, if_neg hones]
      rfl

theorem literal_lt (hg : (literal g).WellFormed) : g < 2 ^ 31 := by
  have hlt : g < 2 ^ 31 - 1 := hg.2
  omega

theorem and_three (w : Nat) : w &&& 0x3 = w % 4 := Nat.and_two_pow_sub_one_eq_mod w 2

variable (value : Bool)

theorem run_and_three (count : Nat) : (run value count).word &&& 0x3 = 2 * value.toNat + 1 := by
  have hvalue := Bool.toNat_le value
  rw [and_three, word]
  omega

theorem literal_and_three (g : Nat) : (literal g).word &&& 0x3 = 2 * (g % 2) := by
  rw [and_three, word]
  omega

theorem testBit_not32 (n i : Nat) : (not32 n).testBit i = (decide (i < 32) ^^ n.testBit i) := by
  have hones : (0xFFFFFFFF : Nat).testBit i = decide (i < 32) :=
    Nat.testBit_two_pow_sub_one 32 i
  rw [not32, Nat.testBit_xor, hones]

theorem and_not32_three {w : Nat} (hw : w < 2 ^ 32) : w &&& not32 0x3 = 4 * (w / 4) := by
  refine Nat.eq_of_testBit_eq fun i => ?_
  have hmul : 4 * (w / 4) = (w / 2 ^ 2) * 2 ^ 2 := Nat.mul_comm 4 (w / 4)
  rw [Nat.testBit_and, testBit_not32, hmul, Nat.testBit_mul_two_pow, Nat.testBit_div_two_pow]
  have hthree : (0x3 : Nat).testBit i = decide (i < 2) := Nat.testBit_two_pow_sub_one 2 i
  rw [hthree]
  by_cases hlow : i < 2
  · have hnot : ¬ 2 ≤ i := by omega
    have hi : i < 32 := by omega
    simp [hlow, hnot, hi]
  · have hle : 2 ≤ i := by omega
    have hback : i - 2 + 2 = i := by omega
    by_cases hi : i < 32
    · simp [hlow, hle, hi, hback]
    · have hhigh : w.testBit i = false := Nat.testBit_lt_two_pow (hw.trans_le
        (Nat.pow_le_pow_right (by decide) (by omega)))
      simp [hhigh, hback]

theorem run_and_not32_three {count : Nat} (hcount : count < 2 ^ 30) :
    (run value count).word &&& not32 0x3 = 4 * count := by
  have hvalue := Bool.toNat_le value
  have hlt : (run value count).word < 2 ^ 32 := by
    rw [word]
    omega
  rw [and_not32_three hlt, word]
  omega

theorem sub32_run {count k : Nat} (hcount : count < 2 ^ 30) (hk : k ≤ count) :
    sub32 (run value count).word (4 * k) = (run value (count - k)).word := by
  have hvalue := Bool.toNat_le value
  have hlt : (run value count).word < 2 ^ 32 := by
    rw [word]
    omega
  rw [sub32_of_le (by rw [word]; omega) hlt, word, word]
  omega

theorem and_two (w : Nat) : w &&& 0x2 = 2 * (w.testBit 1).toNat := by
  have hpow := Nat.and_two_pow w 1
  rw [Nat.pow_one] at hpow
  rw [hpow, Nat.mul_comm]

theorem run_testBit_one (count : Nat) : (run value count).word.testBit 1 = value := by
  have hof := ofWord_word (run value count)
  unfold ofWord at hof
  split at hof
  · exact (WahWord.run.injEq _ _ _ _).mp hof |>.1
  · cases hof

theorem testBit_two_mul (g i : Nat) : (2 * g).testBit i = (decide (1 ≤ i) && g.testBit (i - 1)) := by
  rw [Nat.mul_comm, ← Nat.pow_one 2, Nat.testBit_mul_two_pow]

theorem testBit_allOnes (i : Nat) : allOnes.testBit i = decide (i < 31) :=
  Nat.testBit_two_pow_sub_one 31 i

theorem testBit_two_mul_of_le {g i : Nat} (hg : g < 2 ^ 31) (hi : 32 ≤ i) :
    (2 * g).testBit i = false := by
  have hlt : 2 * g < 2 ^ 32 := by omega
  exact Nat.testBit_lt_two_pow (hlt.trans_le (Nat.pow_le_pow_right (by decide) hi))

theorem not32_and_not32_one (hg : g < 2 ^ 31) : not32 (2 * g) &&& not32 0x1 = 2 * (allOnes ^^^ g) := by
  refine Nat.eq_of_testBit_eq fun i => ?_
  have hone : (0x1 : Nat).testBit i = decide (i < 1) := Nat.testBit_two_pow_sub_one 1 i
  rw [Nat.testBit_and, testBit_not32, testBit_not32, testBit_two_mul, testBit_two_mul,
    Nat.testBit_xor, testBit_allOnes, hone]
  by_cases hzero : i = 0
  · simp [hzero]
  · obtain ⟨j, rfl⟩ : ∃ j, i = j + 1 := ⟨i - 1, by omega⟩
    by_cases hj : j < 31
    · simp [hj, Nat.succ_lt_succ hj]
    · have hhigh : g.testBit j = false := Nat.testBit_lt_two_pow (hg.trans_le
        (Nat.pow_le_pow_right (by decide) (by omega)))
      have hj' : ¬ j + 1 < 32 := by omega
      simp [hj, hj', hhigh]

theorem not32_or_one (hg : g < 2 ^ 31) : not32 (2 * g ||| 0x1) = 2 * (allOnes ^^^ g) := by
  rw [← not32_and_not32_one hg]
  refine Nat.eq_of_testBit_eq fun i => ?_
  have hone : (0x1 : Nat).testBit i = decide (i < 1) := Nat.testBit_two_pow_sub_one 1 i
  rw [Nat.testBit_and, testBit_not32, testBit_not32, testBit_not32, Nat.testBit_or, hone]
  by_cases hi : i < 32
  · simp [hi]
  · have hnot : ¬ i < 1 := by omega
    simp [hi, hnot, testBit_two_mul_of_le hg (Nat.le_of_not_lt hi)]

theorem two_mul_and (g h : Nat) : 2 * g &&& 2 * h = 2 * (g &&& h) := by
  rw [← shiftLeft_one, ← shiftLeft_one, ← shiftLeft_one, Nat.shiftLeft_and_distrib]

theorem two_mul_or (g h : Nat) : 2 * g ||| 2 * h = 2 * (g ||| h) := by
  rw [← shiftLeft_one, ← shiftLeft_one, ← shiftLeft_one, Nat.shiftLeft_or_distrib]

theorem two_mul_xor (g h : Nat) : 2 * g ^^^ 2 * h = 2 * (g ^^^ h) := by
  rw [← shiftLeft_one, ← shiftLeft_one, ← shiftLeft_one, Nat.shiftLeft_xor_distrib]

theorem two_mul_and_not32 (hg : g < 2 ^ 31) (h : Nat) :
    2 * g &&& not32 (2 * h) = 2 * (g ^^^ (g &&& h)) := by
  rw [← two_mul_xor, ← two_mul_and]
  refine Nat.eq_of_testBit_eq fun i => ?_
  rw [Nat.testBit_xor, Nat.testBit_and, Nat.testBit_and, testBit_not32]
  by_cases hi : i < 32
  · rw [decide_eq_true hi]
    cases (2 * g).testBit i <;> cases (2 * h).testBit i <;> rfl
  · rw [testBit_two_mul_of_le hg (Nat.le_of_not_lt hi)]
    rfl

theorem not32_eq_one (n : Nat) : not32 n = 0x1 ↔ n = 0xFFFFFFFE := by
  constructor
  · intro h
    have hback : 0xFFFFFFFF ^^^ not32 n = n := Nat.xor_xor_cancel_left 0xFFFFFFFF n
    rw [← hback, h]
    rfl
  · rintro rfl
    rfl

theorem xor_and_le (g h : Nat) : g ^^^ (g &&& h) ≤ g := by
  have hsub : (g ^^^ (g &&& h)) &&& g = g ^^^ (g &&& h) := by
    refine Nat.eq_of_testBit_eq fun i => ?_
    rw [Nat.testBit_and, Nat.testBit_xor, Nat.testBit_and]
    cases g.testBit i <;> cases h.testBit i <;> rfl
  rw [← hsub]
  exact Nat.and_le_right

theorem complement_wellFormed (hg : (literal g).WellFormed) :
    (literal (allOnes ^^^ g)).WellFormed := by
  have hlt : allOnes ^^^ g < 2 ^ 31 := Nat.xor_lt_two_pow (by decide) (literal_lt hg)
  have hzero : allOnes ^^^ g ≠ 0 := fun h => hg.2.ne (Nat.xor_eq_zero_iff.mp h).symm
  have hones : allOnes ^^^ g ≠ allOnes := by
    intro h
    have hback : allOnes ^^^ (allOnes ^^^ g) = g := Nat.xor_xor_cancel_left allOnes g
    rw [h, Nat.xor_self] at hback
    exact hg.1.ne hback
  have hle : allOnes ^^^ g ≤ allOnes := Nat.le_sub_one_of_lt hlt
  exact ⟨Nat.pos_of_ne_zero hzero, Nat.lt_of_le_of_ne hle hones⟩

theorem allOnes_and (hg : g < 2 ^ 31) : allOnes &&& g = g := by
  rw [Nat.and_comm]
  exact Nat.and_two_pow_sub_one_of_lt_two_pow hg

theorem allOnes_or (hg : g < 2 ^ 31) : allOnes ||| g = allOnes := by
  refine Nat.eq_of_testBit_eq fun i => ?_
  rw [Nat.testBit_or]
  have hsub : g.testBit i = (allOnes.testBit i && g.testBit i) := by
    rw [← Nat.testBit_and, allOnes_and hg]
  rw [hsub]
  cases allOnes.testBit i <;> simp

end WahWord

namespace ItemIndexPrivateWAH

open WahWord

def step : SetOp → Nat → Nat → Nat × Nat × Nat
  | .intersect => intersectStep
  | .unite => uniteStep
  | .difference => differenceStep
  | .symmetricDifference => symmetricDifferenceStep

theorem types_run_run (a b : Bool) (n m : Nat) :
    types (run a n).word (run b m).word = (2 * a.toNat + 1) <<< 2 ||| (2 * b.toNat + 1) := by
  rw [types, run_and_three, run_and_three]

theorem types_run_literal (a : Bool) (n g : Nat) :
    types (run a n).word (literal g).word = (2 * a.toNat + 1) <<< 2 ||| 2 * (g % 2) := by
  rw [types, run_and_three, literal_and_three]

theorem types_literal_run (g : Nat) (b : Bool) (m : Nat) :
    types (literal g).word (run b m).word = (2 * (g % 2)) <<< 2 ||| (2 * b.toNat + 1) := by
  rw [types, run_and_three, literal_and_three]

theorem types_literal_literal (g h : Nat) :
    types (literal g).word (literal h).word = (2 * (g % 2)) <<< 2 ||| 2 * (h % 2) := by
  rw [types, literal_and_three, literal_and_three]

variable (op : SetOp)

theorem step_run_run (a b : Bool) (n m : Nat) :
    step op (run a n).word (run b m).word =
      appendRuns (2 * (op.bool a b).toNat + 1) (run a n).word (run b m).word := by
  have htypes := types_run_run a b n m
  have hn := run_and_three a n
  have hm := run_and_three b m
  have hxor : ((run a n).word ^^^ (run b m).word) &&& 0x2 = 2 * (a ^^ b).toNat := by
    rw [and_two, Nat.testBit_xor, run_testBit_one, run_testBit_one]
  cases op with
  | intersect =>
    rw [step, intersectStep, htypes]
    cases a <;> cases b <;> rfl
  | unite =>
    rw [step, uniteStep, htypes, hn, hm]
    cases a <;> cases b <;> rfl
  | difference =>
    rw [step, differenceStep, htypes, hn]
    cases a <;> cases b <;> rfl
  | symmetricDifference =>
    rw [step, symmetricDifferenceStep, htypes, hxor]
    cases a <;> cases b <;> rfl

theorem step_run_literal (a : Bool) (n : Nat) {g : Nat} (hg : (literal g).WellFormed) :
    step op (run a n).word (literal g).word =
      ((single (op.group (runGroup a) g)).word, sub32 (run a n).word 4, 0) := by
  have hlt := literal_lt hg
  have htypes := types_run_literal a n g
  have hsame := single_literal hg
  have hflip := single_literal (complement_wellFormed hg)
  have hmod := Nat.mod_two_eq_zero_or_one g
  have hclear : (run false 1).word = 0x5 := rfl
  have hset : (run true 1).word = 0x7 := rfl
  have hfalse : runGroup false = 0 := rfl
  have htrue : runGroup true = allOnes := rfl
  cases op with
  | intersect =>
    rw [step, intersectStep, htypes]
    cases a
    · rw [hfalse, SetOp.group, Nat.zero_and, single_zero, hclear]
      rcases hmod with h | h <;> rw [h] <;> rfl
    · rw [htrue, SetOp.group, allOnes_and hlt, hsame]
      rcases hmod with h | h <;> rw [h] <;> rfl
  | unite =>
    rw [step, uniteStep, htypes]
    cases a
    · rw [hfalse, SetOp.group, Nat.zero_or, hsame]
      rcases hmod with h | h <;> rw [h] <;> rfl
    · rw [htrue, SetOp.group, allOnes_or hlt, single_allOnes, hset]
      rcases hmod with h | h <;> rw [h] <;> rfl
  | difference =>
    have hnot : not32 (literal g).word &&& not32 0x1 = (literal (allOnes ^^^ g)).word :=
      not32_and_not32_one hlt
    rw [step, differenceStep, htypes, hnot]
    cases a
    · rw [hfalse, SetOp.group, Nat.zero_and, Nat.zero_xor, single_zero, hclear]
      rcases hmod with h | h <;> rw [h] <;> rfl
    · rw [htrue, SetOp.group, allOnes_and hlt, hflip]
      rcases hmod with h | h <;> rw [h] <;> rfl
  | symmetricDifference =>
    have hnot : not32 ((literal g).word ||| 0x1) = (literal (allOnes ^^^ g)).word :=
      not32_or_one hlt
    rw [step, symmetricDifferenceStep, htypes, hnot]
    cases a
    · rw [hfalse, SetOp.group, Nat.zero_xor, hsame]
      rcases hmod with h | h <;> rw [h] <;> rfl
    · rw [htrue, SetOp.group, hflip]
      rcases hmod with h | h <;> rw [h] <;> rfl

theorem step_literal_run {g : Nat} (hg : (literal g).WellFormed) (b : Bool) (m : Nat) :
    step op (literal g).word (run b m).word =
      ((single (op.group g (runGroup b))).word, 0, sub32 (run b m).word 4) := by
  have hlt := literal_lt hg
  have htypes := types_literal_run g b m
  have hsame := single_literal hg
  have hflip := single_literal (complement_wellFormed hg)
  have hmod := Nat.mod_two_eq_zero_or_one g
  have hclear : (run false 1).word = 0x5 := rfl
  have hset : (run true 1).word = 0x7 := rfl
  have hfalse : runGroup false = 0 := rfl
  have htrue : runGroup true = allOnes := rfl
  have hand : g &&& allOnes = g := (Nat.and_comm _ _).trans (allOnes_and hlt)
  cases op with
  | intersect =>
    rw [step, intersectStep, htypes]
    cases b
    · rw [hfalse, SetOp.group, Nat.and_zero, single_zero, hclear]
      rcases hmod with h | h <;> rw [h] <;> rfl
    · rw [htrue, SetOp.group, hand, hsame]
      rcases hmod with h | h <;> rw [h] <;> rfl
  | unite =>
    rw [step, uniteStep, htypes]
    cases b
    · rw [hfalse, SetOp.group, Nat.or_zero, hsame]
      rcases hmod with h | h <;> rw [h] <;> rfl
    · rw [htrue, SetOp.group, Nat.or_comm g allOnes, allOnes_or hlt, single_allOnes, hset]
      rcases hmod with h | h <;> rw [h] <;> rfl
  | difference =>
    rw [step, differenceStep, htypes]
    cases b
    · rw [hfalse, SetOp.group, Nat.and_zero, Nat.xor_zero, hsame]
      rcases hmod with h | h <;> rw [h] <;> rfl
    · rw [htrue, SetOp.group, hand, Nat.xor_self, single_zero, hclear]
      rcases hmod with h | h <;> rw [h] <;> rfl
  | symmetricDifference =>
    have hnot : not32 ((literal g).word ||| 0x1) = (literal (allOnes ^^^ g)).word :=
      not32_or_one hlt
    rw [step, symmetricDifferenceStep, htypes, hnot]
    cases b
    · rw [hfalse, SetOp.group, Nat.xor_zero, hsame]
      rcases hmod with h | h <;> rw [h] <;> rfl
    · rw [htrue, SetOp.group, Nat.xor_comm g allOnes, hflip]
      rcases hmod with h | h <;> rw [h] <;> rfl

theorem single_word_eq (g : Nat) :
    (single g).word = if 2 * g = 0 then 0x5 else if 2 * g = 0xFFFFFFFE then 0x7 else 2 * g := by
  have hzero : 2 * g = 0 ↔ g = 0 := by omega
  have hones : 2 * g = 0xFFFFFFFE ↔ g = allOnes := by
    unfold allOnes
    omega
  simp only [hzero, hones]
  unfold single
  split
  · rfl
  · split <;> rfl

theorem step_literal_literal {g : Nat} (hg : (literal g).WellFormed) (h : Nat) :
    step op (literal g).word (literal h).word = ((single (op.group g h)).word, 0, 0) := by
  have htypes := types_literal_literal g h
  have hgm := Nat.mod_two_eq_zero_or_one g
  have hhm := Nat.mod_two_eq_zero_or_one h
  have hword := single_word_eq (op.group g h)
  have hle := hg.2
  have hzero : ∀ n : Nat, (if n ≠ 0 then n else 0x5) = if n = 0 then 0x5 else n := fun n =>
    ite_not _ _ _
  cases op with
  | intersect =>
    have hpush : (literal g).word &&& (literal h).word = 2 * (g &&& h) := two_mul_and g h
    have hsmall : g &&& h ≤ g := Nat.and_le_left
    have hnot : 2 * (g &&& h) ≠ 0xFFFFFFFE := by
      unfold allOnes at hle
      omega
    rw [hword, SetOp.group, if_neg hnot, step, intersectStep, htypes, hpush, ← hzero]
    rcases hgm with h' | h' <;> rcases hhm with h'' | h'' <;> rw [h', h''] <;> rfl
  | unite =>
    have hpush : (literal g).word ||| (literal h).word = 2 * (g ||| h) := two_mul_or g h
    have hge : g ≤ g ||| h := Nat.left_le_or
    have hpos := hg.1
    have hne : 2 * (g ||| h) ≠ 0 := by omega
    rw [hword, SetOp.group, if_neg hne, step, uniteStep, htypes, hpush]
    simp only [not32_eq_one]
    rcases hgm with h' | h' <;> rcases hhm with h'' | h'' <;> rw [h', h''] <;> rfl
  | difference =>
    have hpush : (literal g).word &&& not32 (literal h).word = 2 * (g ^^^ (g &&& h)) :=
      two_mul_and_not32 (literal_lt hg) h
    have hsmall := xor_and_le g h
    have hnot : 2 * (g ^^^ (g &&& h)) ≠ 0xFFFFFFFE := by
      unfold allOnes at hle
      omega
    rw [hword, SetOp.group, if_neg hnot, step, differenceStep, htypes, hpush, ← hzero]
    rcases hgm with h' | h' <;> rcases hhm with h'' | h'' <;> rw [h', h''] <;> rfl
  | symmetricDifference =>
    have hpush : (literal g).word ^^^ (literal h).word = 2 * (g ^^^ h) := two_mul_xor g h
    have hswap : ∀ n : Nat, (if n = 0 then 0x5 else if n = 0xFFFFFFFE then 0x7 else n) =
        if n = 0xFFFFFFFE then 0x7 else if n = 0 then 0x5 else n := by
      intro n
      split <;> split <;> omega
    rw [hword, hswap, SetOp.group, step, symmetricDifferenceStep, htypes, hpush]
    rcases hgm with h' | h' <;> rcases hhm with h'' | h'' <;> rw [h', h''] <;> rfl

theorem appendRuns_eq (value a b : Bool) {n m : Nat} (hn : n < 2 ^ 30) (hm : m < 2 ^ 30) :
    appendRuns (2 * value.toNat + 1) (run a n).word (run b m).word =
      if m ≤ n then ((run value m).word, (run a (n - m)).word, 0)
      else ((run value n).word, 0, (run b (m - n)).word) := by
  have hvalue := Bool.toNat_le value
  have hor : ∀ k, 4 * k ||| (2 * value.toNat + 1) = (run value k).word := by
    intro k
    have hlt : 2 * value.toNat + 1 < 2 ^ 2 := by omega
    rw [← shiftLeft_two, ← Nat.shiftLeft_add_eq_or_of_lt hlt, shiftLeft_two]
    rfl
  rw [appendRuns, run_and_not32_three a hn, run_and_not32_three b hm, hor, hor]
  by_cases hle : m ≤ n
  · have hmul : 4 * m ≤ 4 * n := by omega
    rw [if_pos hmul, if_pos hle, sub32_run a hn hle]
  · have hmul : ¬ 4 * m ≤ 4 * n := by omega
    rw [if_neg hmul, if_neg hle, sub32_run b hm (by omega)]

/-- What is left of a word that was used in part. -/
inductive Left : Nat → List Nat → Prop
  | nothing : Left 0 []
  | run (value : Bool) {count : Nat} (h : count < 2 ^ 30) :
      Left (run value count).word (List.replicate count (runGroup value))

def pending (val : Nat) : Nat := if val >>> 2 = 0 then 0 else 1

/-- A round takes equally long fronts `xs` and `ys` of both words and appends `w` for them. -/
structure Stepped (op : SetOp) (v u : WahWord) (next : Nat × Nat × Nat) : Prop where
  step : ∃ w xs ys gs hs, next.1 = WahWord.word w ∧ w.WellFormed ∧ xs.length = ys.length ∧
    v.groups = xs ++ gs ∧ u.groups = ys ++ hs ∧ w.groups = List.zipWith op.group xs ys ∧
    Left next.2.1 gs ∧ Left next.2.2 hs
  pending_le : pending next.2.1 + pending next.2.2 ≤ 1

theorem left_sub (value : Bool) {count : Nat} (h : (run value count).WellFormed) :
    (run value count).groups = [runGroup value] ++ List.replicate (count - 1) (runGroup value) ∧
      Left (sub32 (run value count).word 4) (List.replicate (count - 1) (runGroup value)) := by
  obtain ⟨hpos, hlt⟩ := h
  have hsub := sub32_run value hlt hpos
  rw [Nat.mul_one] at hsub
  rw [hsub]
  refine ⟨?_, Left.run value (by omega)⟩
  obtain ⟨n, rfl⟩ : ∃ n, count = n + 1 := ⟨count - 1, by omega⟩
  rfl

theorem pending_le_one (val : Nat) : pending val ≤ 1 := by
  unfold pending
  split <;> omega

theorem step_spec {v u : WahWord} (hv : v.WellFormed) (hu : u.WellFormed) :
    Stepped op v u (step op v.word u.word) := by
  have hnone : pending 0 = 0 := rfl
  cases v with
  | run a n =>
    cases u with
    | run b m =>
      have hgroup := op.group_runGroup a b
      rw [step_run_run, appendRuns_eq _ a b hv.2 hu.2]
      by_cases hle : m ≤ n
      · rw [if_pos hle]
        refine ⟨⟨run (op.bool a b) m, List.replicate m (runGroup a), List.replicate m (runGroup b),
          List.replicate (n - m) (runGroup a), [], rfl, hu, by simp, ?_, ?_, ?_, ?_, .nothing⟩, ?_⟩
        · rw [groups, List.replicate_append_replicate, Nat.add_sub_cancel' hle]
        · rw [groups, List.append_nil]
        · rw [groups, List.zipWith_replicate', hgroup]
        · exact Left.run a (by have hlt := hv.2; omega)
        · have hmy := pending_le_one (run a (n - m)).word
          simp only [hnone]
          omega
      · rw [if_neg hle]
        refine ⟨⟨run (op.bool a b) n, List.replicate n (runGroup a), List.replicate n (runGroup b),
          [], List.replicate (m - n) (runGroup b), rfl, hv, by simp, ?_, ?_, ?_, .nothing, ?_⟩, ?_⟩
        · rw [groups, List.append_nil]
        · rw [groups, List.replicate_append_replicate, Nat.add_sub_cancel' (Nat.le_of_not_le hle)]
        · rw [groups, List.zipWith_replicate', hgroup]
        · exact Left.run b (by have hlt := hu.2; omega)
        · have ho := pending_le_one (run b (m - n)).word
          simp only [hnone]
          omega
    | literal g =>
      obtain ⟨hgroups, hleft⟩ := left_sub a hv
      have hlt : runGroup a < 2 ^ 31 := by cases a <;> decide
      rw [step_run_literal op a n hu]
      refine ⟨⟨_, [runGroup a], [g], _, [], rfl, single_wellFormed (op.group_lt hlt (literal_lt hu)),
        rfl, hgroups, rfl, single_groups _, hleft, .nothing⟩, ?_⟩
      have hmy := pending_le_one (sub32 (run a n).word 4)
      simp only [hnone]
      omega
  | literal g =>
    cases u with
    | run b m =>
      obtain ⟨hgroups, hleft⟩ := left_sub b hu
      have hlt : runGroup b < 2 ^ 31 := by cases b <;> decide
      rw [step_literal_run op hv b m]
      refine ⟨⟨_, [g], [runGroup b], [], _, rfl, single_wellFormed (op.group_lt (literal_lt hv) hlt),
        rfl, rfl, hgroups, single_groups _, .nothing, hleft⟩, ?_⟩
      have ho := pending_le_one (sub32 (run b m).word 4)
      simp only [hnone]
      omega
    | literal h =>
      rw [step_literal_literal op hv h]
      exact ⟨⟨_, [g], [h], [], [], rfl,
        single_wellFormed (op.group_lt (literal_lt hv) (literal_lt hu)), rfl, rfl, rfl,
        single_groups _, .nothing, .nothing⟩, show pending 0 + pending 0 ≤ 1 by decide⟩

theorem pending_run (value : Bool) (count : Nat) :
    pending (run value count).word = if count = 0 then 0 else 1 := by
  rw [pending, BitSetEncoder.run_shift_two]

/-- A word with groups is loaded, or there is none left. -/
inductive Loaded (val : Nat) (gs : List Nat) (vs : List WahWord) : Prop
  | nothing (hload : load val (vs.map WahWord.word) = none) (hgs : gs = []) (hvs : vs = [])
  | word (v : WahWord) (us : List WahWord)
      (hload : load val (vs.map WahWord.word) = some (v.word, us.map WahWord.word))
      (hv : v.WellFormed) (hus : ∀ u ∈ us, WahWord.WellFormed u)
      (hgroups : v.groups ++ groupsOf us = gs ++ groupsOf vs)
      (hlen : us.length + 1 = pending val + vs.length)

variable {vs : List WahWord}

theorem load_next {val : Nat} (hval : val >>> 2 = 0) (hvs : ∀ v ∈ vs, WahWord.WellFormed v) :
    Loaded val [] vs := by
  have hpending : pending val = 0 := if_pos hval
  cases vs with
  | nil => exact .nothing (if_pos hval) rfl rfl
  | cons v us =>
    refine .word v us (if_pos hval) (hvs v (by simp))
      (fun u hu => hvs u (List.mem_cons_of_mem _ hu)) ?_ ?_
    · rw [groupsOf_cons, List.nil_append]
    · rw [hpending, Nat.zero_add, List.length_cons]

theorem load_spec {val : Nat} {gs : List Nat} (h : Left val gs)
    (hvs : ∀ v ∈ vs, WahWord.WellFormed v) : Loaded val gs vs := by
  cases h with
  | nothing => exact load_next rfl hvs
  | run value hlt =>
    rename_i count
    have hshift := BitSetEncoder.run_shift_two value count
    by_cases hzero : count = 0
    · rw [hzero] at hshift ⊢
      exact load_next hshift hvs
    · refine .word (.run value count) vs ?_ ⟨Nat.pos_of_ne_zero hzero, hlt⟩ hvs rfl ?_
      · unfold load
        rw [hshift, if_neg hzero]
      · rw [pending_run, if_neg hzero, Nat.add_comm]

theorem remainder_word {v : WahWord} (hv : v.WellFormed) (it : List Nat) :
    remainder v.word it = v.word :: it := by
  refine if_pos ?_
  cases v with
  | run value count =>
    rw [BitSetEncoder.run_shift_two]
    exact .inl hv.1.ne'
  | literal g =>
    rw [literal_and_one, literal_shift_one]
    exact .inr ⟨rfl, hv.1.ne'⟩

theorem remainder_left {val : Nat} {gs : List Nat} (h : Left val gs)
    (hvs : ∀ v ∈ vs, WahWord.WellFormed v) :
    ∃ us, remainder val (vs.map WahWord.word) = us.map WahWord.word ∧
      (∀ u ∈ us, WahWord.WellFormed u) ∧ groupsOf us = gs ++ groupsOf vs := by
  cases h with
  | nothing => exact ⟨vs, rfl, hvs, rfl⟩
  | run value hlt =>
    rename_i count
    by_cases hzero : count = 0
    · refine ⟨vs, ?_, hvs, by rw [hzero]; rfl⟩
      refine if_neg ?_
      rw [BitSetEncoder.run_shift_two, run_and_one]
      rintro (hcount | ⟨hone, -⟩)
      · exact hcount hzero
      · cases hone
    · have hv : (WahWord.run value count).WellFormed := ⟨Nat.pos_of_ne_zero hzero, hlt⟩
      refine ⟨.run value count :: vs, remainder_word hv _, ?_, groupsOf_cons _ _⟩
      intro u hu
      rcases List.mem_cons.mp hu with rfl | hu
      · exact hv
      · exact hvs u hu

theorem groups_append {xs ys : List Nat} (h : xs.length = ys.length) (gs hs : List Nat) :
    op.groups (xs ++ gs) (ys ++ hs) = List.zipWith op.group xs ys ++ op.groups gs hs :=
  Overlay.overlay_append h gs hs

theorem eq_nil_of_groupsOf (hvs : ∀ v ∈ vs, WahWord.WellFormed v) (h : groupsOf vs = []) :
    vs = [] := by
  cases vs with
  | nil => rfl
  | cons v vs =>
    rw [groupsOf_cons, List.append_eq_nil_iff] at h
    have hv := hvs v (by simp)
    cases v with
    | run value count =>
      have hcount := (List.replicate_eq_nil_iff (runGroup value)).mp h.1
      exact absurd hcount hv.1.ne'
    | literal g => cases h.1

/-- The appended words, and the words of the one index that is left. -/
structure Looped (op : SetOp) (gs hs : List Nat) (res : List Nat × SetOpRest)
    (ws fs ks : List WahWord) : Prop where
  words : res.1 = ws.map WahWord.word
  first : remainder res.2.myVal res.2.myIt = fs.map WahWord.word
  second : remainder res.2.oVal res.2.oIt = ks.map WahWord.word
  wellFormed : ∀ w ∈ ws ++ fs ++ ks, WahWord.WellFormed w
  groups : op.groups gs hs = groupsOf ws ++ op.groups (groupsOf fs) (groupsOf ks)
  used : fs = [] ∨ ks = []

theorem Looped.cons {op : SetOp} {gs hs xs ys : List Nat} {res : List Nat × SetOpRest}
    {ws fs ks : List WahWord} {w : WahWord} (h : Looped op gs hs res ws fs ks)
    (hw : w.WellFormed) (hlen : xs.length = ys.length)
    (hgroups : w.groups = List.zipWith op.group xs ys) :
    Looped op (xs ++ gs) (ys ++ hs) (w.word :: res.1, res.2) (w :: ws) fs ks where
  words := by rw [h.words, List.map_cons]
  first := h.first
  second := h.second
  wellFormed := by
    intro u hu
    rcases List.mem_cons.mp hu with rfl | hu
    · exact hw
    · exact h.wellFormed u hu
  groups := by
    rw [groups_append op hlen, h.groups, groupsOf_cons, hgroups, List.append_assoc]
  used := h.used

theorem setOpLoop_spec (rounds : Nat) {myVal oVal : Nat} {gs hs : List Nat} {vs us : List WahWord}
    (hmy : Left myVal gs) (ho : Left oVal hs) (hvs : ∀ v ∈ vs, WahWord.WellFormed v)
    (hus : ∀ u ∈ us, WahWord.WellFormed u)
    (hrounds : pending myVal + vs.length + (pending oVal + us.length) < rounds) :
    ∃ ws fs ks, Looped op (gs ++ groupsOf vs) (hs ++ groupsOf us)
      (setOpLoop (step op) rounds myVal oVal (vs.map WahWord.word) (us.map WahWord.word))
      ws fs ks := by
  induction rounds generalizing myVal oVal gs hs vs us with
  | zero => omega
  | succ rounds ih =>
    unfold setOpLoop
    rcases load_spec hmy hvs with ⟨hload, rfl, rfl⟩ | ⟨v, vs', hload, hv, hvs', hgroups, hlen⟩
    · obtain ⟨fs, hfirst, hfs, hgfs⟩ := remainder_left hmy hvs
      obtain ⟨ks, hsecond, hks, hgks⟩ := remainder_left ho hus
      obtain rfl := eq_nil_of_groupsOf hfs hgfs
      rw [hload]
      exact ⟨[], [], ks, rfl, hfirst, hsecond, hks, by rw [hgks]; rfl, .inl rfl⟩
    · rw [hload]
      rcases load_spec ho hus with ⟨hload', rfl, rfl⟩ | ⟨u, us', hload', hu, hus', hgroups', hlen'⟩
      · obtain ⟨ks, hsecond, hks, hgks⟩ := remainder_left ho hus
        obtain rfl := eq_nil_of_groupsOf hks hgks
        have hfs : ∀ w ∈ v :: vs', WahWord.WellFormed w := by
          intro w hw
          rcases List.mem_cons.mp hw with rfl | hw
          · exact hv
          · exact hvs' w hw
        simp only [hload']
        refine ⟨[], v :: vs', [], rfl, remainder_word hv _, hsecond, ?_, ?_, .inr rfl⟩
        · simpa using hfs
        · rw [groupsOf_cons, hgroups]
          rfl
      · simp only [hload']
        obtain ⟨⟨w, xs, ys, gs', hs', hw, hwf, hsame, hxs, hys, hzip, hleft, hleft'⟩, hpending⟩ :=
          step_spec op hv hu
        generalize step op v.word u.word = next at *
        obtain ⟨nextWord, myVal', oVal'⟩ := next
        simp only at hw hleft hleft' hpending
        obtain ⟨ws, fs, ks, hloop⟩ := ih hleft hleft' hvs' hus' (by omega)
        rw [← hgroups, ← hgroups', hxs, hys, List.append_assoc, List.append_assoc, hw]
        exact ⟨w :: ws, fs, ks, hloop.cons hwf hsame hzip⟩
theorem setOpWords_spec (idx other : ItemIndexPrivateWAH) {vs us : List WahWord}
    (hidx : idx.words = vs.map WahWord.word) (hother : other.words = us.map WahWord.word)
    (hvs : ∀ v ∈ vs, WahWord.WellFormed v) (hus : ∀ u ∈ us, WahWord.WellFormed u) :
    ∃ ws, setOpWords op idx other = ws.map WahWord.word ∧ (∀ w ∈ ws, WahWord.WellFormed w) ∧
      groupsOf ws = op.groups (groupsOf vs) (groupsOf us) := by
  have hrounds : pending 0 + vs.length + (pending 0 + us.length) <
      idx.words.length + other.words.length + 1 := by
    have hnone : pending 0 = 0 := rfl
    rw [hidx, hother, List.length_map, List.length_map, hnone]
    omega
  obtain ⟨ws, fs, ks, h⟩ := setOpLoop_spec op _ .nothing .nothing hvs hus hrounds
  rw [List.nil_append, List.nil_append, ← hidx, ← hother] at h
  have hstart : setOpLoop (step op) (idx.words.length + other.words.length + 1) 0 0 idx.words
      other.words = setOpStart (step op) idx other := rfl
  rw [hstart] at h
  have hall := h.wellFormed
  have hwords := h.words
  have hfirst := h.first
  have hsecond := h.second
  have hws : ∀ w ∈ ws, WahWord.WellFormed w := fun w hw => hall w (by simp [hw])
  have hwfs : ∀ w ∈ ws ++ fs, WahWord.WellFormed w := fun w hw =>
    hall w (List.mem_append_left _ hw)
  rw [h.groups]
  have hgroups : op.groups (groupsOf fs) (groupsOf ks) =
      (if op.func.pushFirstRemainder then groupsOf fs else []) ++
        if op.func.pushSecondRemainder then groupsOf ks else [] := by
    rcases h.used with rfl | rfl
    · rw [SetOp.groups, groupsOf_nil, overlay_nil_left]
      simp
    · rw [SetOp.groups, groupsOf_nil, overlay_nil_right]
      simp
  rw [hgroups]
  cases op with
  | intersect =>
    refine ⟨ws, hwords, hws, ?_⟩
    simp [SetOp.func]
  | unite | symmetricDifference =>
    refine ⟨ws ++ fs ++ ks, ?_, hall, ?_⟩
    · rw [List.map_append, List.map_append, ← hwords, ← hfirst, ← hsecond]
      rfl
    · simp [SetOp.func, groupsOf_append]
  | difference =>
    refine ⟨ws ++ fs, ?_, hwfs, ?_⟩
    · rw [List.map_append, ← hwords, ← hfirst]
      rfl
    · simp [SetOp.func, groupsOf_append]

end ItemIndexPrivateWAH

end Sserialize
