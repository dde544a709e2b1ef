import Sserialize.Library.SetBits
import Sserialize.Storage.Bytes

namespace Sserialize

def allOnes : Nat := 2 ^ 31 - 1

def runGroup (value : Bool) : Nat := if value then allOnes else 0

inductive WahWord where
  | run (value : Bool) (count : Nat)
  | literal (group : Nat)
  deriving Repr, DecidableEq

namespace WahWord

def ofWord (w : Nat) : WahWord :=
  if w.testBit 0 then .run (w.testBit 1) (w >>> 2) else .literal (w >>> 1)

def word : WahWord → Nat
  | .run value count => 4 * count + 2 * value.toNat + 1
  | .literal group => 2 * group

variable (value : Bool)

theorem word_run (count : Nat) : (run value count).word = 4 * count + 2 * value.toNat + 1 := rfl

theorem word_literal (group : Nat) : (literal group).word = 2 * group := rfl

def groups : WahWord → List Nat
  | .run value count => List.replicate count (runGroup value)
  | .literal group => [group]

def WellFormed : WahWord → Prop
  | .run _ count => 0 < count ∧ count < 2 ^ 30
  | .literal group => 0 < group ∧ group < allOnes

instance (v : WahWord) : Decidable v.WellFormed := by
  cases v <;> exact inferInstanceAs (Decidable (_ ∧ _))

theorem ofWord_word (v : WahWord) : ofWord v.word = v := by
  cases v with
  | run value count =>
    have hshift : (4 * count + 2 * value.toNat + 1) >>> 2 = count := by
      rw [Nat.shiftRight_eq_div_pow]
      cases value <;> simp only [Bool.toNat_true, Bool.toNat_false] <;> omega
    have htag : (4 * count + 2 * value.toNat + 1).testBit 0 = true := by
      rw [Nat.testBit_zero, decide_eq_true_iff]
      omega
    have hvalue : (4 * count + 2 * value.toNat + 1).testBit 1 = value := by
      rw [Nat.testBit_succ, Nat.testBit_zero]
      cases value
      · rw [Bool.toNat_false, decide_eq_false_iff_not]
        omega
      · rw [Bool.toNat_true, decide_eq_true_iff]
        omega
    rw [word_run, ofWord, htag, if_pos rfl, hvalue, hshift]
  | literal group =>
    have hshift : (2 * group) >>> 1 = group := by
      rw [Nat.shiftRight_eq_div_pow]
      omega
    have htag : (2 * group).testBit 0 = false := by
      rw [Nat.testBit_zero, decide_eq_false_iff_not]
      omega
    rw [word_literal, ofWord, htag, hshift]
    rfl

theorem word_lt {v : WahWord} (h : v.WellFormed) : v.word < 2 ^ 32 := by
  cases v with
  | run value count =>
    obtain ⟨-, hlt⟩ := h
    have hvalue := Bool.toNat_le value
    rw [word_run]
    omega
  | literal group =>
    obtain ⟨-, hlt⟩ := h
    rw [word_literal]
    unfold allOnes at hlt
    omega

theorem run_and_one (count : Nat) : (run value count).word &&& 0x1 = 1 := by
  rw [Nat.and_one_is_mod, word_run]
  omega

theorem literal_and_one (group : Nat) : (literal group).word &&& 0x1 = 0 := by
  rw [Nat.and_one_is_mod, word_literal]
  omega

theorem run_shift_one (count : Nat) : (run value count).word >>> 1 = 2 * count + value.toNat := by
  rw [word_run, Nat.shiftRight_eq_div_pow]
  omega

theorem run_value (count : Nat) : (2 * count + value.toNat) &&& 0x1 = value.toNat := by
  rw [Nat.and_one_is_mod]
  have hvalue := Bool.toNat_le value
  omega

theorem run_count (count : Nat) : (2 * count + value.toNat) >>> 1 = count := by
  rw [Nat.shiftRight_eq_div_pow]
  have hvalue := Bool.toNat_le value
  omega

theorem literal_shift_one (group : Nat) : (literal group).word >>> 1 = group := by
  rw [word_literal, Nat.shiftRight_eq_div_pow]
  omega

end WahWord

open SetBits

def groupsOf (vs : List WahWord) : List Nat := vs.flatMap WahWord.groups

@[simp] theorem groupsOf_nil : groupsOf [] = [] := rfl

@[simp] theorem groupsOf_cons (v : WahWord) (vs : List WahWord) :
    groupsOf (v :: vs) = v.groups ++ groupsOf vs := by
  simp [groupsOf]

theorem groupsOf_append (us vs : List WahWord) :
    groupsOf (us ++ vs) = groupsOf us ++ groupsOf vs := by
  simp [groupsOf]

def groupBits (gs : List Nat) : List Bool := gs.flatMap (lowFirst 31)

@[simp] theorem groupBits_nil : groupBits [] = [] := rfl

@[simp] theorem groupBits_cons (g : Nat) (gs : List Nat) :
    groupBits (g :: gs) = lowFirst 31 g ++ groupBits gs := by
  simp [groupBits]

theorem groupBits_append (fs gs : List Nat) :
    groupBits (fs ++ gs) = groupBits fs ++ groupBits gs := by
  simp [groupBits]

@[simp] theorem length_groupBits (gs : List Nat) : (groupBits gs).length = 31 * gs.length := by
  induction gs with
  | nil => rfl
  | cons g gs ih =>
    rw [groupBits_cons, List.length_append, length_lowFirst, ih, List.length_cons]
    omega

theorem groupBits_replicate (value : Bool) (count : Nat) :
    groupBits (List.replicate count (runGroup value)) = List.replicate (31 * count) value := by
  have hgroup : lowFirst 31 (runGroup value) = List.replicate 31 value := by
    cases value
    · exact lowFirst_zero 31
    · exact lowFirst_ones 31
  induction count with
  | zero => rfl
  | succ count ih =>
    rw [List.replicate_succ, groupBits_cons, ih, hgroup, ← List.replicate_add]
    congr 1
    omega

theorem groupBits_run (value : Bool) (count : Nat) :
    groupBits (WahWord.run value count).groups = List.replicate (31 * count) value :=
  groupBits_replicate value count

theorem groupBits_literal (group : Nat) :
    groupBits (WahWord.literal group).groups = lowFirst 31 group := by
  simp [WahWord.groups]

def idsOf (gs : List Nat) : List Nat := positions 0 (groupBits gs)

theorem getD_groupBits (gs : List Nat) (i : Nat) :
    (groupBits gs).getD i false = (gs.getD (i / 31) 0).testBit (i % 31) := by
  induction gs generalizing i with
  | nil => simp
  | cons g gs ih =>
    rw [groupBits_cons]
    by_cases hi : i < 31
    · have hdiv : i / 31 = 0 := by omega
      have hmod : i % 31 = i := by omega
      have hfirst := getD_lowFirst 31 g i
      rw [hdiv, hmod, List.getD_cons_zero, List.getD_append _ _ _ _ (by simpa using hi), hfirst]
      simp [hi]
    · obtain ⟨j, rfl⟩ : ∃ j, i = 31 + j := ⟨i - 31, by omega⟩
      have hdiv : (31 + j) / 31 = j / 31 + 1 := by omega
      have hmod : (31 + j) % 31 = j % 31 := by omega
      rw [List.getD_append_right _ _ _ _ (by simp), length_lowFirst, Nat.add_sub_cancel_left, ih,
        hdiv, hmod, List.getD_cons_succ]

theorem mem_idsOf {gs : List Nat} {i : Nat} :
    i ∈ idsOf gs ↔ (gs.getD (i / 31) 0).testBit (i % 31) = true := by
  rw [idsOf, mem_positions, Nat.sub_zero, getD_groupBits]
  simp

theorem pairwise_idsOf (gs : List Nat) : (idsOf gs).Pairwise (· < ·) :=
  (from_positions 0 (groupBits gs)).1

end Sserialize
