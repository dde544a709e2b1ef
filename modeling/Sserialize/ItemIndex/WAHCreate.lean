import Sserialize.ItemIndex.ItemIndex
import Sserialize.ItemIndex.WAHReaders

namespace Sserialize

open BitString SetBits

theorem shiftLeft_two (n : Nat) : n <<< 2 = 4 * n := by
  rw [Nat.shiftLeft_eq]
  omega

theorem shiftLeft_one (n : Nat) : n <<< 1 = 2 * n := by
  rw [Nat.shiftLeft_eq]
  omega

theorem zerosWord_eq {count : Nat} (hcount : count < 2 ^ 30) :
    u32 (count <<< 2) ||| 0x1 = (WahWord.run false count).word := by
  have hshift : u32 (count <<< 2) = count <<< 2 := by
    rw [shiftLeft_two]
    exact u32_of_lt (by omega)
  rw [hshift, ← Nat.shiftLeft_add_eq_or_of_lt (by decide), shiftLeft_two]
  rfl

theorem onesWord_eq {count : Nat} (hcount : count < 2 ^ 30) :
    u32 (count <<< 2) ||| 0x3 = (WahWord.run true count).word := by
  have hshift : u32 (count <<< 2) = count <<< 2 := by
    rw [shiftLeft_two]
    exact u32_of_lt (by omega)
  rw [hshift, ← Nat.shiftLeft_add_eq_or_of_lt (by decide), shiftLeft_two]
  rfl

theorem literalWord_eq {group : Nat} (hgroup : group < 2 ^ 31) :
    u32 (group <<< 1) = (WahWord.literal group).word := by
  rw [shiftLeft_one]
  exact u32_of_lt (by omega)

theorem lowFirst_of_lt {p k n : Nat} (hn : n < 2 ^ p) :
    lowFirst (p + k) n = lowFirst p n ++ List.replicate k false := by
  have hzero : n >>> p = 0 := by
    rw [Nat.shiftRight_eq_div_pow]
    exact Nat.div_eq_of_lt hn
  rw [lowFirst_add, hzero, lowFirst_zero]

theorem lowFirst_setBit {p k n : Nat} (hn : n < 2 ^ p) :
    lowFirst (p + k + 1) (n ||| 1 <<< (p + k)) =
      lowFirst p n ++ (List.replicate k false ++ [true]) := by
  have hlt : n < 2 ^ (p + k) := hn.trans_le (Nat.pow_le_pow_right (by decide) (Nat.le_add_right p k))
  have hlow : lowFirst (p + k) (n ||| 1 <<< (p + k)) = lowFirst (p + k) n := by
    refine lowFirst_congr fun i hi => ?_
    have hbelow : ¬ p + k ≤ i := by omega
    rw [Nat.testBit_or, Nat.testBit_shiftLeft]
    simp [hbelow]
  have hhigh : (n ||| 1 <<< (p + k)) >>> (p + k) = 1 := by
    rw [Nat.shiftRight_or_distrib, Nat.shiftLeft_shiftRight, Nat.shiftRight_eq_div_pow,
      Nat.div_eq_of_lt hlt]
    rfl
  rw [lowFirst_add, hlow, hhigh, lowFirst_of_lt hn, List.append_assoc]
  rfl

namespace WahCreator

/-- The words put, the counted run of ones and the current word are `bs`. -/
structure Coded (c : WahCreator) (vs : List WahWord) (bs : List Bool) : Prop where
  dest : c.dest = vs.map WahWord.word
  wellFormed : ∀ v ∈ vs, WahWord.WellFormed v
  bits : groupBits (groupsOf vs) ++ List.replicate (31 * c.curRleEncWord) true ++
    lowFirst c.curEncWordPos c.curEncWord = bs
  pos_le : c.curEncWordPos ≤ 31
  lt : c.curEncWord < 2 ^ c.curEncWordPos
  ne_zero : c.curEncWordPos ≠ 0 → c.curEncWord ≠ 0
  length : bs.length < 2 ^ 33

variable {vs : List WahWord}

theorem wellFormed_append {v : WahWord} (hvs : ∀ v ∈ vs, WahWord.WellFormed v) (hv : v.WellFormed) :
    ∀ u ∈ vs ++ [v], WahWord.WellFormed u := by
  intro u hu
  rcases List.mem_append.mp hu with hu | hu
  · exact hvs u hu
  · rw [List.mem_singleton.mp hu]
    exact hv

theorem groupBits_append_word (vs : List WahWord) (v : WahWord) :
    groupBits (groupsOf (vs ++ [v])) = groupBits (groupsOf vs) ++ groupBits v.groups := by
  rw [groupsOf_append, groupBits_append, groupsOf_cons, groupsOf_nil, List.append_nil]

variable {c : WahCreator} {bs : List Bool}

theorem Coded.flushRle (h : Coded c vs bs) :
    ∃ us, Coded c.flushRle us bs ∧ c.flushRle.curRleEncWord = 0 ∧
      c.flushRle.curEncWord = c.curEncWord ∧ c.flushRle.curEncWordPos = c.curEncWordPos := by
  unfold WahCreator.flushRle
  by_cases hzero : c.curRleEncWord ≠ 0
  · have hlen := congrArg List.length h.bits
    simp only [List.length_append, List.length_replicate, length_lowFirst, length_groupBits] at hlen
    have hbound := h.length
    have hcount : c.curRleEncWord < 2 ^ 30 := by omega
    rw [if_pos hzero]
    refine ⟨vs ++ [.run true c.curRleEncWord], ⟨?_, ?_, ?_, h.pos_le, h.lt, h.ne_zero, h.length⟩,
      rfl, rfl, rfl⟩
    · simp only [h.dest, onesWord_eq hcount, List.map_append, List.map_cons, List.map_nil]
    · exact wellFormed_append h.wellFormed ⟨by omega, hcount⟩
    · simp only [groupBits_append_word, groupBits_run, Nat.mul_zero, List.replicate_zero,
        List.append_nil]
      exact h.bits
  · rw [if_neg hzero]
    exact ⟨vs, h, not_not.mp hzero, rfl, rfl⟩

theorem Coded.setBit (h : Coded c vs bs) {k : Nat} (hk : c.curEncWordPos + k ≤ 30)
    (hlen : bs.length + k + 1 < 2 ^ 33) :
    Coded (c.setBit (c.curEncWordPos + k)) vs (bs ++ (List.replicate k false ++ [true])) := by
  unfold WahCreator.setBit
  have hlt : c.curEncWord < 2 ^ (c.curEncWordPos + k + 1) :=
    h.lt.trans_le (Nat.pow_le_pow_right (by decide) (by omega))
  have hpow : (1 : Nat) <<< (c.curEncWordPos + k) < 2 ^ (c.curEncWordPos + k + 1) := by
    rw [Nat.shiftLeft_eq, Nat.one_mul]
    exact Nat.pow_lt_pow_right (by decide) (Nat.lt_succ_self _)
  refine ⟨h.dest, h.wellFormed, ?_, by simp only; omega, Nat.or_lt_two_pow hlt hpow, ?_, ?_⟩
  · simp only [lowFirst_setBit h.lt]
    rw [← h.bits]
    simp only [List.append_assoc]
  · intro _ hzero
    simp only at hzero
    have hset : (c.curEncWord ||| 1 <<< (c.curEncWordPos + k)).testBit (c.curEncWordPos + k) = true := by
      rw [Nat.testBit_or, Nat.testBit_shiftLeft]
      simp
    rw [hzero, Nat.zero_testBit] at hset
    cases hset
  · simp only [List.length_append, List.length_replicate, List.length_singleton]
    omega

theorem Coded.putWord (h : Coded c vs bs) (hrle : c.curRleEncWord = 0)
    (hpos : c.curEncWordPos ≠ 0) (hones : c.curEncWord ≠ allOnes) (hlen : bs.length + 31 < 2 ^ 33) :
    Coded c.putWord (vs ++ [WahWord.literal c.curEncWord])
      (bs ++ List.replicate (31 - c.curEncWordPos) false) := by
  have hpos_le := h.pos_le
  have hlt : c.curEncWord < 2 ^ 31 := h.lt.trans_le (Nat.pow_le_pow_right (by decide) h.pos_le)
  have hne := h.ne_zero hpos
  have hbits := h.bits
  have hsplit : 31 = c.curEncWordPos + (31 - c.curEncWordPos) := by omega
  have hword : lowFirst 31 c.curEncWord =
      lowFirst c.curEncWordPos c.curEncWord ++ List.replicate (31 - c.curEncWordPos) false := by
    conv_lhs => rw [hsplit]
    exact lowFirst_of_lt h.lt
  rw [hrle, Nat.mul_zero, List.replicate_zero, List.append_nil] at hbits
  unfold WahCreator.putWord
  refine ⟨?_, wellFormed_append h.wellFormed ⟨Nat.pos_of_ne_zero hne, ?_⟩, ?_, Nat.zero_le _,
    Nat.one_pos, fun hz => absurd rfl hz, ?_⟩
  · simp only [h.dest, literalWord_eq hlt, List.map_append, List.map_cons, List.map_nil]
  · unfold allOnes at hones ⊢
    omega
  · simp only [hrle, Nat.mul_zero, List.replicate_zero, List.append_nil, lowFirst_none,
      groupBits_append_word, groupBits_literal, hword]
    rw [← hbits, List.append_assoc]
  · simp only [List.length_append, List.length_replicate]
    omega

theorem Coded.startWord (h : Coded c vs bs) (hpos_le : c.curEncWordPos ≤ 30) {zeros : Nat}
    (hzeros : 31 - c.curEncWordPos ≤ zeros) (hlen : bs.length + zeros + 32 < 2 ^ 33) :
    ∃ us, Coded (c.startWord (zeros + 1)) us (bs ++ (List.replicate zeros false ++ [true])) := by
  obtain ⟨us, hflush, hrle, hword, hpos⟩ := h.flushRle
  unfold WahCreator.startWord
  simp only [Nat.add_sub_cancel]
  generalize c.flushRle = f at *
  -- behind the current word: no bits are pending and `left` clear bits are missing
  obtain ⟨g, ws, left, hg, hcoded, hnone, hfresh, hsplit⟩ : ∃ g ws left,
      (if f.curEncWordPos ≠ 0 then (f.putWord, zeros - (31 - f.curEncWordPos)) else (f, zeros)) =
        (g, left) ∧ Coded g ws (bs ++ List.replicate (zeros - left) false) ∧
      g.curRleEncWord = 0 ∧ (g.curEncWordPos = 0 ∧ g.curEncWord = 0) ∧ left ≤ zeros := by
    by_cases hstarted : f.curEncWordPos ≠ 0
    · have hones : f.curEncWord ≠ allOnes := by
        have hlt : f.curEncWord < 2 ^ 30 :=
          hflush.lt.trans_le (Nat.pow_le_pow_right (by decide) (by omega))
        unfold allOnes
        omega
      have hback : zeros - (zeros - (31 - f.curEncWordPos)) = 31 - f.curEncWordPos := by omega
      have hput := hflush.putWord hrle hstarted hones (by omega)
      rw [← hback] at hput
      rw [if_pos hstarted]
      exact ⟨_, _, _, rfl, hput, hrle, ⟨rfl, rfl⟩, by omega⟩
    · rw [if_neg hstarted]
      have hpos0 : f.curEncWordPos = 0 := not_not.mp hstarted
      have hword0 : f.curEncWord = 0 := by
        have hlt := hflush.lt
        rw [hpos0] at hlt
        omega
      refine ⟨f, us, zeros, rfl, ?_, hrle, ⟨hpos0, hword0⟩, Nat.le_refl _⟩
      rw [Nat.sub_self, List.replicate_zero, List.append_nil]
      exact hflush
  simp only [hg]
  by_cases hrun : left ≥ 31
  · have hcount : left / 31 < 2 ^ 30 := by omega
    have hrest : left - left / 31 * 31 = left % 31 := by omega
    have hmod : left % 31 % 31 = left % 31 := by omega
    simp only [if_pos hrun, hrest, hmod]
    have hzero : Coded { g with dest := g.dest ++ [u32 ((left / 31) <<< 2) ||| 0x1] }
        (ws ++ [.run false (left / 31)])
        (bs ++ List.replicate (zeros - left) false ++ List.replicate (31 * (left / 31)) false) := by
      refine ⟨?_, wellFormed_append hcoded.wellFormed ⟨by omega, hcount⟩, ?_, hcoded.pos_le,
        hcoded.lt, hcoded.ne_zero, ?_⟩
      · simp only [hcoded.dest, zerosWord_eq hcount, List.map_append, List.map_cons, List.map_nil]
      · have hbits := hcoded.bits
        rw [hnone, hfresh.1] at hbits
        simp only [Nat.mul_zero, List.replicate_zero, List.append_nil, lowFirst_none] at hbits
        simp only [hnone, hfresh.1, groupBits_append_word, groupBits_run, Nat.mul_zero,
          List.replicate_zero, List.append_nil, lowFirst_none, hbits]
      · simp only [List.length_append, List.length_replicate]
        omega
    have hpos_eq : ({ g with dest := g.dest ++ [u32 ((left / 31) <<< 2) ||| 0x1] } :
        WahCreator).curEncWordPos + left % 31 = left % 31 := by
      show g.curEncWordPos + left % 31 = left % 31
      rw [hfresh.1, Nat.zero_add]
    have hset := hzero.setBit (k := left % 31) (by omega)
      (by simp only [List.length_append, List.length_replicate]; omega)
    rw [hpos_eq] at hset
    refine ⟨ws ++ [WahWord.run false (left / 31)], ?_⟩
    have hall : bs ++ List.replicate (zeros - left) false ++ List.replicate (31 * (left / 31)) false ++
        (List.replicate (left % 31) false ++ [true]) =
          bs ++ (List.replicate zeros false ++ [true]) := by
      have hsum : zeros = zeros - left + (31 * (left / 31) + left % 31) := by omega
      conv_rhs => rw [hsum, List.replicate_add, List.replicate_add]
      simp only [List.append_assoc]
    rw [hall] at hset
    exact hset
  · have hmod : left % 31 = left := by omega
    simp only [if_neg hrun, hmod]
    have hset := hcoded.setBit (k := left) (by rw [hfresh.1]; omega)
      (by simp only [List.length_append, List.length_replicate]; omega)
    rw [hfresh.1, Nat.zero_add] at hset
    refine ⟨ws, ?_⟩
    have hall : bs ++ List.replicate (zeros - left) false ++
        (List.replicate left false ++ [true]) = bs ++ (List.replicate zeros false ++ [true]) := by
      have hsum : zeros = zeros - left + left := by omega
      conv_rhs => rw [hsum, List.replicate_add]
      simp only [List.append_assoc]
    rw [hall] at hset
    exact hset

theorem Coded.endWord (h : Coded c vs bs) (hlen : bs.length + 31 < 2 ^ 33) :
    ∃ us, Coded c.endWord us bs ∧ c.endWord.curEncWordPos ≤ 30 ∧ c.endWord.prev = c.prev := by
  unfold WahCreator.endWord
  by_cases hfull : c.curEncWordPos > 30
  · have hpos_le := h.pos_le
    have hpos : c.curEncWordPos = 31 := by omega
    rw [if_pos hfull]
    by_cases hones : c.curEncWord = 0x7FFFFFFF
    · rw [if_pos hones]
      refine ⟨vs, ⟨h.dest, h.wellFormed, ?_, Nat.zero_le _, Nat.one_pos, fun hz => absurd rfl hz,
        h.length⟩, Nat.zero_le _, rfl⟩
      have hbits := h.bits
      have hall : lowFirst 31 0x7FFFFFFF = List.replicate 31 true := lowFirst_ones 31
      rw [hpos, hones, hall, List.append_assoc, ← List.replicate_add] at hbits
      simp only [lowFirst_none, List.append_nil, Nat.mul_succ, hbits]
    · obtain ⟨us, hflush, hrle, hword, hpos'⟩ := h.flushRle
      have hprev : c.flushRle.prev = c.prev := by
        unfold WahCreator.flushRle
        split <;> rfl
      have hones' : c.flushRle.curEncWord ≠ allOnes := by
        rw [hword]
        exact hones
      have hput := hflush.putWord hrle (by omega) hones' hlen
      rw [hpos', hpos, Nat.sub_self, List.replicate_zero, List.append_nil] at hput
      rw [if_neg hones]
      exact ⟨_, hput, Nat.zero_le _, hprev⟩
  · rw [if_neg hfull]
    exact ⟨vs, h, by omega, rfl⟩

def idBits (ids : List Nat) : List Bool := unary (gaps 0 ids)

variable {ids : List Nat}

theorem Coded.congr {c d : WahCreator} (h : Coded c vs bs) (hdest : d.dest = c.dest)
    (hrle : d.curRleEncWord = c.curRleEncWord) (hword : d.curEncWord = c.curEncWord)
    (hpos : d.curEncWordPos = c.curEncWordPos) : Coded d vs bs := by
  refine ⟨hdest.trans h.dest, h.wellFormed, ?_, ?_, ?_, ?_, h.length⟩
  · rw [hrle, hpos, hword]
    exact h.bits
  · rw [hpos]
    exact h.pos_le
  · rw [hpos, hword]
    exact h.lt
  · rw [hpos, hword]
    exact h.ne_zero

/-- The variables behind the ids `ids`. -/
structure Behind (c : WahCreator) (ids : List Nat) : Prop where
  coded : ∃ vs, Coded c vs (idBits ids)
  pos_le : c.curEncWordPos ≤ 30
  prev : c.prev = ids.getLastD 0

def new (prev : Nat) : WahCreator :=
  { dest := [], prev := prev, curRleEncWord := 0, curEncWord := 0, curEncWordPos := 0 }

theorem finish_spec (h : Behind c ids) (hlen : (idBits ids).length + 31 < 2 ^ 33) :
    ∃ vs k, c.finish = vs.map WahWord.word ∧ (∀ v ∈ vs, WahWord.WellFormed v) ∧
      groupBits (groupsOf vs) = idBits ids ++ List.replicate k false ∧ k ≤ 31 := by
  obtain ⟨vs, hcoded⟩ := h.coded
  have hlt : c.curEncWord < 2 ^ 30 :=
    hcoded.lt.trans_le (Nat.pow_le_pow_right (by decide) h.pos_le)
  obtain ⟨us, hflush, hrle, hword, hpos⟩ := hcoded.flushRle
  unfold finish
  simp only [if_neg (show ¬ c.curEncWord = 0x7FFFFFFF by omega)]
  by_cases hstarted : c.flushRle.curEncWord ≠ 0
  · have hpos_ne : c.flushRle.curEncWordPos ≠ 0 := by
      intro hzero
      have hsmall := hflush.lt
      rw [hzero] at hsmall
      omega
    have hones : c.flushRle.curEncWord ≠ allOnes := by
      rw [hword]
      unfold allOnes
      omega
    have hput := hflush.putWord hrle hpos_ne hones hlen
    have hbits := hput.bits
    have hrle' : c.flushRle.putWord.curRleEncWord = 0 := hrle
    have hpos' : c.flushRle.putWord.curEncWordPos = 0 := rfl
    rw [hrle', hpos', Nat.mul_zero, List.replicate_zero, List.append_nil, lowFirst_none,
      List.append_nil] at hbits
    rw [if_pos hstarted]
    exact ⟨_, _, hput.dest, hput.wellFormed, hbits, by omega⟩
  · have hpos_zero : c.flushRle.curEncWordPos = 0 := by
      by_contra hne
      exact hstarted (hflush.ne_zero hne)
    have hbits := hflush.bits
    rw [hrle, hpos_zero, Nat.mul_zero, List.replicate_zero, List.append_nil, lowFirst_none,
      List.append_nil] at hbits
    rw [if_neg hstarted]
    exact ⟨us, 0, hflush.dest, hflush.wellFormed, by simpa using hbits, by decide⟩

end WahCreator

namespace ItemIndexPrivateWAH

open WahCreator

end ItemIndexPrivateWAH

end Sserialize
