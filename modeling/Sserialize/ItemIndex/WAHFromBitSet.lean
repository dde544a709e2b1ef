import Sserialize.ItemIndex.WAHCreate

namespace Sserialize

open BitString SetBits

namespace ItemIndexPrivateWAH

theorem lowFirst_eq_map (k n : Nat) : lowFirst k n = (List.range k).map n.testBit := by
  refine (eq_lowFirst (by simp) fun i hi => ?_).symm
  simp [List.getD, hi]

theorem popCount_double (g : Nat) : popCount (2 * g) = (lowFirst 31 g).count true := by
  have hzero : (2 * g).testBit 0 = false := by
    rw [Nat.testBit_zero, decide_eq_false_iff_not]
    omega
  have hshift : (2 * g) >>> 1 = g := by
    rw [Nat.shiftRight_eq_div_pow]
    omega
  have hall : lowFirst 32 (2 * g) = false :: lowFirst 31 g := by
    rw [lowFirst, hzero, hshift]
  have hcount : popCount (2 * g) = (lowFirst 32 (2 * g)).count true := by
    rw [lowFirst_eq_map, List.count, List.countP_map]
    refine List.countP_congr fun i _ => ?_
    simp
  rw [hcount, hall]
  simp

theorem eq_of_lowFirst {k m n : Nat} (hm : m < 2 ^ k) (hn : n < 2 ^ k)
    (h : lowFirst k m = lowFirst k n) : m = n := by
  refine eq_of_testBit hm hn fun i hi => ?_
  have hmi := getD_lowFirst k m i
  rw [h, getD_lowFirst] at hmi
  simpa [hi] using hmi.symm

theorem popCount_eq_31 {g : Nat} (hg : g < 2 ^ 31) : popCount (2 * g) = 31 ↔ g = allOnes := by
  rw [popCount_double]
  constructor
  · intro hcount
    have hones : lowFirst 31 g = List.replicate 31 true := by
      have hlen : (lowFirst 31 g).count true = (lowFirst 31 g).length := by
        rw [hcount, length_lowFirst]
      have hall := List.count_eq_length.mp hlen
      rw [List.eq_replicate_iff]
      exact ⟨length_lowFirst 31 g, fun b hb => (hall b hb).symm⟩
    exact eq_of_lowFirst hg (by decide) (hones.trans (lowFirst_ones 31).symm)
  · rintro rfl
    have hones : lowFirst 31 allOnes = List.replicate 31 true := lowFirst_ones 31
    rw [hones]
    exact List.count_replicate_self

theorem popCount_eq_0 {g : Nat} (hg : g < 2 ^ 31) : popCount (2 * g) = 0 ↔ g = 0 := by
  rw [popCount_double]
  constructor
  · intro hcount
    have hzeros : lowFirst 31 g = List.replicate 31 false := by
      have hall := List.count_eq_zero.mp hcount
      rw [List.eq_replicate_iff]
      refine ⟨length_lowFirst 31 g, fun b hb => ?_⟩
      cases b with
      | false => rfl
      | true => exact absurd hb hall
    exact eq_of_lowFirst hg (by decide) (hzeros.trans (lowFirst_zero 31).symm)
  · rintro rfl
    rw [lowFirst_zero]
    rfl

def trailingZeros (gs : List Nat) : Nat := (gs.reverse.takeWhile (· == 0)).length

theorem trailingZeros_append (gs : List Nat) (g : Nat) :
    trailingZeros (gs ++ [g]) = if g = 0 then trailingZeros gs + 1 else 0 := by
  unfold trailingZeros
  rw [List.reverse_append, List.reverse_singleton, List.singleton_append, List.takeWhile_cons]
  by_cases hg : g = 0
  · simp [hg]
  · simp [hg]

theorem trailingZeros_le (gs : List Nat) : trailingZeros gs ≤ gs.length := by
  have hle := (List.takeWhile_prefix (· == 0) (l := gs.reverse)).length_le
  rw [List.length_reverse] at hle
  exact hle

namespace BitSetEncoder

/-- The words put, and a run of `count` groups that is counted modulo `2 ^ 30`. -/
structure Put (e : BitSetEncoder) (gs : List Nat) (vs : List WahWord) (value : Bool)
    (count : Nat) : Prop where
  tmpData : e.tmpData = vs.map WahWord.word
  wellFormed : ∀ v ∈ vs, WahWord.WellFormed v
  curEncWord : e.curEncWord = if count = 0 then 0 else (WahWord.run value (count % 2 ^ 30)).word
  groups : gs = groupsOf vs ++ List.replicate count (runGroup value)
  put_le : 31 * (groupsOf vs).length < 2 ^ 32 + 31

theorem run_word_ne_zero (value : Bool) (count : Nat) : (WahWord.run value count).word ≠ 0 := by
  rw [WahWord.word]
  omega

theorem run_and_two (value : Bool) (count : Nat) :
    ((WahWord.run value count).word &&& 0x2 = 0) ↔ value = false := by
  have htwo : ∀ n : Nat, n &&& 2 = if n.testBit 1 then 2 else 0 := by
    intro n
    have hpow := Nat.and_two_pow n 1
    rw [Nat.pow_one] at hpow
    rw [hpow]
    cases n.testBit 1 <;> rfl
  have hbit : (WahWord.run value count).word.testBit 1 = value := by
    have hof := WahWord.ofWord_word (.run value count)
    unfold WahWord.ofWord at hof
    split at hof
    · exact (WahWord.run.injEq _ _ _ _).mp hof |>.1
    · cases hof
  rw [htwo, hbit]
  cases value <;> simp

theorem run_shift_two (value : Bool) (count : Nat) :
    (WahWord.run value count).word >>> 2 = count := by
  rw [WahWord.word, Nat.shiftRight_eq_div_pow]
  cases value <;> simp only [Bool.toNat_true, Bool.toNat_false] <;> omega

theorem nextRun_eq (value : Bool) (count : Nat) :
    u32 ((count % 2 ^ 30 + 1) <<< 2) ||| (if value then 0x3 else 0x1) =
      (WahWord.run value ((count + 1) % 2 ^ 30)).word := by
  have hshift : u32 ((count % 2 ^ 30 + 1) <<< 2) = ((count + 1) % 2 ^ 30) <<< 2 := by
    rw [shiftLeft_two, shiftLeft_two]
    unfold u32
    omega
  have hlt : (if value then 0x3 else 0x1 : Nat) < 2 ^ 2 := by
    cases value <;> decide
  rw [hshift, ← Nat.shiftLeft_add_eq_or_of_lt hlt, shiftLeft_two]
  cases value <;> rfl

theorem idsOf_append_length (gs : List Nat) (g : Nat) :
    (idsOf (gs ++ [g])).length = (idsOf gs).length + popCount (2 * g) := by
  rw [idsOf, idsOf, length_positions, length_positions, groupBits_append, List.count_append,
    popCount_double]
  simp

variable {vs : List WahWord} {e : BitSetEncoder} {value : Bool} {gs : List Nat} {count : Nat}

theorem Put.length (h : Put e gs vs value count) : gs.length = (groupsOf vs).length + count := by
  rw [h.groups, List.length_append, List.length_replicate]

theorem Put.flush (h : Put e gs vs value count) (hpos : count ≠ 0)
    (hlen : 31 * gs.length < 2 ^ 32 + 31) (value' : Bool) : Put { e with tmpData := e.tmpData ++ [e.curEncWord], curEncWord := 0 } gs
      (vs ++ [WahWord.run value count]) value' 0 := by
  have hcount := h.length
  have hlt : count < 2 ^ 30 := by omega
  have hgroups : groupsOf (vs ++ [WahWord.run value count]) = gs := by
    rw [groupsOf_append, h.groups]
    simp [WahWord.groups]
  refine ⟨?_, WahCreator.wellFormed_append h.wellFormed ⟨Nat.pos_of_ne_zero hpos, hlt⟩, rfl, ?_, ?_⟩
  · rw [h.tmpData, h.curEncWord, if_neg hpos, Nat.mod_eq_of_lt hlt, List.map_append]
    rfl
  · rw [hgroups, List.replicate_zero, List.append_nil]
  · rw [hgroups]
    exact hlen

theorem Put.increment (h : Put e gs vs value count) : Put { e with curEncWord := u32 ((e.curEncWord >>> 2 + 1) <<< 2) ||| (if value then 0x3 else 0x1) }
      (gs ++ [runGroup value]) vs value (count + 1) := by
  have hold : e.curEncWord >>> 2 = count % 2 ^ 30 := by
    rw [h.curEncWord]
    split
    · rename_i hzero
      rw [hzero]
      rfl
    · exact run_shift_two value _
  refine ⟨h.tmpData, h.wellFormed, ?_, ?_, h.put_le⟩
  · rw [if_neg (Nat.succ_ne_zero count)]
    simp only [hold]
    exact nextRun_eq value count
  · rw [h.groups, List.replicate_succ', List.append_assoc]

theorem Put.literal (h : Put e gs vs value 0) {g : Nat} (hg : 0 < g ∧ g < allOnes)
    (hlen : 31 * gs.length < 2 ^ 32) : Put { e with tmpData := e.tmpData ++ [2 * g] } (gs ++ [g]) (vs ++ [WahWord.literal g]) value 0 := by
  have hgroups : groupsOf (vs ++ [WahWord.literal g]) = gs ++ [g] := by
    rw [groupsOf_append, h.groups]
    simp [WahWord.groups]
  refine ⟨?_, WahCreator.wellFormed_append h.wellFormed hg, h.curEncWord, ?_, ?_⟩
  · rw [h.tmpData, List.map_append]
    rfl
  · rw [hgroups, List.replicate_zero, List.append_nil]
  · rw [hgroups, List.length_append, List.length_singleton]
    omega

/-- The variables behind the groups `gs`. -/
structure Encoded (e : BitSetEncoder) (gs : List Nat) (vs : List WahWord) (value : Bool)
    (count : Nat) : Prop extends Put e gs vs value count where
  trailing : trailingZeros gs = if value then 0 else count
  ones_le : value = true → count ≠ 0 → 31 * gs.length < 2 ^ 32 + 31
  count_eq : e.count = u32 (idsOf gs).length

theorem Encoded.count_push (h : Encoded e gs vs value count) (g : Nat) :
    u32 (e.count + popCount (2 * g)) = u32 (idsOf (gs ++ [g])).length := by
  rw [h.count_eq, u32_add_u32, idsOf_append_length]

theorem Put.pending (h : Put e gs vs value count) :
    (e.curEncWord &&& 0x1 ≠ 0 ↔ count ≠ 0) ∧
      (count ≠ 0 → (e.curEncWord &&& 0x2 = 0 ↔ value = false)) := by
  rw [h.curEncWord]
  by_cases hzero : count = 0
  · rw [if_pos hzero]
    exact ⟨⟨fun hne => absurd rfl hne, fun hne => absurd hzero hne⟩, fun hne => absurd hzero hne⟩
  · rw [if_neg hzero, WahWord.run_and_one]
    exact ⟨⟨fun _ => hzero, fun _ => Nat.one_ne_zero⟩, fun _ => run_and_two value _⟩

theorem Encoded.push {e : BitSetEncoder} {gs : List Nat} {vs : List WahWord} {value : Bool}
    {count g : Nat} (h : Encoded e gs vs value count) (hg : g < 2 ^ 31)
    (hlen : g ≠ 0 → 31 * gs.length < 2 ^ 32) :
    ∃ vs' value' count', Encoded (e.push (2 * g)) (gs ++ [g]) vs' value' count' := by
  obtain ⟨htag, hvalue⟩ := h.toPut.pending
  have hcount_eq := h.count_push g
  have htrailing := trailingZeros_append gs g
  -- the word is counted, nothing else has changed
  have hput : Put { e with count := u32 (e.count + popCount (2 * g)) } gs vs value count :=
    ⟨h.tmpData, h.wellFormed, h.curEncWord, h.groups, h.put_le⟩
  unfold BitSetEncoder.push
  simp only
  by_cases hones : g = allOnes
  · have hg_ne : g ≠ 0 := by
      rw [hones]
      decide
    rw [if_neg hg_ne] at htrailing
    have hlen' := hlen hg_ne
    have hgs : 31 * (gs ++ [g]).length < 2 ^ 32 + 31 := by
      rw [List.length_append, List.length_singleton]
      omega
    rw [if_pos ((popCount_eq_31 hg).mpr hones)]
    by_cases hother : e.curEncWord &&& 0x1 ≠ 0 ∧ e.curEncWord &&& 0x2 = 0
    · have hflush := (hput.flush (htag.mp hother.1) (by omega) true).increment
      have hgroup : runGroup true = g := hones.symm
      rw [hgroup] at hflush
      rw [if_pos hother]
      exact ⟨_, true, _, { hflush with
        trailing := htrailing
        ones_le := fun _ _ => hgs
        count_eq := hcount_eq }⟩
    · have hsame : Put { e with count := u32 (e.count + popCount (2 * g)) } gs vs true count := by
        by_cases hzero : count = 0
        · subst hzero
          exact ⟨hput.tmpData, hput.wellFormed, hput.curEncWord, hput.groups, hput.put_le⟩
        · have htrue : value = true := by
            cases value with
            | true => rfl
            | false => exact absurd ⟨htag.mpr hzero, (hvalue hzero).mpr rfl⟩ hother
          rw [← htrue]
          exact hput
      have hinc := hsame.increment
      have hgroup : runGroup true = g := hones.symm
      rw [hgroup] at hinc
      rw [if_neg hother]
      exact ⟨_, true, _, { hinc with
        trailing := htrailing
        ones_le := fun _ _ => hgs
        count_eq := hcount_eq }⟩
  · rw [if_neg fun hpop => hones ((popCount_eq_31 hg).mp hpop)]
    by_cases hzeros : g = 0
    · rw [if_pos hzeros] at htrailing
      rw [if_pos ((popCount_eq_0 hg).mpr hzeros)]
      have hgroup : runGroup false = g := hzeros.symm
      by_cases hother : e.curEncWord &&& 0x1 ≠ 0 ∧ e.curEncWord &&& 0x2 ≠ 0
      · have hpos := htag.mp hother.1
        have htrue : value = true := by
          cases value with
          | true => rfl
          | false => exact absurd ((hvalue hpos).mpr rfl) hother.2
        have hflush := (hput.flush hpos (h.ones_le htrue hpos) false).increment
        have hnone := h.trailing
        rw [hgroup] at hflush
        rw [htrue, if_pos rfl] at hnone
        rw [hnone] at htrailing
        rw [if_pos hother]
        exact ⟨_, false, _, { hflush with
          trailing := htrailing
          ones_le := fun hv => by cases hv
          count_eq := hcount_eq }⟩
      · have hsame : value = false ∨ count = 0 := by
          by_contra hnot
          rw [not_or] at hnot
          exact hother ⟨htag.mpr hnot.2, fun htwo => hnot.1 ((hvalue hnot.2).mp htwo)⟩
        have hrun : Put { e with count := u32 (e.count + popCount (2 * g)) } gs vs false count := by
          rcases hsame with hfalse | hnone
          · rw [← hfalse]
            exact hput
          · subst hnone
            exact ⟨hput.tmpData, hput.wellFormed, hput.curEncWord, hput.groups, hput.put_le⟩
        have hold : trailingZeros gs = count := by
          rw [h.trailing]
          rcases hsame with hfalse | hnone
          · rw [hfalse]
            rfl
          · rw [hnone]
            split <;> rfl
        have hinc := hrun.increment
        rw [hgroup] at hinc
        rw [hold] at htrailing
        rw [if_neg hother]
        exact ⟨_, false, _, { hinc with
          trailing := htrailing
          ones_le := fun hv => by cases hv
          count_eq := hcount_eq }⟩
    · have hlen' := hlen hzeros
      have hliteral : 0 < g ∧ g < allOnes := by
        unfold allOnes at hones ⊢
        omega
      rw [if_neg hzeros] at htrailing
      rw [if_neg fun hpop => hzeros ((popCount_eq_0 hg).mp hpop)]
      by_cases hpending : e.curEncWord ≠ 0
      · have hpos : count ≠ 0 := by
          intro hnone
          rw [h.curEncWord, if_pos hnone] at hpending
          exact hpending rfl
        have hlit := (hput.flush hpos (by omega) true).literal hliteral hlen'
        rw [if_pos hpending]
        exact ⟨_, true, 0, { hlit with
          trailing := htrailing
          ones_le := fun _ hne => absurd rfl hne
          count_eq := hcount_eq }⟩
      · have hnone : count = 0 := by
          by_contra hne
          rw [h.curEncWord, if_neg hne] at hpending
          exact hpending (run_word_ne_zero value _)
        subst hnone
        have hsame : Put { e with count := u32 (e.count + popCount (2 * g)) } gs vs true 0 :=
          ⟨hput.tmpData, hput.wellFormed, hput.curEncWord, hput.groups, hput.put_le⟩
        have hlit := hsame.literal hliteral hlen'
        rw [if_neg hpending]
        exact ⟨_, true, 0, { hlit with
          trailing := htrailing
          ones_le := fun _ hne => absurd rfl hne
          count_eq := hcount_eq }⟩

theorem Encoded.foldl {done gs : List Nat} (h : Encoded e done vs value count)
    (hgs : ∀ g ∈ gs, g < 2 ^ 31) (hids : ∀ id ∈ idsOf (done ++ gs), id < 2 ^ 32) :
    ∃ vs' value' count', Encoded ((gs.map (2 * ·)).foldl BitSetEncoder.push e) (done ++ gs) vs' value'
      count' := by
  induction gs generalizing e done vs value count with
  | nil =>
    rw [List.append_nil]
    exact ⟨vs, value, count, h⟩
  | cons g gs ih =>
    have hsplit : done ++ g :: gs = (done ++ [g]) ++ gs := by simp
    have hlen : g ≠ 0 → 31 * done.length < 2 ^ 32 := by
      intro hne
      have hlog : Nat.log2 g < 31 := (Nat.log2_lt hne).mpr (hgs g (by simp))
      have hid := hids (31 * done.length + Nat.log2 g) (mem_idsOf.mpr (by
        have hdiv : (31 * done.length + Nat.log2 g) / 31 = done.length := by omega
        have hmod : (31 * done.length + Nat.log2 g) % 31 = Nat.log2 g := by omega
        rw [hdiv, hmod]
        simp [List.getD, Nat.testBit_log2 hne]))
      omega
    rw [hsplit] at hids ⊢
    obtain ⟨vs', value', count', hpush⟩ := h.push (hgs g (by simp)) hlen
    exact ih hpush (fun f hf => hgs f (List.mem_cons_of_mem _ hf)) hids

theorem length_le_groupsOf (hvs : ∀ v ∈ vs, WahWord.WellFormed v) :
    vs.length ≤ (groupsOf vs).length := by
  induction vs with
  | nil => exact Nat.zero_le _
  | cons v vs ih =>
    have hv := hvs v (by simp)
    have hrest := ih fun u hu => hvs u (List.mem_cons_of_mem _ hu)
    have hpos : 0 < v.groups.length := by
      cases v with
      | run value count =>
        rw [WahWord.groups, List.length_replicate]
        exact hv.1
      | literal group => exact Nat.one_pos
    rw [groupsOf_cons, List.length_append, List.length_cons]
    omega

theorem idsOf_append_zeros (gs : List Nat) (n : Nat) :
    idsOf (gs ++ List.replicate n (runGroup false)) = idsOf gs := by
  rw [idsOf, groupBits_append, groupBits_replicate, positions_append_replicate, idsOf]

/-- All words put at the end: the pending run is well formed unless its count is a multiple of
`2 ^ 30`. -/
theorem Encoded.finish {e : BitSetEncoder} {gs : List Nat} {vs : List WahWord} {value : Bool}
    {count : Nat} (h : Encoded e gs vs value count) :
    ∃ us, e.finish = us.map WahWord.word ∧ us.length < 2 ^ 28 ∧
      ((∀ u ∈ us, WahWord.WellFormed u) ↔ (trailingZeros gs = 0 ∨ trailingZeros gs % 2 ^ 30 ≠ 0)) ∧
      (∀ u ∈ us, u.word < 2 ^ 32) ∧ idsOf (groupsOf us) = idsOf gs := by
  have hvs_len := length_le_groupsOf h.wellFormed
  have hput := h.put_le
  have hcur := h.curEncWord
  have htrailing := h.trailing
  unfold BitSetEncoder.finish
  by_cases hzero : count = 0
  · subst hzero
    rw [if_pos rfl] at hcur
    rw [hcur, if_neg (not_not.mpr rfl), h.tmpData]
    have hnone : trailingZeros gs = 0 := by
      rw [htrailing]
      split <;> rfl
    refine ⟨vs, rfl, by omega, ⟨fun _ => .inl hnone, fun _ => h.wellFormed⟩,
      fun u hu => WahWord.word_lt (h.wellFormed u hu), ?_⟩
    rw [h.groups, List.replicate_zero, List.append_nil]
  · rw [if_neg hzero] at hcur
    have hlast : (WahWord.run value (count % 2 ^ 30)).word < 2 ^ 32 := by
      have hvalue := Bool.toNat_le value
      rw [WahWord.word]
      omega
    rw [hcur, if_pos (run_word_ne_zero value _), h.tmpData]
    refine ⟨vs ++ [WahWord.run value (count % 2 ^ 30)], by rw [List.map_append]; rfl, ?_, ?_, ?_, ?_⟩
    · rw [List.length_append, List.length_singleton]
      omega
    · have hall : (∀ u ∈ vs ++ [WahWord.run value (count % 2 ^ 30)], WahWord.WellFormed u) ↔
          0 < count % 2 ^ 30 := by
        constructor
        · intro hwf
          exact (hwf (.run value (count % 2 ^ 30)) (by simp)).1
        · intro hpos
          exact WahCreator.wellFormed_append h.wellFormed ⟨hpos, Nat.mod_lt _ (by decide)⟩
      rw [hall, htrailing]
      cases value with
      | true =>
        have hlen := h.ones_le rfl hzero
        have hcount := h.length
        rw [if_pos rfl]
        omega
      | false =>
        simp only [Bool.false_eq_true, if_false]
        omega
    · intro u hu
      rcases List.mem_append.mp hu with hu | hu
      · exact WahWord.word_lt (h.wellFormed u hu)
      · rw [List.mem_singleton.mp hu]
        exact hlast
    · rw [groupsOf_append, h.groups]
      cases value with
      | true =>
        have hlen := h.ones_le rfl hzero
        have hcount := h.length
        have hmod : count % 2 ^ 30 = count := Nat.mod_eq_of_lt (by omega)
        rw [hmod]
        simp [WahWord.groups]
      | false =>
        have hlast : groupsOf [WahWord.run false (count % 2 ^ 30)] =
            List.replicate (count % 2 ^ 30) (runGroup false) := by simp [WahWord.groups]
        rw [hlast, idsOf_append_zeros, idsOf_append_zeros]

end BitSetEncoder

end ItemIndexPrivateWAH

end Sserialize
