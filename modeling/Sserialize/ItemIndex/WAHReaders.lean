import Sserialize.ItemIndex.WAH

namespace Sserialize.ItemIndexPrivateWAH

open BitString SetBits Splice UByteArrayAdapter.Region

variable {pos : Nat}

theorem readWords_of_drop {ws : List Nat} (hws : ∀ w ∈ ws, w < 2 ^ 32) {data rest : Bytes}
    (hdrop : data.drop pos = wordBytes ws ++ rest) : readWords data ws.length pos = .ok ws := by
  induction ws generalizing pos with
  | nil => rfl
  | cons w ws ih =>
    rw [wordBytes, List.flatMap_cons, ← wordBytes, List.append_assoc] at hdrop
    have hw : w < 2 ^ (8 * 4) := hws w (by simp)
    have hget := getUint_of_drop hw (by decide) hdrop
    have hnext := drop_add_of_drop hdrop
    rw [length_leBytes] at hnext
    have hrec := ih (fun v hv => hws v (List.mem_cons_of_mem _ hv)) hnext
    rw [List.length_cons, readWords, hget, ok_bind, hrec]
    rfl

def indexBytes (ws : List Nat) (count : Nat) : Bytes :=
  leBytes 4 (4 * ws.length) ++ leBytes 4 count ++ wordBytes ws

theorem ofData_indexBytes {ws : List Nat} (count : Nat) (hws : ∀ w ∈ ws, w < 2 ^ 32)
    (hlen : 4 * ws.length < 2 ^ 32) (hcount : count < 2 ^ 32) (rest : Bytes) :
    ofData (indexBytes ws count ++ rest) = .ok ⟨ws, count⟩ := by
  have hsize : getUint 4 (indexBytes ws count ++ rest) 0 = .ok (4 * ws.length) := by
    have hdrop : (indexBytes ws count ++ rest).drop 0 =
        leBytes 4 (4 * ws.length) ++ (leBytes 4 count ++ (wordBytes ws ++ rest)) := by
      simp only [indexBytes, List.drop_zero, List.append_assoc]
    exact getUint_of_drop hlen (by decide) hdrop
  have hget : getUint 4 (indexBytes ws count ++ rest) 4 = .ok count := by
    have hfront : (leBytes 4 (4 * ws.length)).length = 4 := length_leBytes _ _
    have hdrop : (indexBytes ws count ++ rest).drop 4 =
        leBytes 4 count ++ (wordBytes ws ++ rest) := by
      rw [indexBytes, List.append_assoc, List.append_assoc]
      exact List.drop_left' hfront
    exact getUint_of_drop hcount (by decide) hdrop
  have hwords : readWords (indexBytes ws count ++ rest) ws.length 8 = .ok ws := by
    have hfront : (leBytes 4 (4 * ws.length) ++ leBytes 4 count).length = 8 := by
      rw [List.length_append, length_leBytes, length_leBytes]
    have hdrop : (indexBytes ws count ++ rest).drop 8 = wordBytes ws ++ rest := by
      rw [indexBytes, List.append_assoc]
      exact List.drop_left' hfront
    exact readWords_of_drop hws hdrop
  have hdiv : 4 * ws.length / 4 = ws.length := by omega
  unfold ofData
  rw [hsize, ok_bind, hget, ok_bind, hdiv, hwords]
  rfl

theorem u32_add_left (m n : Nat) : u32 (m + u32 n) = u32 (m + n) := Nat.add_mod_mod m n _

theorem literalIds_spec {k rounds val base : Nat} (hval : val < 2 ^ k) (hrounds : k ≤ rounds)
    (hlt : ∀ i ∈ positions base (lowFirst k val), i < 2 ^ 32) :
    literalIds rounds val (u32 base) = positions base (lowFirst k val) := by
  induction k generalizing rounds val base with
  | zero =>
    obtain rfl : val = 0 := by omega
    cases rounds <;> rfl
  | succ k ih =>
    obtain ⟨rounds, rfl⟩ : ∃ r, rounds = r + 1 := ⟨rounds - 1, by omega⟩
    unfold literalIds
    by_cases hzero : val = 0
    · rw [hzero, lowFirst_zero, positions_replicate_false, if_neg (not_not.mpr rfl)]
    · have hshift : val >>> 1 < 2 ^ k := by
        rw [Nat.shiftRight_eq_div_pow]
        omega
      have hbit : (val &&& 0x1 ≠ 0) = (val.testBit 0 = true) := by
        rw [Nat.and_one_is_mod, Nat.testBit_zero, decide_eq_true_iff]
        exact propext (by omega)
      rw [lowFirst, positions] at hlt ⊢
      rw [if_pos hzero, u32_add_u32]
      simp only [hbit]
      split
      · rename_i hset
        rw [if_pos hset] at hlt
        rw [u32_of_lt (hlt base (by simp)), ih hshift (by omega) fun i hi =>
          hlt i (List.mem_cons_of_mem _ hi)]
      · rename_i hclear
        rw [if_neg hclear] at hlt
        rw [ih hshift (by omega) hlt]

variable {base : Nat}

theorem wordIds_spec {v : WahWord} (hv : v.WellFormed)
    (hlt : ∀ i ∈ positions base (groupBits v.groups), i < 2 ^ 32) :
    wordIds v.word (u32 base) =
      (u32 (base + 31 * v.groups.length), positions base (groupBits v.groups)) := by
  unfold wordIds
  cases v with
  | run value count =>
    rw [groupBits_run] at hlt ⊢
    have htag : (WahWord.run value count).word &&& 0x1 ≠ 0 := by
      rw [WahWord.run_and_one]
      decide
    have hnext : u32 (u32 base + u32 (count * 31)) = u32 (base + 31 * count) := by
      rw [u32_add_u32, u32_add_left, Nat.mul_comm]
    rw [if_pos htag]
    simp only [WahWord.run_shift_one, WahWord.run_value, WahWord.run_count, hnext, WahWord.groups,
      List.length_replicate]
    cases value with
    | false =>
      rw [positions_replicate_false]
      rfl
    | true =>
      rw [positions_replicate_true] at hlt ⊢
      rw [Bool.toNat_true, if_pos (by decide)]
      have hpos : 0 < count := hv.1
      have hlast := hlt (base + (31 * count - 1)) (List.mem_range'_1.mpr (by omega))
      have hcount : u32 (count * 31) = 31 * count := by
        rw [Nat.mul_comm]
        exact u32_of_lt (by omega)
      have hids : (List.range (31 * count)).map (fun i => u32 (u32 base + i)) =
          List.range' base (31 * count) := by
        rw [List.range'_eq_map_range]
        refine List.map_congr_left fun i hi => ?_
        have hi_lt := List.mem_range.mp hi
        rw [u32_add_u32]
        exact u32_of_lt (by omega)
      rw [hcount, hids]
  | literal group =>
    rw [groupBits_literal] at hlt ⊢
    have hgroup : group < 2 ^ 31 := hv.2.trans (by decide)
    have htag : ¬ (WahWord.literal group).word &&& 0x1 ≠ 0 := by
      rw [WahWord.literal_and_one]
      decide
    rw [if_neg htag, WahWord.literal_shift_one, literalIds_spec hgroup (by decide) hlt, u32_add_u32]
    rfl

def Cached (ids : List Nat) (c : Cache) : Prop :=
  ∃ vs base, (∀ v ∈ vs, WahWord.WellFormed v) ∧ c.curData = vs.map WahWord.word ∧
    c.curId = u32 base ∧ c.cache ++ positions base (groupBits (groupsOf vs)) = ids

variable {vs : List WahWord}

theorem fillTo_spec {ids : List Nat} (hids : ∀ i ∈ ids, i < 2 ^ 32) (hpos : pos < ids.length)
    (base : Nat) (cache : List Nat) (hvs : ∀ v ∈ vs, WahWord.WellFormed v)
    (h : cache ++ positions base (groupBits (groupsOf vs)) = ids) :
    ∃ c, fillTo pos (vs.map WahWord.word) (u32 base) cache = .ok c ∧ Cached ids c ∧
      pos < c.cache.length := by
  induction vs generalizing base cache with
  | nil =>
    have hall : cache = ids := by simpa [positions] using h
    have hlt : ¬ cache.length ≤ pos := by
      rw [hall]
      omega
    refine ⟨⟨[], u32 base, cache⟩, ?_, ⟨[], base, hvs, rfl, rfl, h⟩, by simpa using hlt⟩
    rw [List.map_nil, fillTo, if_neg hlt]
  | cons v vs ih =>
    rw [List.map_cons, fillTo]
    by_cases hmore : cache.length ≤ pos
    · rw [groupsOf_cons, groupBits_append, positions_append, length_groupBits] at h
      have hv_lt : ∀ i ∈ positions base (groupBits v.groups), i < 2 ^ 32 := by
        intro i hi
        apply hids
        rw [← h]
        simp [hi]
      simp only [if_pos hmore, wordIds_spec (hvs v (by simp)) hv_lt]
      exact ih _ _ (fun u hu => hvs u (List.mem_cons_of_mem _ hu)) (by rw [List.append_assoc, h])
    · rw [if_neg hmore]
      exact ⟨_, rfl, ⟨v :: vs, base, hvs, rfl, rfl, h⟩, by simpa using hmore⟩

variable {idx : ItemIndexPrivateWAH}

theorem at_spec {ids : List Nat} {c : Cache} (h : Cached ids c) (hids : ∀ i ∈ ids, i < 2 ^ 32)
    (hsize : idx.size = ids.length) (hpos : pos < ids.length) :
    ∃ c', idx.at c pos = .ok (ids.getD pos 0, c') ∧ Cached ids c' := by
  obtain ⟨vs, base, hvs, hdata, hid, hall⟩ := h
  obtain ⟨c', hfill, hcached, hlt⟩ := fillTo_spec hids hpos base c.cache hvs hall
  have hsame : c'.cache.getD pos 0 = ids.getD pos 0 := by
    obtain ⟨us, base', -, -, -, hids'⟩ := hcached
    rw [← hids']
    simp [List.getD, List.getElem?_append_left hlt]
  unfold «at»
  rw [if_neg (by omega), hdata, hid, hfill, ok_bind, hsame]
  exact ⟨c', rfl, hcached⟩

theorem atEach_spec {ids positions : List Nat} {c : Cache} (h : Cached ids c)
    (hids : ∀ i ∈ ids, i < 2 ^ 32) (hsize : idx.size = ids.length)
    (hpos : ∀ pos ∈ positions, pos < ids.length) :
    idx.atEach positions c = .ok (positions.map (ids.getD · 0)) := by
  induction positions generalizing c with
  | nil => rfl
  | cons pos rest ih =>
    obtain ⟨c', hat, hcached⟩ := at_spec h hids hsize (hpos pos (by simp))
    have hrec := ih hcached fun p hp => hpos p (List.mem_cons_of_mem _ hp)
    unfold atEach
    simp only [hat, ok_bind, hrec]
    rfl

theorem cached_new (hvs : ∀ v ∈ vs, WahWord.WellFormed v)
    (hwords : idx.words = vs.map WahWord.word) : Cached (idsOf (groupsOf vs)) (.new idx) :=
  ⟨vs, 0, hvs, hwords, rfl, rfl⟩

/-- The bits of `s` were set, and none was cleared. -/
def Ored (data data' : Bytes) (s : Nat → Bool) : Prop := ∀ i, bit data' i = (bit data i || s i)

theorem Ored.trans {data data' data'' : Bytes} {s t : Nat → Bool} (h : Ored data data' s)
    (h' : Ored data' data'' t) : Ored data data'' fun i => s i || t i := by
  intro i
  rw [h' i, h i, Bool.or_assoc]

theorem Ored.congr {data data' : Bytes} {s t : Nat → Bool} (h : Ored data data' s)
    (heq : ∀ i, s i = t i) : Ored data data' t := by
  intro i
  rw [h i, heq i]

variable (data : Bytes)

theorem ored_splice {begin count : Nat} (hcount : begin + count ≤ data.length) :
    Ored data (splice data begin (List.replicate count 0xFF)) fun i =>
      decide (8 * begin ≤ i ∧ i < 8 * begin + 8 * count) := by
  intro i
  have hones : ∀ j < 8, (0xFF : UInt8).toNat.testBit j = true := by decide
  have hget : (splice data begin (List.replicate count 0xFF))[i / 8]? = _ :=
    getElem?_splice (by omega) (i / 8)
  rw [List.length_replicate] at hget
  rw [bit, List.getD_eq_getElem?_getD, hget]
  beta_reduce
  by_cases hin : 8 * begin ≤ i ∧ i < 8 * begin + 8 * count
  · rw [if_pos (by omega), List.getElem?_replicate, if_pos (by omega), Option.getD_some,
      hones _ (Nat.mod_lt i (by decide)), decide_eq_true hin, Bool.or_true]
  · rw [if_neg (by omega), decide_eq_false hin, Bool.or_false, bit, List.getD_eq_getElem?_getD]

/-- On storage that is not contiguous everything behind the range is filled, too. -/
theorem fill_spec (contiguous : Bool) {data : Bytes} {begin : Nat} (length : Nat)
    (hbegin : begin < data.length) (hlen : begin + length ≤ data.length) (hpos : 0 < length) :
    ∃ data', fill contiguous data 0xFF begin length = .ok data' ∧ data'.length = data.length ∧
      Ored data data' fun i => decide (8 * begin ≤ i ∧
        (i < 8 * begin + 8 * length ∨ contiguous = false ∧ i < 8 * data.length)) := by
  obtain ⟨count, hcount, hfill, hrange⟩ : ∃ count, begin + count ≤ data.length ∧
      fill contiguous data 0xFF begin length = .ok (splice data begin (List.replicate count 0xFF)) ∧
      ∀ i, i < 8 * begin + 8 * count ↔
        i < 8 * begin + 8 * length ∨ contiguous = false ∧ i < 8 * data.length := by
    unfold fill
    cases contiguous with
    | true =>
      refine ⟨length, hlen, ?_, fun i => by simp⟩
      have hput : (whole data).fill true (data.length + 1) 0xFF begin length = _ :=
        (fill_contiguous hbegin.le _).trans (if_pos hbegin)
      have hmin : min length (data.length - begin) = length := by omega
      rw [hput]
      simp only [put, whole, hmin, Nat.zero_add, Except.map]
    | false =>
      refine ⟨data.length - begin, by omega, ?_, fun i => by simp; omega⟩
      obtain ⟨r, hr⟩ : ∃ r, fillLoop 0xFF (min length (4 * 1024 * 1024)) (data.length + 1) begin
          (whole data) = some r := exists_fillLoop_eq_some (by omega)
            (show data.length - begin < data.length + 1 by omega)
      have hput : (whole data).fill false (data.length + 1) 0xFF begin length = some r :=
        (fill_buffered hbegin.le _).trans hr
      rw [hput, fillLoop_eq_some hbegin.le hr]
      simp only [put, whole, Nat.zero_add, Except.map]
  refine ⟨_, hfill, ?_, (ored_splice data hcount).congr fun i => by simp only [hrange]⟩
  rw [length_splice hbegin.le, List.length_replicate]
  omega

variable (contiguous : Bool)

end Sserialize.ItemIndexPrivateWAH
