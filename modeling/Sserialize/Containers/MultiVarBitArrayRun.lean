import Sserialize.Containers.MultiVarBitArray

namespace Sserialize

open BitString

structure Table where
  rows : Nat
  value : Nat → Nat → Nat

namespace Table

def empty : Table := { rows := 0, value := fun _ _ => 0 }

def reserve (t : Table) (count : Nat) : Table := { t with rows := max t.rows count }

def put (t : Table) (pos subPos v : Nat) : Table :=
  { rows := max t.rows (pos + 1),
    value := fun row column => if row = pos ∧ column = subPos then v else t.value row column }

end Table

namespace MultiVarBitArray

structure Holds (bitConfig : List Nat) (a : MultiVarBitArray) (t : Table) : Prop where
  bitSums : a.bitSums = Ascending.sums 0 bitConfig
  size : a.size = t.rows
  space : bitConfig.sum * t.rows ≤ 8 * a.data.length
  bits : ∀ pos subPos, ∀ h : subPos < bitConfig.length, pos < t.rows → ∀ i < bitConfig[subPos],
    bit a.data (fieldBegin bitConfig pos subPos + i) = (t.value pos subPos).testBit i

structure Config (bitConfig : List Nat) : Prop where
  pos : 1 ≤ bitConfig.length
  le : bitConfig.length ≤ 255
  widths : ∀ w ∈ bitConfig, 1 ≤ w ∧ w ≤ 64

def Fits (bitConfig : List Nat) (t : Table) : Prop :=
  ∀ pos subPos, ∀ h : subPos < bitConfig.length, t.value pos subPos < 2 ^ bitConfig[subPos]

theorem Config.width {bitConfig : List Nat} (h : Config bitConfig) {subPos : Nat}
    (hsub : subPos < bitConfig.length) : 1 ≤ bitConfig[subPos] ∧ bitConfig[subPos] ≤ 64 :=
  h.widths _ (List.getElem_mem hsub)

theorem Config.sum_le {bitConfig : List Nat} (h : Config bitConfig) : bitConfig.sum ≤ 255 * 64 := by
  have hall : ∀ l : List Nat, (∀ w ∈ l, w ≤ 64) → l.sum ≤ l.length * 64 := by
    intro l hl
    induction l with
    | nil => simp
    | cons w l ih =>
      rw [List.forall_mem_cons] at hl
      have hrest := ih hl.2
      rw [List.sum_cons, List.length_cons]
      omega
  have hsum := hall bitConfig fun w hw => (h.widths w hw).2
  have hlen := h.le
  omega

variable {a : MultiVarBitArray} {pos subPos : Nat}

theorem Holds.field_le {bitConfig : List Nat} {t : Table} (h : Holds bitConfig a t)
    (hpos : pos < t.rows) (hsub : subPos < bitConfig.length) :
    fieldBegin bitConfig pos subPos + bitConfig[subPos] ≤ 8 * a.data.length := by
  have hend := fieldBegin_add_le pos hsub
  have hrows : bitConfig.sum * (pos + 1) ≤ bitConfig.sum * t.rows := Nat.mul_le_mul_left _ hpos
  have hspace := h.space
  omega

theorem at_holds {bitConfig : List Nat} {t : Table} (hconfig : Config bitConfig)
    (h : Holds bitConfig a t) (hfits : Fits bitConfig t) (hpos : pos < t.rows)
    (hsub : subPos < bitConfig.length) : a.at pos subPos = .ok (t.value pos subPos) := by
  obtain ⟨hwidth, hle⟩ := hconfig.width hsub
  obtain ⟨v, hat, hlt, hbits⟩ :=
    CompactUintArray.fieldAt_spec 64 hwidth hle (h.field_le hpos hsub)
  have hv : v = t.value pos subPos := eq_of_testBit hlt (hfits pos subPos hsub) fun i hi => by
    rw [hbits i hi, h.bits pos subPos hsub hpos i hi]
  have hsize := h.size
  unfold «at»
  rw [if_neg (by omega), bitCount_sums h.bitSums hsub hle, ok_bind,
    bitShift_sums h.bitSums pos hsub, ok_bind, hat, hv]

theorem at_outOfBounds {bitConfig : List Nat} {t : Table} (h : Holds bitConfig a t) {pos : Nat}
    (subPos : Nat) (hpos : t.rows ≤ pos) : a.at pos subPos = .error .outOfBounds := by
  have hsize := h.size
  exact if_pos (by omega)

theorem set_holds {bitConfig : List Nat} {t : Table} (hconfig : Config bitConfig)
    (h : Holds bitConfig a t) (value : Nat) (hpos : pos < t.rows)
    (hsub : subPos < bitConfig.length) :
    ∃ a', a.set pos subPos value = .ok (value % 2 ^ bitConfig[subPos], a') ∧
      a'.data.length = a.data.length ∧
      (∀ i, bitConfig.sum * t.rows ≤ i → bit a'.data i = bit a.data i) ∧
      Holds bitConfig a' (t.put pos subPos (value % 2 ^ bitConfig[subPos])) := by
  obtain ⟨hwidth, hle⟩ := hconfig.width hsub
  obtain ⟨data', hset, hlength, hwritten⟩ :=
    CompactUintArray.fieldSet_spec value hwidth (h.field_le hpos hsub)
  have hsize := h.size
  have hrows : (t.put pos subPos (value % 2 ^ bitConfig[subPos])).rows = t.rows :=
    Nat.max_eq_left hpos
  refine ⟨{ a with data := data' }, ?_, hlength, ?_, h.bitSums, ?_, ?_, ?_⟩
  · unfold set
    rw [if_neg (by omega), bitCount_sums h.bitSums hsub hle, ok_bind,
      bitShift_sums h.bitSums pos hsub, ok_bind, hset, createMask, Nat.and_two_pow_sub_one_eq_mod]
    rfl
  · intro i hi
    have hend := fieldBegin_add_le pos hsub
    have hmul : bitConfig.sum * (pos + 1) ≤ bitConfig.sum * t.rows := Nat.mul_le_mul_left _ hpos
    rw [hwritten, if_neg (by omega)]
  · rw [hrows]
    exact hsize
  · rw [hrows]
    simp only [hlength]
    exact h.space
  · intro row column hcolumn hrow i hi
    rw [hrows] at hrow
    by_cases hsame : row = pos ∧ column = subPos
    · obtain ⟨rfl, rfl⟩ := hsame
      simp only [Table.put, and_self, if_true, Nat.testBit_mod_two_pow, decide_eq_true hi,
        Bool.true_and]
      rw [hwritten, if_pos (by omega), Nat.add_sub_cancel_left]
    · have hother := fields_disjoint hsub hcolumn hi hsame
      simp only [Table.put, if_neg hsame]
      rw [hwritten, if_neg hother, h.bits row column hcolumn hrow i hi]

end MultiVarBitArray

namespace MultiVarBitArray

structure WidthBytes (bitConfig : List Nat) (widths : Bytes) : Prop where
  length : widths.length = CompactUintArray.minStorageBytes bitConfigEntrySize bitConfig.length
  bits : ∀ i, ∀ h : i < bitConfig.length, ∀ j < 6, bit widths (i * 6 + j) =
    (bitConfig[i] - 1).testBit j

def header (bitConfig : List Nat) (size : Nat) (widths : Bytes) : Bytes :=
  [version] ++ leBytes 5 size ++ [byte bitConfig.length] ++ widths

variable {widths : Bytes}

theorem length_header {bitConfig : List Nat} (size : Nat) (h : WidthBytes bitConfig widths) :
    (header bitConfig size widths).length =
      headerSize + CompactUintArray.minStorageBytes bitConfigEntrySize bitConfig.length := by
  simp only [header, List.length_append, length_leBytes, List.length_singleton, h.length]
  rfl

theorem widths_at {bitConfig : List Nat} (hconfig : Config bitConfig)
    (h : WidthBytes bitConfig widths) (data : Bytes) {i : Nat} (hi : i < bitConfig.length) :
    (CompactUintArray.ofData (widths ++ data) bitConfigEntrySize).at i = .ok (bitConfig[i] - 1) := by
  have hclamp : CompactUintArray.clampBits bitConfigEntrySize = 6 := rfl
  have hspace : bitConfig.length * 6 ≤ 8 * widths.length := by
    rw [h.length]
    exact CompactUintArray.le_minStorageBytes bitConfigEntrySize bitConfig.length
  obtain ⟨hpos, hle⟩ := hconfig.width hi
  refine CompactUintArray.at_spec ?_ ?_ ?_ ?_ ?_ ?_
  · simp only [CompactUintArray.ofData, hclamp, Nat.zero_lt_succ]
  · simp only [CompactUintArray.ofData, hclamp, Nat.reduceLeDiff]
  · simp only [CompactUintArray.ofData, hclamp, List.length_append]
    rw [← Nat.succ_le_iff, Nat.le_div_iff_mul_le (by decide)]
    omega
  · simp only [CompactUintArray.ofData, hclamp, List.length_append]
    omega
  · simp only [CompactUintArray.ofData, hclamp]
    omega
  · simp only [CompactUintArray.ofData, hclamp]
    intro j hj
    rw [bit_append_left (by omega), h.bits i hi j hj]

theorem bitSumsLoop_widths {bitConfig : List Nat} (hconfig : Config bitConfig)
    (h : WidthBytes bitConfig widths) (data : Bytes) (rounds i last : Nat)
    (hi : i + rounds = bitConfig.length) (hlast : last + (bitConfig.drop i).sum < 2 ^ 16) :
    bitSumsLoop (CompactUintArray.ofData (widths ++ data) bitConfigEntrySize) rounds i last =
      .ok (Ascending.sums last (bitConfig.drop i)) := by
  induction rounds generalizing i last with
  | zero =>
    rw [List.drop_eq_nil_of_le (by omega)]
    rfl
  | succ rounds ih =>
    have hlt : i < bitConfig.length := by omega
    obtain ⟨hpos, hle⟩ := hconfig.width hlt
    rw [List.drop_eq_getElem_cons hlt] at hlast ⊢
    rw [List.sum_cons] at hlast
    have hsum : (last + 1 + (bitConfig[i] - 1)) % 2 ^ 16 = last + bitConfig[i] := by
      rw [Nat.mod_eq_of_lt (by omega)]
      omega
    simp only [bitSumsLoop, widths_at hconfig h data hlt, ok_bind, hsum]
    rw [ih _ _ (by omega) (by omega)]
    rfl

theorem ofData_header {bitConfig : List Nat} (hconfig : Config bitConfig)
    (h : WidthBytes bitConfig widths) (size : Nat) (hsize : size < 2 ^ 40) (data : Bytes) :
    ofData (header bitConfig size widths ++ data) =
      .ok { data := data, bitSums := Ascending.sums 0 bitConfig, size := size } := by
  have hpos := hconfig.pos
  have hle := hconfig.le
  have hsum := hconfig.sum_le
  have hdropSize : (header bitConfig size widths ++ data).drop 1 =
      leBytes 5 size ++ ([byte bitConfig.length] ++ widths ++ data) := by
    simp [header]
  have hgetSize : getUint 5 (header bitConfig size widths ++ data) 1 = .ok size :=
    getUint_of_drop hsize (by decide) hdropSize
  have hversion : byteAt (header bitConfig size widths ++ data) 0 = .ok version := by
    simp [byteAt, header]
  have hcountByte : (header bitConfig size widths ++ data).getD 6 0 = byte bitConfig.length := by
    have hsplit : header bitConfig size widths ++ data =
        ([version] ++ leBytes 5 size) ++ (byte bitConfig.length :: (widths ++ data)) := by
      simp [header]
    have hfront : ([version] ++ leBytes 5 size).length = 6 := by simp
    rw [hsplit, List.getD_append_right _ _ _ _ (Nat.le_of_eq hfront), hfront]
    rfl
  have hlen := length_header size h
  have hcount : byteAt (header bitConfig size widths ++ data) 6 = .ok (byte bitConfig.length) := by
    rw [CompactUintArray.byteAt_eq, hcountByte]
    rw [List.length_append, hlen, headerSize]
    omega
  have hn : (byte bitConfig.length).toNat = bitConfig.length := by
    rw [byte, UInt8.toNat_ofNat', Nat.mod_eq_of_lt (by omega)]
  have hdrop : (header bitConfig size widths ++ data).drop headerSize = widths ++ data := by
    have hsplit : header bitConfig size widths ++ data =
        ([version] ++ leBytes 5 size ++ [byte bitConfig.length]) ++ (widths ++ data) := by
      simp [header]
    have hfront : ([version] ++ leBytes 5 size ++ [byte bitConfig.length]).length = headerSize := by
      simp [headerSize]
    rw [hsplit, List.drop_left' hfront]
  have hdata : (header bitConfig size widths ++ data).drop (headerSize +
      CompactUintArray.minStorageBytes bitConfigEntrySize bitConfig.length) = data :=
    List.drop_left' hlen
  have hfirst := widths_at hconfig h data hpos
  obtain ⟨hwidth, -⟩ := hconfig.width hpos
  obtain ⟨w, ws, rfl⟩ : ∃ w ws, bitConfig = w :: ws := by
    cases bitConfig with
    | nil => cases hpos
    | cons w ws => exact ⟨w, ws, rfl⟩
  have hloop := bitSumsLoop_widths hconfig h data ((w :: ws).length - 1) 1 w
    (by omega) (by
      rw [List.sum_cons] at hsum
      simp only [List.drop_succ_cons, List.drop_zero]
      omega)
  unfold ofData
  simp only [hgetSize, hversion, hcount, hdrop, hn, hfirst, ok_bind, ne_eq, not_true_eq_false,
    if_false]
  rw [List.getElem_cons_zero] at hwidth ⊢
  rw [Nat.sub_add_cancel hwidth, hloop, ok_bind, hdata, Ascending.sums, Nat.zero_add]
  rfl

end MultiVarBitArray

theorem length_growTo (storage : Bytes) (size : Nat) :
    (growTo storage size).length = max storage.length size := by
  rw [growTo, List.length_append, List.length_replicate]
  omega

theorem eq_zeros_of_bit {data : Bytes} (h : ∀ i, bit data i = false) :
    data = List.replicate data.length 0 := by
  rw [List.eq_replicate_iff]
  refine ⟨rfl, ?_⟩
  intro b hb
  obtain ⟨k, hk, rfl⟩ := List.getElem_of_mem hb
  apply UInt8.toNat_inj.mp
  apply Nat.eq_of_testBit_eq
  intro j
  rw [UInt8.toNat_zero, Nat.zero_testBit]
  by_cases hj : j < 8
  · have hbit := h (8 * k + j)
    rwa [bit, show (8 * k + j) / 8 = k by omega, show (8 * k + j) % 8 = j by omega,
      List.getD_eq_getElem _ _ hk] at hbit
  · have hlt : data[k].toNat < 2 ^ j :=
      Nat.lt_of_lt_of_le (UInt8.toNat_lt _) (Nat.pow_le_pow_right (by decide) (Nat.le_of_not_lt hj))
    exact Nat.testBit_lt_two_pow hlt

theorem bit_growTo (storage : Bytes) (size i : Nat) : bit (growTo storage size) i = bit storage i :=
  bit_append_zeros storage _ i

namespace MultiVarBitArrayCreator

open MultiVarBitArray

/-- The creator in the middle of a run: a header in front of the array of the table. -/
structure Holds (bitConfig : List Nat) (c : MultiVarBitArrayCreator) (t : Table) : Prop where
  header : ∃ size widths, WidthBytes bitConfig widths ∧ c.front = header bitConfig size widths
  headerSize : c.headerSize = MultiVarBitArray.headerSize +
    CompactUintArray.minStorageBytes bitConfigEntrySize bitConfig.length
  headerLen : c.headerLen ≤ c.front.length + c.arr.data.length
  headerSize_le : c.headerSize ≤ c.headerLen
  arr : c.arr.Holds bitConfig t
  unset : ∀ pos subPos, ∀ h : subPos < bitConfig.length, t.rows ≤ pos → ∀ i < bitConfig[subPos],
    bit c.arr.data (fieldBegin bitConfig pos subPos + i) = false
  zero : ∀ pos subPos, t.rows ≤ pos → t.value pos subPos = 0

variable {bitConfig : List Nat}

theorem configLoop_eq (h : ∀ w ∈ bitConfig, 1 ≤ w ∧ w ≤ 64) (i : Nat) (carr : CompactUintArray) :
    configLoop bitConfig i carr =
      CompactUintArray.setAll (bitConfig.map fun w => w - 1) i carr := by
  induction bitConfig generalizing i carr with
  | nil => rfl
  | cons w bitConfig ih =>
    rw [List.forall_mem_cons] at h
    have hif : ¬ (w = 0 ∨ w > 64) := by omega
    rw [configLoop, if_neg hif, List.map_cons, CompactUintArray.setAll]
    cases hset : carr.set i (w - 1) with
    | error e => rfl
    | ok carr' => exact ih h.2 (i + 1) carr'

theorem configLoop_zero (hconfig : Config bitConfig) (size : Nat)
    (hsize : CompactUintArray.minStorageBytes bitConfigEntrySize bitConfig.length ≤ size) :
    ∃ carr widths data, configLoop bitConfig 0 (CompactUintArray.ofData
        (List.replicate size 0) bitConfigEntrySize) = .ok carr ∧ carr.data = widths ++ data ∧
      WidthBytes bitConfig widths ∧ ∀ i, bit data i = false := by
  have hclamp : CompactUintArray.clampBits bitConfigEntrySize = 6 := rfl
  have hspace : bitConfig.length * 6 ≤
      8 * CompactUintArray.minStorageBytes bitConfigEntrySize bitConfig.length :=
    CompactUintArray.le_minStorageBytes bitConfigEntrySize bitConfig.length
  obtain ⟨carr, hall, hlength, hframe, hbits⟩ := CompactUintArray.setAll_spec
    (bitConfig.map fun w => w - 1) 0
    (CompactUintArray.ofData (List.replicate size 0) bitConfigEntrySize)
    (by simp only [CompactUintArray.ofData, hclamp, Nat.zero_lt_succ])
    (by
      simp only [CompactUintArray.ofData, hclamp, List.length_replicate, List.length_map]
      rw [Nat.le_div_iff_mul_le (by decide)]
      omega)
    (by
      simp only [CompactUintArray.ofData, hclamp, List.length_replicate, List.length_map]
      omega)
  simp only [CompactUintArray.ofData, hclamp, List.length_replicate, List.length_map]
    at hlength hframe hbits
  generalize hn : CompactUintArray.minStorageBytes bitConfigEntrySize bitConfig.length = n at *
  have htake : (carr.data.take n).length = n := by
    rw [List.length_take]
    omega
  have hsplit := List.take_append_drop n carr.data
  refine ⟨carr, carr.data.take n, carr.data.drop n, ?_, hsplit.symm, ⟨htake.trans hn.symm, ?_⟩, ?_⟩
  · rw [configLoop_eq hconfig.widths, hall]
  · intro i hi j hj
    have hbit := hbits i hi j hj
    rw [Nat.zero_add, List.getD_eq_getElem _ _ (by rwa [List.length_map]), List.getElem_map] at hbit
    rw [bit_take, decide_eq_true (by omega), Bool.true_and, hbit]
  · intro i
    have hbit := bit_append_right (carr.data.take n) (carr.data.drop n) i
    rw [hsplit, htake, hframe _ (.inr (by omega))] at hbit
    have hclear := bit_append_zeros [] size (8 * n + i)
    rw [List.nil_append, bit_nil] at hclear
    rw [← hbit, hclear]

theorem new_holds (hconfig : Config bitConfig) {old : Bytes} (hold : ∀ b ∈ old, b = 0) :
    ∃ c, new bitConfig old = .ok c ∧ Holds bitConfig c Table.empty := by
  generalize hsize : MultiVarBitArray.headerSize +
    CompactUintArray.minStorageBytes bitConfigEntrySize bitConfig.length = size
  have hgrow : growTo old size = List.replicate (max old.length size) 0 := by
    apply List.eq_replicate_of_mem ?_ |>.trans
    · rw [length_growTo]
    · intro b hb
      rw [growTo, List.mem_append, List.mem_replicate] at hb
      rcases hb with hb | hb
      · exact hold b hb
      · exact hb.2
  obtain ⟨carr, widths, data, hloop, hdata, hwidths, hclear⟩ :=
    configLoop_zero hconfig (max old.length size - MultiVarBitArray.headerSize) (by omega)
  have hheader : [version] ++ leBytes 5 0 ++ [byte bitConfig.length] ++ carr.data =
      header bitConfig 0 widths ++ data := by
    rw [hdata, header]
    simp only [List.append_assoc]
  have hlen := length_header 0 hwidths
  have hofData := ofData_header hconfig hwidths 0 (by decide) data
  refine ⟨{ front := header bitConfig 0 widths,
            arr := { data := data, bitSums := Ascending.sums 0 bitConfig, size := 0 },
            headerLen := (header bitConfig 0 widths ++ data).length, headerSize := size },
    ?_, ⟨0, widths, hwidths, rfl⟩, hsize.symm, ?_, ?_, ⟨rfl, rfl, ?_, ?_⟩, ?_, fun _ _ _ => rfl⟩
  · unfold new
    simp only [hsize, hgrow, List.drop_replicate, hloop, ok_bind, hheader, hofData]
    rw [List.length_append, Nat.add_sub_cancel, List.take_left]
    rfl
  · exact Nat.le_of_eq (List.length_append)
  · rw [List.length_append, hlen, hsize]
    exact Nat.le_add_right _ _
  · simp [Table.empty]
  · intro pos subPos hsub hpos
    cases hpos
  · intro pos subPos hsub _ i _
    exact hclear _

variable {c : MultiVarBitArrayCreator} {t : Table}

theorem reserve_holds (h : Holds bitConfig c t) (count : Nat) :
    Holds bitConfig (c.reserve count) (t.reserve count) := by
  have hsize := h.arr.size
  unfold reserve
  by_cases hcount : c.arr.size ≥ count
  · have hrows : t.reserve count = t := by
      rw [Table.reserve, Nat.max_eq_left (by omega)]
    rw [if_pos hcount, hrows]
    exact h
  · have hrows : (t.reserve count).rows = count := Nat.max_eq_right (by omega)
    rw [if_neg hcount]
    refine ⟨h.header, h.headerSize, ?_, h.headerSize_le, ⟨h.arr.bitSums, hrows.symm, ?_, ?_⟩, ?_, ?_⟩
    · have hlen := h.headerLen
      simp only [length_growTo]
      omega
    · have hspace := le_minStorageBytes bitConfig.sum count
      simp only [length_growTo, totalBitSum_sums h.arr.bitSums, hrows]
      omega
    · intro pos subPos hsub _ i hi
      rw [bit_growTo]
      by_cases hold : pos < t.rows
      · exact h.arr.bits pos subPos hsub hold i hi
      · rw [h.unset pos subPos hsub (by omega) i hi, Table.reserve,
          h.zero pos subPos (by omega), Nat.zero_testBit]
    · intro pos subPos hsub hpos i hi
      rw [bit_growTo]
      exact h.unset pos subPos hsub (by omega) i hi
    · intro pos subPos hpos
      exact h.zero pos subPos (by omega)

theorem set_holds (hconfig : Config bitConfig) (h : Holds bitConfig c t) (pos value : Nat)
    {subPos : Nat} (hsub : subPos < bitConfig.length) :
    ∃ c', c.set pos subPos value =
        (c', if value < 2 ^ bitConfig[subPos] then .ok () else .error .typeOverflow) ∧
      Holds bitConfig c' (t.put pos subPos (value % 2 ^ bitConfig[subPos])) := by
  have hsize := h.arr.size
  have hgrown : Holds bitConfig (if c.arr.size ≤ pos then c.reserve (pos + 1) else c)
      (t.reserve (pos + 1)) := by
    split
    · exact reserve_holds h (pos + 1)
    · have hrows : t.reserve (pos + 1) = t := by
        rw [Table.reserve, Nat.max_eq_left (by omega)]
      rw [hrows]
      exact h
  unfold set
  generalize (if c.arr.size ≤ pos then c.reserve (pos + 1) else c) = c' at *
  have hpos : pos < (t.reserve (pos + 1)).rows := Nat.lt_of_lt_of_le (Nat.lt_succ_self pos)
    (Nat.le_max_right _ _)
  obtain ⟨arr, hset, hlength, hframe, harr⟩ :=
    MultiVarBitArray.set_holds hconfig hgrown.arr value hpos hsub
  have hput : (t.reserve (pos + 1)).put pos subPos (value % 2 ^ bitConfig[subPos]) =
      t.put pos subPos (value % 2 ^ bitConfig[subPos]) := by
    rw [Table.put, Table.put, Table.reserve]
    simp only [Nat.max_assoc, Nat.max_self]
  rw [hput] at harr
  have hresult : (if value ≠ value % 2 ^ bitConfig[subPos] then
      (Except.error Fault.typeOverflow : Except Fault Unit) else .ok ()) =
      if value < 2 ^ bitConfig[subPos] then .ok () else .error .typeOverflow := by
    by_cases hfit : value < 2 ^ bitConfig[subPos]
    · rw [Nat.mod_eq_of_lt hfit, if_neg (not_not_intro rfl), if_pos hfit]
    · have hlt := Nat.mod_lt value (Nat.two_pow_pos bitConfig[subPos])
      rw [if_pos (by omega), if_neg hfit]
  refine ⟨{ c' with arr := arr }, ?_, hgrown.header, hgrown.headerSize, ?_, hgrown.headerSize_le, harr,
    ?_, ?_⟩
  · simp only [hset, hresult]
  · simp only [hlength]
    exact hgrown.headerLen
  · intro row column hcolumn hrow i hi
    have hrow' : (t.reserve (pos + 1)).rows ≤ row := hrow
    have hmul : bitConfig.sum * (t.reserve (pos + 1)).rows ≤ bitConfig.sum * row :=
      Nat.mul_le_mul_left _ hrow'
    have hbegin : bitConfig.sum * row ≤ fieldBegin bitConfig row column := Nat.le_add_right _ _
    rw [hframe _ (by omega)]
    exact hgrown.unset row column hcolumn hrow' i hi
  · intro row column hrow
    have hne : ¬ (row = pos ∧ column = subPos) := by
      rintro ⟨rfl, -⟩
      exact Nat.not_le_of_lt (Nat.lt_of_lt_of_le (Nat.lt_succ_self row) (Nat.le_max_right _ _)) hrow
    rw [Table.put]
    simp only [if_neg hne]
    exact hgrown.zero row column hrow

inductive Call where
  | reserve (count : Nat)
  | set (pos subPos value : Nat)
  deriving Repr, DecidableEq

def Call.Valid (bitConfig : List Nat) : Call → Prop
  | .reserve count => count < 2 ^ 40
  | .set pos subPos _ => pos + 1 < 2 ^ 40 ∧ subPos < bitConfig.length

def call (c : MultiVarBitArrayCreator) : Call → MultiVarBitArrayCreator × Except Fault Unit
  | .reserve count => (c.reserve count, .ok ())
  | .set pos subPos value => c.set pos subPos value

def run (c : MultiVarBitArrayCreator) : List Call → MultiVarBitArrayCreator × List (Except Fault Unit)
  | [] => (c, [])
  | op :: ops =>
    let (c, result) := c.call op
    let (c, results) := run c ops
    (c, result :: results)

def Call.apply (bitConfig : List Nat) (t : Table) : Call → Table
  | .reserve count => t.reserve count
  | .set pos subPos value => t.put pos subPos (value % 2 ^ bitConfig.getD subPos 0)

def Call.result (bitConfig : List Nat) : Call → Except Fault Unit
  | .reserve _ => .ok ()
  | .set _ subPos value =>
    if value < 2 ^ bitConfig.getD subPos 0 then .ok () else .error .typeOverflow

theorem call_holds {op : Call} (hconfig : Config bitConfig) (h : Holds bitConfig c t)
    (hop : op.Valid bitConfig) :
    ∃ c', c.call op = (c', op.result bitConfig) ∧ Holds bitConfig c' (op.apply bitConfig t) := by
  cases op with
  | reserve count => exact ⟨c.reserve count, rfl, reserve_holds h count⟩
  | set pos subPos value =>
    obtain ⟨c', hset, hholds⟩ := set_holds hconfig h pos value hop.2
    refine ⟨c', ?_, ?_⟩
    · rw [call, hset, Call.result, List.getD_eq_getElem _ _ hop.2]
    · rw [Call.apply, List.getD_eq_getElem _ _ hop.2]
      exact hholds

theorem run_holds {ops : List Call} (hconfig : Config bitConfig) (h : Holds bitConfig c t)
    (hops : ∀ op ∈ ops, op.Valid bitConfig) :
    ∃ c', c.run ops = (c', ops.map (Call.result bitConfig)) ∧
      Holds bitConfig c' (ops.foldl (Call.apply bitConfig) t) := by
  induction ops generalizing c t with
  | nil => exact ⟨c, rfl, h⟩
  | cons op ops ih =>
    rw [List.forall_mem_cons] at hops
    obtain ⟨c', hcall, hholds⟩ := call_holds hconfig h hops.1
    obtain ⟨c'', hrun, hholds'⟩ := ih hholds hops.2
    refine ⟨c'', ?_, hholds'⟩
    rw [run, hcall]
    simp only [hrun, List.map_cons]

theorem fits_foldl {ops : List Call} (hops : ∀ op ∈ ops, op.Valid bitConfig)
    (hfits : Fits bitConfig t) (hrows : t.rows < 2 ^ 40) :
    Fits bitConfig (ops.foldl (Call.apply bitConfig) t) ∧
      (ops.foldl (Call.apply bitConfig) t).rows < 2 ^ 40 := by
  induction ops generalizing t with
  | nil => exact ⟨hfits, hrows⟩
  | cons op ops ih =>
    rw [List.forall_mem_cons] at hops
    cases op with
    | reserve count => exact ih hops.2 hfits (Nat.max_lt.mpr ⟨hrows, hops.1⟩)
    | set pos subPos value =>
      refine ih hops.2 ?_ (Nat.max_lt.mpr ⟨hrows, hops.1.1⟩)
      intro row column hcolumn
      simp only [Call.apply, Table.put]
      split
      · rename_i hsame
        obtain ⟨-, rfl⟩ := hsame
        rw [List.getD_eq_getElem _ _ hcolumn]
        exact Nat.mod_lt _ (Nat.two_pow_pos _)
      · exact hfits row column hcolumn

theorem flush_spec (h : Holds bitConfig c t) :
    ∃ bytes widths data, c.flush = .ok (bytes, c.headerSize +
        minStorageBytes bitConfig.sum t.rows) ∧ WidthBytes bitConfig widths ∧
      bytes = header bitConfig t.rows widths ++ data ∧
      minStorageBytes bitConfig.sum t.rows ≤ data.length ∧
      ∀ pos subPos, ∀ hsub : subPos < bitConfig.length, pos < t.rows → ∀ i < bitConfig[subPos],
        bit data (fieldBegin bitConfig pos subPos + i) = (t.value pos subPos).testBit i := by
  obtain ⟨size, widths, hwidths, hfront⟩ := h.header
  have hsize := h.arr.size
  have hlenOld := length_header size hwidths
  have hlenNew := length_header t.rows hwidths
  have hput : putUint 5 (c.front ++ c.arr.data) 1 t.rows =
      .ok (header bitConfig t.rows widths ++ c.arr.data) := by
    have hsplit : c.front ++ c.arr.data =
        [version] ++ (leBytes 5 size ++ ([byte bitConfig.length] ++ widths ++ c.arr.data)) := by
      rw [hfront]
      simp [header]
    have hlen : 1 + 5 ≤ (c.front ++ c.arr.data).length := by
      rw [List.length_append, hfront, hlenOld, MultiVarBitArray.headerSize]
      omega
    have hfront6 : ([version] ++ leBytes 5 size).length = 1 + 5 := by simp
    rw [putUint, if_pos hlen]
    congr 1
    rw [hsplit, List.take_left' (List.length_singleton), ← List.append_assoc [version],
      List.drop_left' hfront6]
    simp [header]
  have hheaderSize : (header bitConfig t.rows widths).length = c.headerSize := by
    rw [hlenNew, h.headerSize]
  obtain ⟨extra, hextra⟩ : ∃ extra, max c.headerLen (c.headerSize +
      minStorageBytes bitConfig.sum t.rows) = c.headerSize + extra ∧
      minStorageBytes bitConfig.sum t.rows ≤ extra := by
    have hle := h.headerSize_le
    exact ⟨max c.headerLen (c.headerSize + minStorageBytes bitConfig.sum t.rows) - c.headerSize,
      by omega, by omega⟩
  obtain ⟨zeros, hzeros⟩ : ∃ zeros, growTo (header bitConfig t.rows widths ++ c.arr.data)
      (c.headerSize + extra) = header bitConfig t.rows widths ++ (c.arr.data ++
        List.replicate zeros 0) ∧ extra ≤ c.arr.data.length + zeros := by
    refine ⟨c.headerSize + extra - (header bitConfig t.rows widths ++ c.arr.data).length, ?_, ?_⟩
    · rw [growTo, List.append_assoc]
    · rw [List.length_append, hheaderSize]
      omega
  have hlenData : ((c.arr.data ++ List.replicate zeros (0 : UInt8)).take extra).length = extra := by
    rw [List.length_take, List.length_append, List.length_replicate]
    omega
  refine ⟨header bitConfig t.rows widths ++ (c.arr.data ++ List.replicate zeros 0).take extra, widths,
    (c.arr.data ++ List.replicate zeros 0).take extra, ?_, hwidths, rfl, ?_, ?_⟩
  · unfold flush
    rw [hsize, hput, ok_bind, totalBitSum_sums h.arr.bitSums]
    simp only [hextra.1, hzeros.1]
    rw [← hheaderSize, List.take_length_add_append]
    rfl
  · rw [hlenData]
    exact hextra.2
  · intro pos subPos hsub hpos i hi
    have hend := fieldBegin_add_le pos hsub
    have hmul : bitConfig.sum * (pos + 1) ≤ bitConfig.sum * t.rows := Nat.mul_le_mul_left _ hpos
    have hspace := le_minStorageBytes bitConfig.sum t.rows
    rw [bit_take, decide_eq_true (by omega), Bool.true_and, bit_append_zeros,
      h.arr.bits pos subPos hsub hpos i hi]

/-- For every description of 1 to 255 widths and every run: a call throws exactly when its value
does not fit, the fields are those of the table, and the flushed bytes are loaded as the table. -/
theorem multiVarBitArray_run (bitConfig : List Nat) (hconfig : Config bitConfig) (old : Bytes)
    (hold : ∀ b ∈ old, b = 0) (ops : List Call) (hops : ∀ op ∈ ops, op.Valid bitConfig) :
    let t := ops.foldl (Call.apply bitConfig) Table.empty
    ∃ c₀ c, new bitConfig old = .ok c₀ ∧ c₀.run ops = (c, ops.map (Call.result bitConfig)) ∧
      (∀ pos < t.rows, ∀ subPos < bitConfig.length, c.at pos subPos = .ok (t.value pos subPos)) ∧
      ∃ bytes written, c.flush = .ok (bytes, written) ∧ written ≤ bytes.length ∧
        ∀ tail, ∃ a, MultiVarBitArray.ofData (bytes.take written ++ tail) = .ok a ∧
          a.size = t.rows ∧ a.bitConfigCount = bitConfig.length ∧ a.getSizeInBytes = written ∧
          (∀ subPos, ∀ h : subPos < bitConfig.length, a.bitCount subPos = .ok bitConfig[subPos]) ∧
          (∀ pos < t.rows, ∀ subPos < bitConfig.length,
            a.at pos subPos = .ok (t.value pos subPos)) ∧
          ∀ pos, t.rows ≤ pos → ∀ subPos, a.at pos subPos = .error .outOfBounds := by
  intro t
  obtain ⟨c₀, hnew, hholds₀⟩ := new_holds hconfig hold
  obtain ⟨c, hrun, hholds⟩ := run_holds hconfig hholds₀ hops
  obtain ⟨hfits, hrows⟩ := fits_foldl hops (t := Table.empty)
    (fun _ _ _ => Nat.two_pow_pos _) (by decide)
  obtain ⟨bytes, widths, data, hflush, hwidths, rfl, hdata, hbits⟩ := flush_spec hholds
  have hlen : (header bitConfig t.rows widths).length = c.headerSize := by
    rw [length_header t.rows hwidths, hholds.headerSize]
  refine ⟨c₀, c, hnew, hrun, ?_, _, _, hflush, ?_, ?_⟩
  · intro pos hpos subPos hsub
    exact at_holds hconfig hholds.arr hfits hpos hsub
  · rw [List.length_append, hlen]
    omega
  · intro tail
    have htake : (header bitConfig t.rows widths ++ data).take (c.headerSize +
        minStorageBytes bitConfig.sum t.rows) ++ tail = header bitConfig t.rows widths ++
          (data.take (minStorageBytes bitConfig.sum t.rows) ++ tail) := by
      rw [← hlen, List.take_length_add_append, List.append_assoc]
    have hspace := le_minStorageBytes bitConfig.sum t.rows
    have hlenData : (data.take (minStorageBytes bitConfig.sum t.rows)).length =
        minStorageBytes bitConfig.sum t.rows := by
      rw [List.length_take]
      exact Nat.min_eq_left hdata
    have hloaded : MultiVarBitArray.Holds bitConfig
        { data := data.take (minStorageBytes bitConfig.sum t.rows) ++ tail,
          bitSums := Ascending.sums 0 bitConfig, size := t.rows } t := by
      refine ⟨rfl, rfl, ?_, ?_⟩
      · simp only [List.length_append, hlenData]
        omega
      · intro pos subPos hsub hpos i hi
        have hend := fieldBegin_add_le pos hsub
        have hmul : bitConfig.sum * (pos + 1) ≤ bitConfig.sum * t.rows :=
          Nat.mul_le_mul_left _ hpos
        rw [bit_append_left (by omega), bit_take, decide_eq_true (by omega), Bool.true_and]
        exact hbits pos subPos hsub hpos i hi
    refine ⟨_, by rw [htake]; exact ofData_header hconfig hwidths _ hrows _, rfl, ?_, ?_, ?_, ?_, ?_⟩
    · exact Ascending.length_sums 0 bitConfig
    · rw [getSizeInBytes, totalBitSum_sums rfl, hholds.headerSize, bitConfigCount,
        Ascending.length_sums]
    · intro subPos hsub
      exact bitCount_sums rfl hsub (hconfig.width hsub).2
    · intro pos hpos subPos hsub
      exact at_holds hconfig hloaded hfits hpos hsub
    · intro pos hpos subPos
      exact at_outOfBounds hloaded subPos hpos

theorem multiVarBitArray_run_two :
    let t := [Call.set 0 1 9, .set 1 0 5].foldl (Call.apply [3, 7]) Table.empty
    ∃ c₀ c, new [3, 7] [0] = .ok c₀ ∧
      c₀.run [.set 0 1 9, .set 1 0 5] = (c, [Call.set 0 1 9, .set 1 0 5].map (Call.result [3, 7])) ∧
      (∀ pos < t.rows, ∀ subPos < [3, 7].length, c.at pos subPos = .ok (t.value pos subPos)) ∧
      ∃ bytes written, c.flush = .ok (bytes, written) ∧ written ≤ bytes.length ∧
        ∀ tail, ∃ a, MultiVarBitArray.ofData (bytes.take written ++ tail) = .ok a ∧
          a.size = t.rows ∧ a.bitConfigCount = [3, 7].length ∧ a.getSizeInBytes = written ∧
          (∀ subPos, ∀ h : subPos < [3, 7].length, a.bitCount subPos = .ok [3, 7][subPos]) ∧
          (∀ pos < t.rows, ∀ subPos < [3, 7].length,
            a.at pos subPos = .ok (t.value pos subPos)) ∧
          ∀ pos, t.rows ≤ pos → ∀ subPos, a.at pos subPos = .error .outOfBounds :=
  multiVarBitArray_run [3, 7] ⟨by decide, by decide, by decide⟩ [0] (by simp)
    [.set 0 1 9, .set 1 0 5]
    (by
      intro op hop
      simp only [List.mem_cons, List.not_mem_nil, or_false] at hop
      rcases hop with rfl | rfl <;> exact ⟨by decide, by decide⟩)

theorem configLoop_ones {count size : Nat}
    (hsize : CompactUintArray.minStorageBytes bitConfigEntrySize count ≤ size) :
    ∃ carr, configLoop (List.replicate count 1) 0 (CompactUintArray.ofData
        (List.replicate size 0) bitConfigEntrySize) = .ok carr ∧ carr.data = List.replicate size 0 := by
  have hclamp : CompactUintArray.clampBits bitConfigEntrySize = 6 := rfl
  have hspace : count * 6 ≤ 8 * CompactUintArray.minStorageBytes bitConfigEntrySize count :=
    CompactUintArray.le_minStorageBytes bitConfigEntrySize count
  obtain ⟨carr, hall, hlength, hframe, hbits⟩ := CompactUintArray.setAll_spec
    (List.replicate count 0) 0
    (CompactUintArray.ofData (List.replicate size 0) bitConfigEntrySize)
    (by simp only [CompactUintArray.ofData, hclamp, Nat.zero_lt_succ])
    (by
      simp only [CompactUintArray.ofData, hclamp, List.length_replicate]
      rw [Nat.le_div_iff_mul_le (by decide)]
      omega)
    (by
      simp only [CompactUintArray.ofData, hclamp, List.length_replicate]
      omega)
  simp only [CompactUintArray.ofData, hclamp, List.length_replicate] at hlength hframe hbits
  have hones : ∀ w ∈ List.replicate count 1, 1 ≤ w ∧ w ≤ 64 := by
    intro w hw
    rw [List.eq_of_mem_replicate hw]
    decide
  refine ⟨carr, ?_, ?_⟩
  · rw [configLoop_eq hones, List.map_replicate, hall]
  · rw [← hlength]
    apply eq_zeros_of_bit
    intro i
    by_cases hi : i < count * 6
    · have hbit := hbits (i / 6) (by omega) (i % 6) (by omega)
      rw [show (0 + i / 6) * 6 + i % 6 = i by omega] at hbit
      rw [hbit, List.getD_eq_getElem?_getD, List.getElem?_replicate, if_pos (by omega)]
      exact Nat.zero_testBit _
    · have hzeros := bit_append_zeros [] size i
      rw [List.nil_append, bit_nil] at hzeros
      rw [hframe i (.inr (by omega)), hzeros]

theorem new_ones : new (List.replicate 256 1) [] =
    (ofData ([version] ++ leBytes 5 0 ++ [0] ++ List.replicate 192 0)).map fun arr =>
      { front := ([version] ++ leBytes 5 0 ++ [0] ++ List.replicate 192 0).take
          (199 - arr.data.length), arr := arr, headerLen := 199, headerSize := 199 } := by
  obtain ⟨carr, hloop, hdata⟩ := @configLoop_ones 256 192 (by decide)
  have hheader : (growTo [] 199).drop MultiVarBitArray.headerSize = List.replicate 192 0 := by
    rw [growTo, List.nil_append, List.drop_replicate]
    rfl
  have hsize : MultiVarBitArray.headerSize +
      CompactUintArray.minStorageBytes bitConfigEntrySize 256 = 199 := by decide
  have hbyte : byte 256 = 0 := by decide
  unfold new
  simp only [List.length_replicate, hsize, hheader, hloop, ok_bind, hdata, hbyte]
  cases ofData ([version] ++ leBytes 5 0 ++ [0] ++ List.replicate 192 0) with
  | error e => rfl
  | ok arr =>
    simp only [ok_bind, Except.map]
    rfl

/-- The call with the value 2 throws, but the field of one bit loses its 1. A byte that is not clear
is seen through a field that was never set. The field count 256 is stored as 0, and the second of the
columns cannot be read. -/
theorem multiVarBitArray_not_unchanged :
    ((new [1] []).map fun c => ((c.run [.set 0 0 1]).1.at 0 0,
        (c.run [.set 0 0 1, .set 0 0 2]).2, (c.run [.set 0 0 1, .set 0 0 2]).1.at 0 0)) =
      .ok (.ok 1, [.ok (), .error .typeOverflow], .ok 0) ∧
    ((new [1] [0, 0, 0, 0, 0, 0, 0, 0, 0xFF]).map fun c => (c.run [.set 1 0 0]).1.at 0 0) =
      .ok (.ok 1) ∧
    ((new (List.replicate 256 1) []).map fun c => (c.run [.set 0 0 1]).1.at 0 1) =
      .ok (.error .undefinedBehaviour) := by
  refine ⟨by decide +kernel, by decide +kernel, ?_⟩
  rw [new_ones]
  decide +kernel

end MultiVarBitArrayCreator

end Sserialize
