import Sserialize.Containers.SortedOffsetIndex
import Sserialize.Iterator.MultiBit
import Sserialize.Library.ListBlocks
import Sserialize.Library.GreedyMinimal
import Sserialize.Library.Splice

/-!
# `PFoRCreator`

The differences of the ids are encoded in blocks. A block has an array of fixed width, and behind it
the values that do not fit, the outliers, as variable length integers. The optimizer knows the
number of bits of each value only.
-/

namespace Sserialize.PFoRCreator

open ListBlocks RunningMinimum Splice

/-! ## The optimizer for a block -/

/-- `OptimizerData::Entry`, which is known by its bits. -/
def entryBits (id : Nat) : Nat := if id = 0 then 0 else CompactUintArray.minStorageBits id

def vsize (bits : Nat) : Nat := if bits = 0 then 1 else bits / 7 + if bits % 7 > 0 then 1 else 0

/-- An array of 33 `uint32_t` by its positions; adding to one of them. -/
def add (storageSizes : Nat → Nat) (pos n : Nat) : Nat → Nat :=
  Function.update storageSizes pos (u32 (storageSizes pos + n))

def collect (entries : List Nat) : Nat → Nat :=
  entries.foldl (fun storageSizes bits => add storageSizes bits (vsize bits)) fun _ => 0

def sumUp : Nat → (Nat → Nat) → Nat → Nat
  | 0, storageSizes => storageSizes
  | bits + 1, storageSizes => sumUp bits (add storageSizes (bits + 1) (storageSizes (bits + 2)))

def addFixed (inputSize : Nat) (storageSizes : Nat → Nat) : Nat → Nat :=
  (List.range' 2 31).foldl
    (fun storageSizes bits =>
      add storageSizes bits (CompactUintArray.minStorageBytes (bits - 1) inputSize))
    storageSizes

def optBitsDist (storageSizes : Nat → Nat) (inputSize : Nat) : Nat × Nat :=
  let storageSizes := add storageSizes 32 (storageSizes 0)
  let storageSizes := sumUp 31 storageSizes
  let storageSizes := addFixed inputSize storageSizes
  (List.range' 2 31).foldl
    (fun opt bits => if storageSizes bits < opt.2 then (bits - 1, storageSizes bits) else opt)
    (0, 2 ^ 32 - 1)

def optBitsOD (entries : List Nat) : Nat × Nat :=
  if entries.length < 1 then (0, 0) else optBitsDist (collect entries) entries.length

/-! ## Encoding a block -/

structure Dest where
  data : Bytes
  putPtr : Nat
  deriving Repr, DecidableEq

def isOutlier (optBits value : Nat) : Bool := entryBits value > optBits || value = 0

def fixedPart (optBits : Nat) (values : List Nat) : Bytes :=
  ((MultiBitBackInserter.new []).pushBackRange optBits
    (values.map fun value => if isOutlier optBits value then 0 else value)).flush.data

def outlierPart (optBits : Nat) (values : List Nat) : Bytes :=
  (values.filter (isOutlier optBits)).flatMap pVu32

def blockBytes (optBits : Nat) (values : List Nat) : Bytes :=
  fixedPart optBits values ++ outlierPart optBits values

def reserveFromPutPtr (dest : Dest) (bytes : Nat) : Dest :=
  { dest with data := dest.data ++ List.replicate (dest.putPtr + bytes - dest.data.length) 0 }

def encodeBlock (dest : Dest) (values : List Nat) (optBits optStorageSize : Nat) : Dest :=
  let arrStorageSize := CompactUintArray.minStorageBytes optBits values.length
  let dest := reserveFromPutPtr dest optStorageSize
  let fixed := fixedPart optBits values
  let data := splice dest.data dest.putPtr fixed
  { data := splice data (dest.putPtr + arrStorageSize) (outlierPart optBits values)
    putPtr := dest.putPtr + fixed.length + (optStorageSize - arrStorageSize) }

/-! ## The size of a block -/

variable {v : Nat}

theorem msb64_eq_log2 (hv : v ≠ 0) (hlt : v < 2 ^ 32) : msb64 v = Nat.log2 v := by
  rw [msb64, Nat.shiftRight_eq_div_pow, Nat.div_eq_of_lt hlt, if_neg (not_not_intro rfl),
    u32_of_lt hlt, msb_eq_log2 hv hlt]

theorem entryBits_of_ne_zero (hv : v ≠ 0) (hlt : v < 2 ^ 32) : entryBits v = Nat.log2 v + 1 := by
  rw [entryBits, if_neg hv, CompactUintArray.minStorageBits, msb64_eq_log2 hv hlt]
  exact Nat.max_eq_right (Nat.le_add_left 1 _)

theorem entryBits_le_iff {v k : Nat} (hlt : v < 2 ^ 32) : entryBits v ≤ k ↔ v < 2 ^ k := by
  by_cases hv : v = 0
  · rw [hv]
    exact iff_of_true (Nat.zero_le k) (Nat.two_pow_pos k)
  · rw [entryBits_of_ne_zero hv hlt, ← Nat.log2_lt hv]
    rfl

theorem entryBits_le (hlt : v < 2 ^ 32) : entryBits v ≤ 32 :=
  (entryBits_le_iff hlt).mpr hlt

theorem entryBits_eq_zero_iff (hlt : v < 2 ^ 32) : entryBits v = 0 ↔ v = 0 := by
  rw [← Nat.le_zero, entryBits_le_iff hlt, Nat.pow_zero, Nat.lt_one_iff]

theorem vsize_eq (bits : Nat) : vsize bits = max 1 ((bits + 6) / 7) := by
  rw [vsize]
  split
  · omega
  · split
    · omega
    · omega

theorem vsize_entryBits (hlt : v < 2 ^ 32) : vsize (entryBits v) = (pVu32 v).length := by
  have h32 := entryBits_le hlt
  have h7 := @entryBits_le_iff v 7 hlt
  have h14 := @entryBits_le_iff v 14 hlt
  have h21 := @entryBits_le_iff v 21 hlt
  have h28 := @entryBits_le_iff v 28 hlt
  rw [vsize_eq, pVu32]
  simp only [Nat.shiftRight_eq_div_pow]
  split
  · rw [List.length_singleton]
    omega
  · split
    · rw [List.length_cons, List.length_singleton]
      omega
    · split
      · simp only [List.length_cons, List.length_nil]
        omega
      · split
        · simp only [List.length_cons, List.length_nil]
          omega
        · simp only [List.length_cons, List.length_nil]
          omega

theorem isOutlier_eq {optBits v : Nat} (hlt : v < 2 ^ 32) :
    isOutlier optBits v = decide (optBits < entryBits v ∨ entryBits v = 0) := by
  rw [isOutlier, ← Bool.decide_or]
  exact decide_eq_decide.mpr (or_congr_right (entryBits_eq_zero_iff hlt).symm)

variable {optBits : Nat}

theorem length_fixedPart (hbits : optBits ≤ 64) (values : List Nat) :
    (fixedPart optBits values).length =
      CompactUintArray.minStorageBytes optBits values.length := by
  have hinserted := MultiBitBackInserter.inserted_pushBackRange
    (values.map fun value => if isOutlier optBits value then 0 else value)
    (MultiBitBackInserter.inserted_new []) hbits
  obtain ⟨pad, hpad, heq⟩ := MultiBitBackInserter.bits_flush hinserted
  have hlength := congrArg List.length heq
  rw [BitString.length_bits, List.length_append, List.length_append, List.length_replicate,
    BitString.length_code, List.length_map] at hlength
  change 8 * (fixedPart optBits values).length = _ at hlength
  rw [CompactUintArray.minStorageBytes]
  rw [BitString.bits_nil, List.length_nil, Nat.mul_comm optBits] at hlength
  split
  · omega
  · omega

def varSize (p : Nat → Bool) (entries : List Nat) : Nat :=
  ((entries.filter p).map vsize).sum

def blockSize (optBits : Nat) (entries : List Nat) : Nat :=
  CompactUintArray.minStorageBytes optBits entries.length +
    varSize (fun bits => optBits < bits ∨ bits = 0) entries

variable {values : List Nat}

theorem length_outlierPart (h : ∀ v ∈ values, v < 2 ^ 32) :
    (outlierPart optBits values).length =
      varSize (fun bits => optBits < bits ∨ bits = 0) (values.map entryBits) := by
  induction values with
  | nil => rfl
  | cons v values ih =>
    obtain ⟨hv, hvalues⟩ := List.forall_mem_cons.mp h
    have ih := ih hvalues
    rw [outlierPart, varSize] at ih ⊢
    rw [List.map_cons, List.filter_cons, List.filter_cons, isOutlier_eq hv]
    split
    · rw [List.flatMap_cons, List.length_append, List.map_cons, List.sum_cons, vsize_entryBits hv, ih]
    · exact ih

theorem length_blockBytes (hbits : optBits ≤ 64) (hvalues : ∀ v ∈ values, v < 2 ^ 32) :
    (blockBytes optBits values).length = blockSize optBits (values.map entryBits) := by
  rw [blockBytes, List.length_append, length_fixedPart hbits, length_outlierPart hvalues, blockSize,
    List.length_map]

theorem encodeBlock_eq {dest : Dest} (hdest : dest.putPtr ≤ dest.data.length)
    (hvalues : ∀ v ∈ values, v < 2 ^ 32) (hbits : optBits ≤ 64) :
    encodeBlock dest values optBits (blockSize optBits (values.map entryBits)) =
      ⟨splice dest.data dest.putPtr (blockBytes optBits values),
        dest.putPtr + (blockBytes optBits values).length⟩ := by
  have hfixed := length_fixedPart hbits values
  have hlength := length_blockBytes hbits hvalues
  rw [hlength, encodeBlock, reserveFromPutPtr]
  dsimp only
  rw [← hfixed, splice_splice (by rw [List.length_append]; omega)]
  change Dest.mk (splice _ _ (blockBytes optBits values)) _ = _
  congr 1
  · refine splice_append_of_le hdest ?_
    rw [hlength, List.length_replicate]
    omega
  · rw [← hlength, blockBytes, List.length_append]
    omega

/-! ## The optimal bits of a block -/

theorem varSize_cons (p : Nat → Bool) (bits : Nat) (entries : List Nat) :
    varSize p (bits :: entries) = (if p bits then vsize bits else 0) + varSize p entries := by
  rw [varSize, varSize, List.filter_cons]
  split
  · rw [List.map_cons, List.sum_cons]
  · rw [Nat.zero_add]

variable {entries : List Nat}

theorem varSize_add {p q r : Nat → Bool}
    (h : ∀ bits ∈ entries, (r bits = true ↔ p bits = true ∨ q bits = true) ∧
      ¬ (p bits = true ∧ q bits = true)) :
    varSize p entries + varSize q entries = varSize r entries := by
  induction entries with
  | nil => rfl
  | cons bits entries ih =>
    obtain ⟨⟨hr, hdisjoint⟩, hentries⟩ := List.forall_mem_cons.mp h
    rw [varSize_cons, varSize_cons, varSize_cons, ← ih hentries]
    by_cases hp : p bits = true
    · rw [if_pos hp, if_pos (hr.mpr (.inl hp)), if_neg fun hq => hdisjoint ⟨hp, hq⟩]
      omega
    · by_cases hq : q bits = true
      · rw [if_neg hp, if_pos hq, if_pos (hr.mpr (.inr hq))]
        omega
      · rw [if_neg hp, if_neg hq, if_neg fun h => (hr.mp h).elim hp hq]
        omega

@[simp] theorem add_self (storageSizes : Nat → Nat) (pos n : Nat) :
    add storageSizes pos n pos = u32 (storageSizes pos + n) :=
  Function.update_self pos _ storageSizes

theorem add_of_ne {storageSizes : Nat → Nat} {pos n i : Nat} (h : i ≠ pos) :
    add storageSizes pos n i = storageSizes i :=
  Function.update_of_ne h _ storageSizes

theorem collect_eq (entries : List Nat) (pos : Nat) :
    collect entries pos = u32 (varSize (fun bits => bits = pos) entries) := by
  have hgen : ∀ storageSizes : Nat → Nat, storageSizes pos < 2 ^ 32 →
      entries.foldl (fun storageSizes bits => add storageSizes bits (vsize bits)) storageSizes pos =
        u32 (storageSizes pos + varSize (fun bits => bits = pos) entries) := by
    induction entries with
    | nil => exact fun storageSizes hlt => (u32_of_lt hlt).symm
    | cons bits entries ih =>
      intro storageSizes hlt
      rw [List.foldl_cons, varSize_cons]
      by_cases hpos : bits = pos
      · subst hpos
        rw [ih _ (by rw [add_self]; exact u32_lt _), add_self, u32_add_u32, if_pos (by simp),
          Nat.add_assoc]
      · rw [ih _ (by rwa [add_of_ne (Ne.symm hpos)]), add_of_ne (Ne.symm hpos),
          if_neg (by simpa using hpos), Nat.zero_add]
  rw [collect, hgen _ (by decide), Nat.zero_add]

theorem sumUp_eq (h32 : ∀ bits ∈ entries, bits ≤ 32) {k : Nat} (hk : k ≤ 31)
    {storageSizes : Nat → Nat}
    (hbelow : ∀ pos, 1 ≤ pos → pos ≤ k → storageSizes pos = collect entries pos)
    (habove : ∀ pos, k < pos → pos ≤ 32 →
      storageSizes pos = u32 (varSize (fun bits => pos ≤ bits ∨ bits = 0) entries)) :
    ∀ pos, 1 ≤ pos → pos ≤ 32 → sumUp k storageSizes pos =
      u32 (varSize (fun bits => pos ≤ bits ∨ bits = 0) entries) := by
  induction k generalizing storageSizes with
  | zero => exact fun pos hpos hpos' => habove pos hpos hpos'
  | succ k ih =>
    rw [sumUp]
    refine ih (by omega) (fun pos hpos hle => ?_) fun pos hpos hle => ?_
    · rw [add_of_ne (by omega)]
      exact hbelow pos hpos (by omega)
    · by_cases heq : pos = k + 1
      · subst heq
        rw [add_self, hbelow (k + 1) (by omega) le_rfl, habove (k + 2) (by omega) (by omega),
          collect_eq, u32_add_u32, Nat.add_comm, u32_add_u32, Nat.add_comm]
        congr 1
        refine varSize_add fun bits hbits => ?_
        have hle32 := h32 bits hbits
        simp only [decide_eq_true_eq]
        omega
      · rw [add_of_ne heq]
        exact habove pos (by omega) hle

theorem foldl_add_eq (g : Nat → Nat) {xs : List Nat} (hnodup : xs.Nodup)
    (storageSizes : Nat → Nat) (pos : Nat) :
    xs.foldl (fun storageSizes bits => add storageSizes bits (g bits)) storageSizes pos =
      if pos ∈ xs then u32 (storageSizes pos + g pos) else storageSizes pos := by
  induction xs generalizing storageSizes with
  | nil => rw [List.foldl_nil, if_neg List.not_mem_nil]
  | cons x xs ih =>
    obtain ⟨hx, hxs⟩ := List.nodup_cons.mp hnodup
    rw [List.foldl_cons, ih hxs]
    by_cases heq : pos = x
    · subst heq
      rw [if_neg hx, if_pos List.mem_cons_self, add_self]
    · rw [add_of_ne heq]
      simp only [List.mem_cons, heq, false_or]

theorem storageSizes_eq (h32 : ∀ bits ∈ entries, bits ≤ 32) (hpos : 1 ≤ optBits)
    (hle : optBits ≤ 31) :
    addFixed entries.length
        (sumUp 31 (add (collect entries) 32 (collect entries 0))) (optBits + 1) =
      u32 (blockSize optBits entries) := by
  have hsum : ∀ pos, 1 ≤ pos → pos ≤ 32 →
      sumUp 31 (add (collect entries) 32 (collect entries 0)) pos =
        u32 (varSize (fun bits => pos ≤ bits ∨ bits = 0) entries) := by
    refine sumUp_eq h32 le_rfl (fun pos _ hpos' => add_of_ne (by omega)) fun pos hpos hpos' => ?_
    obtain rfl : pos = 32 := by omega
    rw [add_self, collect_eq, collect_eq, u32_add_u32, Nat.add_comm, u32_add_u32, Nat.add_comm]
    congr 1
    refine varSize_add fun bits hbits => ?_
    have hle32 := h32 bits hbits
    simp only [decide_eq_true_eq]
    omega
  rw [addFixed, foldl_add_eq (fun bits => CompactUintArray.minStorageBytes (bits - 1) entries.length)
    List.nodup_range', if_pos (List.mem_range'_1.mpr (by omega)), hsum _ (by omega) (by omega),
    u32_add_u32, blockSize, Nat.add_comm, Nat.add_sub_cancel]
  rfl

theorem varSize_le {p : Nat → Bool} {entries : List Nat} (h32 : ∀ bits ∈ entries, bits ≤ 32) :
    varSize p entries ≤ 5 * entries.length := by
  induction entries with
  | nil => exact Nat.zero_le _
  | cons bits entries ih =>
    obtain ⟨hbits, hentries⟩ := List.forall_mem_cons.mp h32
    have ih := ih hentries
    have hsize : vsize bits ≤ 5 := by
      rw [vsize_eq]
      omega
    rw [varSize_cons, List.length_cons]
    split
    · omega
    · omega

theorem minStorageBytes_le (bpn count : Nat) :
    CompactUintArray.minStorageBytes bpn count ≤ count * bpn / 8 + 1 := by
  rw [CompactUintArray.minStorageBytes]
  split
  · exact le_rfl
  · omega

theorem minStorageBytes_pos {bpn count : Nat} (hbpn : 0 < bpn) (hcount : 0 < count) :
    0 < CompactUintArray.minStorageBytes bpn count := by
  have hbits := Nat.mul_pos hcount hbpn
  rw [CompactUintArray.minStorageBytes]
  split
  · omega
  · omega

theorem blockSize_lt (h32 : ∀ bits ∈ entries, bits ≤ 32) (hlength : entries.length ≤ 65536)
    (hle : optBits ≤ 31) : blockSize optBits entries < 2 ^ 32 - 1 := by
  have hvar := @varSize_le (fun bits => optBits < bits ∨ bits = 0) entries h32
  have hfixed := minStorageBytes_le optBits entries.length
  have hmul : entries.length * optBits ≤ 65536 * 31 := Nat.mul_le_mul hlength hle
  rw [blockSize]
  omega

theorem optBitsOD_spec (hne : entries ≠ []) (h32 : ∀ bits ∈ entries, bits ≤ 32)
    (hlength : entries.length ≤ 65536) :
    ∃ optBits, 1 ≤ optBits ∧ optBits ≤ 31 ∧
      optBitsOD entries = (optBits, blockSize optBits entries) ∧
      ∀ bits, 1 ≤ bits → bits ≤ 31 → blockSize optBits entries ≤ blockSize bits entries := by
  have hpos := List.length_pos_iff.mpr hne
  set f := addFixed entries.length
    (sumUp 31 (add (collect entries) 32 (collect entries 0))) with hf
  have hsizes : ∀ pos ∈ List.range' 2 31, f pos = blockSize (pos - 1) entries := by
    intro pos hmem
    have hrange := List.mem_range'_1.mp hmem
    obtain ⟨bits, rfl⟩ : ∃ bits, pos = bits + 1 := ⟨pos - 1, by omega⟩
    rw [hf, storageSizes_eq h32 (by omega) (by omega), Nat.add_sub_cancel]
    exact u32_of_lt ((blockSize_lt h32 hlength (by omega)).trans (by decide))
  have hopt : optBitsOD entries =
      (List.range' 2 31).foldl (keepSmaller f fun bits => bits - 1) (0, 2 ^ 32 - 1) := by
    rw [optBitsOD, if_neg (by omega)]
    rfl
  rcases @foldl_keepSmaller _ _ _ _ f (fun bits => bits - 1) (0, 2 ^ 32 - 1)
    (List.range' 2 31) with ⟨-, hle⟩ | ⟨pos, hmem, heq, -, hle⟩
  · have htwo : 2 ∈ List.range' 2 31 := by decide
    have hlt := blockSize_lt h32 hlength (show 1 ≤ 31 by decide)
    have hge := hle 2 htwo
    rw [hsizes 2 htwo] at hge
    exact absurd hge (Nat.not_le.mpr hlt)
  · have hrange := List.mem_range'_1.mp hmem
    refine ⟨pos - 1, by omega, by omega, ?_, fun bits hbits hbits' => ?_⟩
    · rw [hopt, heq, hsizes pos hmem]
    · have hmem' : bits + 1 ∈ List.range' 2 31 := List.mem_range'_1.mpr (by omega)
      have hge := hle (bits + 1) hmem'
      rwa [hsizes pos hmem, hsizes _ hmem', Nat.add_sub_cancel] at hge

end Sserialize.PFoRCreator
