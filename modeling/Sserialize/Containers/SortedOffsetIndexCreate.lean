import Sserialize.Containers.SortedOffsetIndex

namespace Sserialize

theorem s64_of_fits {z : Int} (hlow : -2 ^ 63 ≤ z) (hhigh : z < 2 ^ 63) : s64 z = z := by
  unfold s64
  omega

theorem u64_lt (z : Int) : u64 z < 2 ^ 64 := by
  unfold u64
  omega

theorem u64_of_lt {n : Nat} (hn : n < 2 ^ 64) : u64 n = n := by
  unfold u64
  omega

theorem s64_modEq (z : Int) : s64 z ≡ z [ZMOD 2 ^ 64] := by
  rw [Int.modEq_iff_dvd]
  refine ⟨(z + 2 ^ 63) / 2 ^ 64, ?_⟩
  unfold s64
  omega

theorem u64_modEq (z : Int) : (u64 z : Int) ≡ z [ZMOD 2 ^ 64] := by
  have hnonneg := Int.emod_nonneg z (show (2 : Int) ^ 64 ≠ 0 by decide)
  rw [u64, Int.toNat_of_nonneg hnonneg]
  exact Int.mod_modEq z _

theorem u64_eq_of_modEq {z : Int} {n : Nat} (hn : n < 2 ^ 64) (h : z ≡ n [ZMOD 2 ^ 64]) :
    u64 z = n := by
  rw [u64, h.eq]
  exact u64_of_lt hn

theorem u64_s64 {n : Nat} (hn : n < 2 ^ 64) : u64 (s64 n) = n :=
  u64_eq_of_modEq hn (s64_modEq _)

theorem CompactUintArray.minStorageBits_pos (number : Nat) : 0 < minStorageBits number :=
  Nat.le_max_left 1 _

theorem CompactUintArray.minStorageBits_le (number : Nat) : minStorageBits number ≤ 64 :=
  Nat.max_le.mpr ⟨by decide, msb64_lt number⟩

theorem CompactUintArray.lt_two_pow_minStorageBits {number : Nat} (h : number < 2 ^ 64) :
    number < 2 ^ minStorageBits number :=
  (lt_two_pow_msb64 h).trans_le (Nat.pow_le_pow_right (by decide) (Nat.le_max_right 1 _))

namespace SortedOffsetIndex

theorem offSetCorrectedId_lt (p : Params) (size count id : Nat) :
    offSetCorrectedId p size count id < 2 ^ 64 :=
  u64_lt _

theorem offSetCorrectedId_modEq (p : Params) (size count id : Nat) :
    (offSetCorrectedId p size count id : Int) ≡
      id - (p.yintercept + getRegLineSlopeCorrectionValue p.slopenom size count) + p.idOffset
      [ZMOD 2 ^ 64] := by
  unfold offSetCorrectedId
  generalize getRegLineSlopeCorrectionValue p.slopenom size count = r
  have hcorrection : s64 (p.yintercept + s64 r) ≡ p.yintercept + r [ZMOD 2 ^ 64] :=
    (s64_modEq _).trans ((s64_modEq r).add_left _)
  have hdiff := (s64_modEq _).trans ((s64_modEq id).sub hcorrection)
  exact (u64_modEq _).trans ((s64_modEq _).trans (hdiff.add (s64_modEq p.idOffset)))

variable {p : Params}

theorem at_eq {index : SortedOffsetIndex} {pos id : Nat} (hpos : pos < index.size)
    (hsize : 1 < index.size) (hid : id < 2 ^ 64) (hslope : index.slopenom = p.slopenom)
    (hyintercept : index.yintercept = p.yintercept) (hoffset : index.idOffset = s64 p.idOffset)
    (hstored : index.idStore.at pos = .ok (offSetCorrectedId p index.size pos id)) :
    index.at pos = .ok id := by
  have hresidual := offSetCorrectedId_modEq p index.size pos id
  unfold «at»
  rw [if_neg (Nat.not_le_of_lt hpos), if_pos hsize, hstored, ok_bind, hslope, hyintercept,
    hoffset]
  generalize offSetCorrectedId p index.size pos id = stored at *
  generalize getRegLineSlopeCorrectionValue p.slopenom index.size pos = r at *
  have hpositive : (u64 (r + stored : Nat) : Int) ≡ id - p.yintercept + p.idOffset
      [ZMOD 2 ^ 64] := by
    refine (u64_modEq _).trans ?_
    rw [Nat.cast_add]
    calc (r : Int) + stored ≡ r + (id - (p.yintercept + r) + p.idOffset) [ZMOD 2 ^ 64] :=
          hresidual.add_left _
      _ = id - p.yintercept + p.idOffset := by ring
  have hnegative : s64 (p.yintercept - s64 p.idOffset) ≡ p.yintercept - p.idOffset
      [ZMOD 2 ^ 64] :=
    (s64_modEq _).trans ((s64_modEq _).sub_left _)
  dsimp only
  split
  · have hsum : ((u64 (r + stored : Nat) + u64 (s64 (p.yintercept - s64 p.idOffset)) : Nat) : Int) ≡
        id [ZMOD 2 ^ 64] := by
      rw [Nat.cast_add]
      calc (u64 (r + stored : Nat) : Int) + u64 (s64 (p.yintercept - s64 p.idOffset))
          ≡ (id - p.yintercept + p.idOffset) + (p.yintercept - p.idOffset) [ZMOD 2 ^ 64] :=
            hpositive.add ((u64_modEq _).trans hnegative)
        _ = id := by ring
    rw [u64_eq_of_modEq hid hsum]
    rfl
  · have hdiff : (u64 (r + stored : Nat) : Int) -
        u64 (s64 (-s64 (p.yintercept - s64 p.idOffset))) ≡ id [ZMOD 2 ^ 64] := by
      have hneg := (u64_modEq _).trans ((s64_modEq _).trans hnegative.neg)
      calc (u64 (r + stored : Nat) : Int) - u64 (s64 (-s64 (p.yintercept - s64 p.idOffset)))
          ≡ (id - p.yintercept + p.idOffset) - -(p.yintercept - p.idOffset) [ZMOD 2 ^ 64] :=
            hpositive.sub hneg
        _ = id := by ring
    rw [u64_eq_of_modEq hid hdiff]
    rfl

theorem diffRange_spec (slopenom : Nat) (yintercept : Int) (size : Nat) (ids : List Nat)
    (count : Nat) (maxPositive minNegative : Int) :
    maxPositive ≤ (diffRange slopenom yintercept size ids count maxPositive minNegative).1 ∧
      (diffRange slopenom yintercept size ids count maxPositive minNegative).2 ≤ minNegative ∧
      ∀ i, ∀ h : i < ids.length,
        (diffRange slopenom yintercept size ids count maxPositive minNegative).2 ≤
            curDiff slopenom yintercept size (count + i) ids[i] ∧
          curDiff slopenom yintercept size (count + i) ids[i] ≤
            (diffRange slopenom yintercept size ids count maxPositive minNegative).1 := by
  induction ids generalizing count maxPositive minNegative with
  | nil => exact ⟨Int.le_refl _, Int.le_refl _, fun i h => absurd h (Nat.not_lt_zero i)⟩
  | cons id ids ih =>
    unfold diffRange
    dsimp only
    generalize hdiff : curDiff slopenom yintercept size count id = diff
    generalize hhigh : (if diff > maxPositive then diff else maxPositive) = high
    generalize hlow : (if diff < minNegative then diff else minNegative) = low
    obtain ⟨hmax, hmin, hall⟩ := ih (count + 1) high low
    have hboundHigh : maxPositive ≤ high ∧ diff ≤ high := by
      split at hhigh <;> omega
    have hboundLow : low ≤ minNegative ∧ low ≤ diff := by
      split at hlow <;> omega
    refine ⟨hboundHigh.1.trans hmax, hmin.trans hboundLow.1, ?_⟩
    intro i h
    cases i with
    | zero =>
      have hfirst : curDiff slopenom yintercept size (count + 0) (id :: ids)[0] = diff := hdiff
      rw [hfirst]
      exact ⟨hmin.trans hboundLow.2, hboundHigh.2.trans hmax⟩
    | succ i =>
      have hnext : count + (i + 1) = count + 1 + i := by omega
      rw [hnext, List.getElem_cons_succ]
      exact hall i (Nat.lt_of_succ_lt_succ h)

/-- The parameters fit: the number of entries fits in the header, the intercept is one that the
signed varint can represent, and the range of the residuals is an `int64_t`. -/
structure ParamsFit (line : RegLine) (ids : List Nat) : Prop where
  size : ids.length ≤ maxSize
  yintercept : 1 < ids.length → -2 ^ 63 < line.yintercept
  range : 1 < ids.length →
    (diffRange line.slopenom line.yintercept ids.length ids 0 0 0).1 -
      (diffRange line.slopenom line.yintercept ids.length ids 0 0 0).2 + 1 < 2 ^ 63

structure Params.Valid (p : Params) (ids : List Nat) : Prop where
  bits_pos : 0 < p.bitsForIds
  bits_le : p.bitsForIds ≤ 64
  slopenom_lt : p.slopenom < 2 ^ 64
  yintercept_gt : -2 ^ 63 < p.yintercept
  yintercept_lt : p.yintercept < 2 ^ 63
  idOffset_lt : p.idOffset < 2 ^ 64
  stored_lt : ∀ i, ∀ h : i < ids.length,
    offSetCorrectedId p ids.length i ids[i] < 2 ^ p.bitsForIds

theorem offSetCorrectedId_plain (bits size count : Nat) {id : Nat} (hid : id < 2 ^ 64) :
    offSetCorrectedId { bitsForIds := bits, slopenom := 0, yintercept := 0, idOffset := 0 }
      size count id = id := by
  have hzero : getRegLineSlopeCorrectionValue 0 size count = 0 := by
    simp [getRegLineSlopeCorrectionValue, u64]
  have hmod := offSetCorrectedId_modEq
    { bitsForIds := bits, slopenom := 0, yintercept := 0, idOffset := 0 } size count id
  simp only [hzero, Nat.cast_zero, Int.add_zero, Int.sub_zero] at hmod
  exact (u64_of_lt (offSetCorrectedId_lt _ _ _ _)).symm.trans (u64_eq_of_modEq hid hmod)

theorem offSetCorrectedId_line {size count id : Nat} {low high : Int}
    (hlow : low ≤ curDiff p.slopenom p.yintercept size count id)
    (hhigh : curDiff p.slopenom p.yintercept size count id ≤ high) (hnonpos : low ≤ 0)
    (hnonneg : 0 ≤ high) (hrange : high - low + 1 < 2 ^ 63) (hoffset : p.idOffset = low.natAbs) :
    offSetCorrectedId p size count id < (high - low + 1).toNat := by
  have hs64 : s64 p.idOffset = -low := by
    rw [hoffset, s64_of_fits (by omega) (by omega)]
    omega
  have hdiff : s64 (s64 id - s64 (p.yintercept +
      s64 (getRegLineSlopeCorrectionValue p.slopenom size count))) =
      curDiff p.slopenom p.yintercept size count id := by
    rw [curDiff, Int.add_comm p.yintercept]
  generalize curDiff p.slopenom p.yintercept size count id = diff at *
  unfold offSetCorrectedId
  dsimp only
  rw [hdiff, hs64, s64_of_fits (by omega) (by omega)]
  unfold u64
  omega

variable {ids : List Nat}

theorem chooseParams_spec {line : RegLine} (hfit : ParamsFit line ids) (hlen : 1 < ids.length)
    (hsorted : ids.Pairwise (· ≤ ·)) (hids : ∀ id ∈ ids, id < 2 ^ 64) :
    ∃ p, chooseParams line ids = .ok p ∧ p.Valid ids := by
  obtain ⟨hmax, hmin, hall⟩ :=
    diffRange_spec line.slopenom line.yintercept ids.length ids 0 0 0
  have hrange := hfit.range hlen
  unfold chooseParams getNeededBitsForLinearRegression
  generalize hr : diffRange line.slopenom line.yintercept ids.length ids 0 0 0 = r at *
  obtain ⟨high, low⟩ := r
  dsimp only at hmax hmin hall hrange
  have hnarrow : narrowCheckU64 (s64 (s64 (high - low) + 1)) = .ok (high - low + 1).toNat := by
    rw [s64_of_fits (z := high - low) (by omega) (by omega), s64_of_fits (by omega) (by omega)]
    exact if_neg (by omega)
  simp only [hnarrow, ok_bind, except_pure]
  have hbits : (high - low + 1).toNat <
      2 ^ CompactUintArray.minStorageBits (high - low + 1).toNat :=
    CompactUintArray.lt_two_pow_minStorageBits (by omega)
  split
  · refine ⟨_, rfl, CompactUintArray.minStorageBits_pos _, CompactUintArray.minStorageBits_le _,
      Nat.two_pow_pos 64, by dsimp only; omega, by dsimp only; omega, Nat.two_pow_pos 64, ?_⟩
    intro i h
    have hlast : ids.getLastD 0 = ids[ids.length - 1] := by
      rw [List.getLastD_eq_getLast?, List.getLast?_eq_getElem?, List.getElem?_eq_getElem (by omega)]
      rfl
    have hle : ids[i] ≤ ids[ids.length - 1] := by
      rcases Nat.lt_or_ge i (ids.length - 1) with hlt | hge
      · exact List.pairwise_iff_getElem.mp hsorted i _ h (by omega) hlt
      · have hsame : i = ids.length - 1 := by omega
        simp only [hsame, Nat.le_refl]
    rw [offSetCorrectedId_plain _ _ _ (hids _ (List.getElem_mem h)), hlast]
    exact Nat.lt_of_le_of_lt hle
      (CompactUintArray.lt_two_pow_minStorageBits (hids _ (List.getElem_mem (by omega))))
  · refine ⟨_, rfl, CompactUintArray.minStorageBits_pos _, CompactUintArray.minStorageBits_le _,
      line.slopenom_lt, hfit.yintercept hlen, line.yintercept_lt, by dsimp only; omega, ?_⟩
    intro i h
    obtain ⟨hlow, hhigh⟩ := hall i h
    rw [Nat.zero_add] at hlow hhigh
    refine Nat.lt_trans ?_ hbits
    exact offSetCorrectedId_line hlow hhigh hmin hmax hrange rfl

theorem length_offSetCorrectedIds (p : Params) (size : Nat) (ids : List Nat) (count : Nat) :
    (offSetCorrectedIds p size ids count).length = ids.length := by
  induction ids generalizing count with
  | nil => rfl
  | cons id ids ih => rw [offSetCorrectedIds, List.length_cons, List.length_cons, ih]

theorem getElem_offSetCorrectedIds (p : Params) (size : Nat) (ids : List Nat) (count : Nat)
    {i : Nat} (h : i < ids.length) :
    (offSetCorrectedIds p size ids count).getD i 0 =
      offSetCorrectedId p size (count + i) ids[i] := by
  induction ids generalizing count i with
  | nil => cases h
  | cons id ids ih =>
    cases i with
    | zero =>
      rw [offSetCorrectedIds, List.getD_cons_zero, Nat.add_zero, List.getElem_cons_zero]
    | succ i =>
      have hnext : count + (i + 1) = count + 1 + i := by omega
      rw [offSetCorrectedIds, List.getD_cons_succ, ih _ (Nat.lt_of_succ_lt_succ h), hnext,
        List.getElem_cons_succ]

theorem Params.Valid.stored (h : p.Valid ids) :
    ∀ v ∈ offSetCorrectedIds p ids.length ids 0, v < 2 ^ p.bitsForIds := by
  intro v hv
  obtain ⟨i, hi, rfl⟩ := List.mem_iff_getElem.mp hv
  rw [← List.getD_eq_getElem _ 0 hi]
  rw [length_offSetCorrectedIds] at hi
  rw [getElem_offSetCorrectedIds _ _ _ _ hi, Nat.zero_add]
  exact h.stored_lt i hi

theorem countTypeHeader_eq (size : Nat) {bits : Nat} (hpos : 0 < bits) (hle : bits ≤ 64) :
    size <<< idBits ||| (bits - 1) = 64 * size + (bits - 1) := by
  rw [← Nat.shiftLeft_add_eq_or_of_lt (show bits - 1 < 2 ^ idBits by unfold idBits; omega),
    Nat.shiftLeft_eq, Nat.mul_comm]
  rfl

theorem lt_of_le_maxSize {size : Nat} (h : size ≤ maxSize) : 64 * size + 63 < 2 ^ 64 := by
  unfold maxSize createMask idBits at h
  omega

theorem psizeVu64_countTypeHeader (size : Nat) {low : Nat} (hlow : low < 64) :
    psizeVu64 (size <<< 6) = psizeVu64 (64 * size + low) := by
  have hshift : (size <<< 6) >>> 7 = (64 * size + low) >>> 7 := by
    rw [Nat.shiftLeft_eq, Nat.shiftRight_eq_div_pow, Nat.shiftRight_eq_div_pow]
    omega
  have hten : maxBytes 64 = 9 + 1 := rfl
  unfold psizeVu64 psizeVOf
  rw [hten]
  unfold psizeV
  rw [hshift]

theorem init_header (h : p.Valid ids) (hlen : 1 < ids.length) (hsize : ids.length ≤ maxSize)
    {data : Bytes} (hdata : ids.length ≤ data.length * 8 / p.bitsForIds) :
    init (header p ids.length ++ data) =
      .ok { idStore := { data := data, bpn := p.bitsForIds,
                         maxCount := data.length * 8 / p.bitsForIds },
            size := ids.length, slopenom := p.slopenom, yintercept := p.yintercept,
            idOffset := s64 p.idOffset } := by
  have hpos := h.bits_pos
  have hle := h.bits_le
  have hbound := lt_of_le_maxSize hsize
  have hcount : 64 * ids.length + (p.bitsForIds - 1) < 2 ^ 64 := by omega
  have hbpn : (64 * ids.length + (p.bitsForIds - 1)) &&& 0x3F = p.bitsForIds - 1 := by
    have hmod : (64 * ids.length + (p.bitsForIds - 1)) % 2 ^ 6 = p.bitsForIds - 1 := by omega
    exact (Nat.and_two_pow_sub_one_eq_mod _ 6).trans hmod
  have hshift : (64 * ids.length + (p.bitsForIds - 1)) >>> 6 = ids.length := by
    rw [Nat.shiftRight_eq_div_pow]
    omega
  have hofData : CompactUintArray.ofData data p.bitsForIds =
      { data := data, bpn := p.bitsForIds, maxCount := data.length * 8 / p.bitsForIds } := by
    rw [CompactUintArray.ofData, CompactUintArray.clampBits_eq hpos hle]
  unfold init header
  rw [countTypeHeader_eq _ hpos hle]
  simp only [List.append_assoc]
  rw [consumeVlPackedUint64_append hcount, ok_bind]
  simp only [hbpn, hshift, if_pos hlen, consumeVlPackedInt64_append h.yintercept_gt h.yintercept_lt,
    consumeVlPackedUint64_append h.slopenom_lt, consumeVlPackedUint64_append h.idOffset_lt, ok_bind,
    Nat.sub_add_cancel hpos, hofData, if_neg (Nat.not_lt_of_le hdata), except_pure]

theorem length_header (h : p.Valid ids) (hsize : ids.length ≤ maxSize) :
    (header p ids.length).length =
      psizeVu64 (ids.length <<< 6) + psizeVs64 p.yintercept + psizeVu64 p.slopenom +
        psizeVu64 p.idOffset := by
  have hpos := h.bits_pos
  have hle := h.bits_le
  have hbound := lt_of_le_maxSize hsize
  have hcount : 64 * ids.length + (p.bitsForIds - 1) < 2 ^ 64 := by omega
  unfold header
  rw [countTypeHeader_eq _ hpos hle, psizeVu64_countTypeHeader _ (show p.bitsForIds - 1 < 64 by omega)]
  simp only [List.length_append]
  rw [length_putVlPackedUint64 hcount, length_putVlPackedInt64,
    length_putVlPackedUint64 h.slopenom_lt, length_putVlPackedUint64 h.idOffset_lt]

/-- What is read from `written`, whatever is behind it: the list, and the number of bytes. -/
def ReadsAs (written : Bytes) (ids : List Nat) : Prop :=
  ∀ tail, ∃ index, init (written ++ tail) = .ok index ∧ index.size = ids.length ∧
    index.getSizeInBytes = written.length ∧
    ∀ i, ∀ h : i < ids.length, index.at i = .ok ids[i]

theorem createLine_spec (h : p.Valid ids) (hlen : 1 < ids.length) (hsize : ids.length ≤ maxSize)
    (hids : ∀ id ∈ ids, id < 2 ^ 64) (space : Bytes)
    (hspace : CompactUintArray.minStorageBytes p.bitsForIds ids.length ≤ space.length) :
    ∃ idStore, CompactUintArray.createOver space (offSetCorrectedIds p ids.length ids 0)
        p.bitsForIds = .ok idStore ∧ idStore.length = space.length ∧
      ReadsAs (header p ids.length ++
        idStore.take (CompactUintArray.minStorageBytes p.bitsForIds ids.length)) ids := by
  have hpos := h.bits_pos
  have hle := h.bits_le
  have hcount := length_offSetCorrectedIds p ids.length ids 0
  obtain ⟨idStore, hcreate, hlength, hbits⟩ := CompactUintArray.createOver_bits
    (offSetCorrectedIds p ids.length ids 0) hpos hle (by rwa [hcount])
  refine ⟨idStore, hcreate, hlength, ?_⟩
  intro tail
  generalize hneed : CompactUintArray.minStorageBytes p.bitsForIds ids.length = need at *
  have hbytes := CompactUintArray.le_minStorageBytes p.bitsForIds ids.length
  rw [hneed] at hbytes
  have htake : (idStore.take need).length = need := by
    rw [List.length_take]
    omega
  have hdata : (idStore.take need ++ tail).length = need + tail.length := by
    rw [List.length_append, htake]
  have hmax : ids.length ≤ (idStore.take need ++ tail).length * 8 / p.bitsForIds := by
    rw [Nat.le_div_iff_mul_le hpos, hdata]
    omega
  rw [List.append_assoc]
  refine ⟨_, init_header h hlen hsize hmax, rfl, ?_, ?_⟩
  · have hoffset : u64 (s64 p.idOffset) = p.idOffset := u64_s64 h.idOffset_lt
    obtain ⟨n, hn⟩ : ∃ n, ids.length = n + 2 := ⟨ids.length - 2, by omega⟩
    have hwritten : (header p ids.length ++ idStore.take need).length =
        psizeVu64 (ids.length <<< 6) + psizeVs64 p.yintercept + psizeVu64 p.slopenom +
          psizeVu64 p.idOffset + need := by
      rw [List.length_append, length_header h hsize, htake]
    rw [hwritten, ← hneed]
    unfold getSizeInBytes CompactUintArray.minStorageBytes
    simp only [hn, hoffset]
    omega
  · intro i hi
    have hid : ids[i] < 2 ^ 64 := hids _ (List.getElem_mem hi)
    refine at_eq hi hlen hid rfl rfl rfl ?_
    have hstored : ∀ j < (offSetCorrectedIds p ids.length ids 0).length, ∀ t < p.bitsForIds,
        BitString.bit (idStore.take need ++ tail) (j * p.bitsForIds + t) =
          ((offSetCorrectedIds p ids.length ids 0).getD j 0).testBit t := by
      intro j hj t ht
      have hentry := CompactUintArray.mul_le_of_lt p.bitsForIds (show j < ids.length by
        rwa [hcount] at hj)
      rw [BitString.bit_append_left (by rw [htake]; omega), BitString.bit_take,
        decide_eq_true (by omega), Bool.true_and, hbits j hj t ht]
    have hread := CompactUintArray.at_of_bits hpos hle h.stored
      (by rw [hcount, hneed, hdata]; omega) hstored
      ((idStore.take need ++ tail).length * 8 / p.bitsForIds) (by rwa [hcount]) (by rwa [hcount])
    rw [getElem_offSetCorrectedIds _ _ _ _ hi, Nat.zero_add] at hread
    exact hread

theorem readsAs_nil : ReadsAs [0] [] := by
  intro tail
  have hzero : ([0] : Bytes) = putVlPackedUint64 0 := rfl
  refine ⟨{ idStore := .new, size := 0, slopenom := 0, yintercept := 0, idOffset := 0 },
    ?_, rfl, rfl, fun i h => absurd h (Nat.not_lt_zero i)⟩
  rw [hzero, init, consumeVlPackedUint64_append (by decide), ok_bind]
  rfl

theorem readsAs_singleton {id : Nat} (hid : id < 2 ^ 64) :
    ReadsAs ([0x40] ++ putVlPackedUint64 id) [id] := by
  intro tail
  have hheader : ([0x40] : Bytes) = putVlPackedUint64 0x40 := rfl
  refine ⟨{ idStore := .new, size := 1, slopenom := 0, yintercept := s64 id, idOffset := 0 },
    ?_, rfl, ?_, ?_⟩
  · rw [hheader, List.append_assoc, init, consumeVlPackedUint64_append (by decide), ok_bind]
    simp only [consumeVlPackedUint64_append hid, ok_bind]
    rfl
  · rw [List.length_append, length_putVlPackedUint64 hid]
    simp only [getSizeInBytes, u64_s64 hid, List.length_singleton]
  · intro i h
    obtain rfl : i = 0 := by simpa using h
    have hat : u64 (s64 id) = id := u64_s64 hid
    simp only [SortedOffsetIndex.at, hat, List.getElem_cons_zero]
    rfl

theorem create_several {line : RegLine} (hlen : 1 < ids.length) (hsorted : ids.Pairwise (· ≤ ·))
    (hids : ∀ id ∈ ids, id < 2 ^ 64) (hfit : ParamsFit line ids) (old : Bytes) :
    ∃ bytes written, create line ids old = .ok (bytes, written) ∧ written ≤ bytes.length ∧
      ReadsAs (bytes.take written) ids := by
  obtain ⟨p, hchoose, hp⟩ := chooseParams_spec hfit hlen hsorted hids
  generalize hneed : CompactUintArray.minStorageBytes p.bitsForIds ids.length = need
  have hspace : need ≤ (old.drop (header p ids.length).length ++ List.replicate need 0).length := by
    rw [List.length_append, List.length_replicate]
    exact Nat.le_add_left _ _
  obtain ⟨idStore, hcreate, hlength, hreads⟩ := createLine_spec hp hlen hfit.size hids
    (old.drop (header p ids.length).length ++ List.replicate need 0) (by rwa [hneed])
  rw [hneed] at hreads
  refine ⟨header p ids.length ++ idStore, (header p ids.length).length + need, ?_, ?_, ?_⟩
  · unfold create
    rw [if_neg (Nat.not_lt_of_le hfit.size)]
    simp only [if_pos hlen, hchoose, ok_bind, hneed, hcreate, except_pure]
  · rw [List.length_append, hlength]
    omega
  · rw [List.take_length_add_append]
    exact hreads

/-- Whatever line is chosen, the list is read back from the written bytes. -/
theorem sortedOffsetIndex_create (line : RegLine) (ids : List Nat)
    (hsorted : ids.Pairwise (· ≤ ·)) (hids : ∀ id ∈ ids, id < 2 ^ 64)
    (hfit : ParamsFit line ids) (old : Bytes) :
    ∃ bytes written, create line ids old = .ok (bytes, written) ∧ written ≤ bytes.length ∧
      ReadsAs (bytes.take written) ids := by
  match ids with
  | [] =>
    refine ⟨_, _, rfl, Nat.succ_le_of_lt (Nat.zero_lt_succ _), ?_⟩
    exact readsAs_nil
  | [id] =>
    refine ⟨_, _, rfl, Nat.le.intro List.length_append.symm, ?_⟩
    rw [List.take_left]
    exact readsAs_singleton (hids id (List.mem_singleton_self id))
  | a :: b :: ids => exact create_several (by simp) hsorted hids hfit old

theorem sortedOffsetIndex_create_line :
    ∃ bytes written,
      create ⟨90, 10, by decide, by decide, by decide⟩ [10, 50, 110] [7] = .ok (bytes, written) ∧
        written ≤ bytes.length ∧ ReadsAs (bytes.take written) [10, 50, 110] :=
  sortedOffsetIndex_create ⟨90, 10, by decide, by decide, by decide⟩ [10, 50, 110] (by decide)
    (by decide) ⟨by decide, fun _ => by decide, fun _ => by decide⟩ [7]

end SortedOffsetIndex

end Sserialize
