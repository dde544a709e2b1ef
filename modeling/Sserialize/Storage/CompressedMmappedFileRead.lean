import Sserialize.Storage.CompressedMmappedFileCache

namespace Sserialize.CompressedMmappedFile

variable {cf : CompressedFile} {lzo : Lzo} {src : Bytes} {c : ChunkCache}

theorem chunkSize_eq (cf : CompressedFile) : cf.chunkSize = 2 ^ cf.chunkShift := by
  rw [CompressedFile.chunkSize, Nat.shiftLeft_eq, Nat.one_mul]

theorem inChunkOffSet_eq (cf : CompressedFile) (offset : Nat) :
    cf.inChunkOffSet offset = offset % cf.chunkSize := by
  rw [CompressedFile.inChunkOffSet, createMask, Nat.and_two_pow_sub_one_eq_mod, chunkSize_eq]

theorem Stores.chunk_eq (hstores : Stores cf lzo src) {offset : Nat} (h : offset ≤ src.length) :
    cf.chunk offset = offset / cf.chunkSize := by
  have hsize := hstores.size_lt
  have hshift : 2 ^ 16 ≤ 2 ^ cf.chunkShift := Nat.pow_le_pow_right (by decide) hstores.shift_ge
  have hdiv : offset / 2 ^ cf.chunkShift < 2 ^ 32 := by
    refine Nat.div_lt_of_lt_mul ?_
    calc offset < 2 ^ 40 := by omega
      _ ≤ 2 ^ 16 * 2 ^ 32 := by decide
      _ ≤ 2 ^ cf.chunkShift * 2 ^ 32 := Nat.mul_le_mul_right _ hshift
  rw [CompressedFile.chunk, Nat.shiftRight_eq_div_pow, chunkSize_eq, u32, Nat.mod_eq_of_lt hdiv]

theorem lt_chunkNums {chunkSize size i : Nat} (hpos : 0 < chunkSize) (h : i * chunkSize < size) :
    i < chunkNums chunkSize size := by
  have hle : i ≤ size / chunkSize := (Nat.le_div_iff_mul_le hpos).mpr h.le
  rw [chunkNums]
  by_cases hmod : size % chunkSize = 0
  · have hmul := Nat.div_mul_cancel (Nat.dvd_of_mod_eq_zero hmod)
    have hne : i ≠ size / chunkSize := by
      intro heq
      rw [heq, hmul] at h
      exact Nat.lt_irrefl _ h
    rw [if_pos hmod]
    omega
  · rw [if_neg hmod]
    omega

/-- The destination after `k` bytes of the source from `offset` on were copied to it. -/
def copied (src : Bytes) (offset : Nat) (dest : Bytes) (k : Nat) : Bytes :=
  (src.drop offset).take k ++ dest.drop k

theorem copied_zero (src : Bytes) (offset : Nat) (dest : Bytes) :
    copied src offset dest 0 = dest := by
  rw [copied, List.take_zero, List.drop_zero, List.nil_append]

theorem length_copied {offset k : Nat} {dest : Bytes} (hsrc : offset + k ≤ src.length)
    (hdest : k ≤ dest.length) : (copied src offset dest k).length = dest.length := by
  rw [copied, List.length_append, List.length_take, List.length_drop, List.length_drop]
  omega

theorem copied_add {offset k n : Nat} (dest : Bytes) (hsrc : offset + k ≤ src.length) :
    (copied src offset dest k).take k ++ (src.drop (offset + k)).take n ++
        (copied src offset dest k).drop (k + n) =
      copied src offset dest (k + n) := by
  have hlength : ((src.drop offset).take k).length = k := by
    rw [List.length_take, List.length_drop]
    omega
  have htake : (copied src offset dest k).take k = (src.drop offset).take k :=
    List.take_left' hlength
  have hdrop : (copied src offset dest k).drop (k + n) = dest.drop (k + n) := by
    rw [← List.drop_drop, copied, List.drop_left' hlength, List.drop_drop]
  rw [htake, hdrop, copied, List.take_add, List.drop_drop]

theorem take_drop_chunkOf {chunkSize chunk pos n : Nat} (h : pos + n ≤ chunkSize) :
    ((chunkOf chunkSize src chunk).drop pos).take n =
      (src.drop (chunk * chunkSize + pos)).take n := by
  rw [chunkOf, List.drop_take, List.take_take, List.drop_drop, Nat.min_eq_left (by omega)]

theorem length_chunkOf {chunkSize chunk : Nat} :
    (chunkOf chunkSize src chunk).length = min chunkSize (src.length - chunk * chunkSize) := by
  rw [chunkOf, List.length_take, List.length_drop]

theorem Inv.copyChunk (hstores : Stores cf lzo src) (h : Inv cf src c) (rand : Nat → Nat)
    (dest : Bytes) (n : Nat) {chunk pos offset k : Nat} (hchunk : chunk * cf.chunkSize < src.length)
    (hoffset : chunk * cf.chunkSize + pos = offset + k) (hpos : pos + n ≤ cf.chunkSize)
    (hsrc : offset + (k + n) ≤ src.length) (hdest : k + n ≤ dest.length) :
    ∃ c', copyChunk cf lzo rand chunk pos n (c, copied src offset dest k, k) =
        .ok (c', copied src offset dest (k + n), k + n) ∧ Inv cf src c' := by
  obtain ⟨c', pointer, bytes, hdata, hinv, hbytes, rest, hrest⟩ :=
    h.chunkData hstores rand (lt_chunkNums (chunkSize_pos cf) hchunk)
  have hlength : pos + n ≤ (chunkOf cf.chunkSize src chunk).length := by
    rw [length_chunkOf]
    omega
  have hlengthBytes : pos + n ≤ bytes.length := by
    rw [← hrest, List.length_append]
    omega
  have htake : (bytes.drop pos).take n = (src.drop (offset + k)).take n := by
    rw [← hrest, List.drop_append_of_le_length (by omega),
      List.take_append_of_le_length (by rw [List.length_drop]; omega), take_drop_chunkOf hpos,
      hoffset]
  have hroom : k + n ≤ (copied src offset dest k).length := by
    rw [length_copied (by omega) (by omega)]
    exact hdest
  refine ⟨c', ?_, hinv⟩
  rw [CompressedMmappedFile.copyChunk]
  dsimp only
  rw [hdata, ok_bind]
  dsimp only
  rw [bytesAt, hbytes, ok_bind, if_pos hlengthBytes, pure_bind, if_pos hroom, htake,
    copied_add dest (by omega)]
  rfl

theorem Inv.copyChunks (hstores : Stores cf lzo src) (rand : Nat → Nat) (dest : Bytes)
    {offset : Nat} (m : Nat) :
    ∀ {s k : Nat} {c : ChunkCache}, Inv cf src c → s * cf.chunkSize = offset + k →
    offset + (k + m * cf.chunkSize) ≤ src.length → k + m * cf.chunkSize ≤ dest.length →
    ∃ c', (List.range' s m).foldlM
        (fun x i => CompressedMmappedFile.copyChunk cf lzo rand i 0 cf.chunkSize x)
        (c, copied src offset dest k, k) =
        .ok (c', copied src offset dest (k + m * cf.chunkSize), k + m * cf.chunkSize) ∧
      Inv cf src c' := by
  induction m with
  | zero =>
    intro s k c h _ _ _
    refine ⟨c, ?_, h⟩
    rw [List.range'_zero, Nat.zero_mul, Nat.add_zero]
    rfl
  | succ m ih =>
    intro s k c h hs hsrc hdest
    have hpos := chunkSize_pos cf
    have hmul : k + (m + 1) * cf.chunkSize = k + cf.chunkSize + m * cf.chunkSize := by ring
    rw [hmul] at hsrc hdest ⊢
    have hbegin : s * cf.chunkSize + 0 = offset + k := hs
    obtain ⟨c₁, hcopy, hinv⟩ := h.copyChunk hstores rand dest cf.chunkSize
      (by omega) hbegin (by omega) (by omega) (by omega)
    have hs' : (s + 1) * cf.chunkSize = offset + (k + cf.chunkSize) := by
      rw [Nat.succ_mul, hs]
      omega
    obtain ⟨c₂, hloop, hinv₂⟩ := ih hinv hs' hsrc hdest
    refine ⟨c₂, ?_, hinv₂⟩
    rw [List.range'_succ, List.foldlM_cons, hcopy]
    exact hloop

/-- The number of bytes that a read of `len` bytes of the file copies. -/
def copiedLen (chunkSize offset len : Nat) : Nat :=
  if offset / chunkSize < (offset + len - 1) / chunkSize then
    (offset + len - 1) / chunkSize * chunkSize - offset + (offset + len) % chunkSize
  else len

theorem div_pred {chunkSize e : Nat} (h : e % chunkSize ≠ 0) :
    (e - 1) / chunkSize = e / chunkSize := by
  have hne : e ≠ 0 := by
    intro hzero
    rw [hzero, Nat.zero_mod] at h
    exact h rfl
  obtain ⟨d, rfl⟩ : ∃ d, e = d + 1 := ⟨e - 1, by omega⟩
  rw [Nat.add_sub_cancel, Nat.succ_div_of_mod_ne_zero h]

theorem div_pred_mul_add_mod_le (chunkSize e : Nat) :
    (e - 1) / chunkSize * chunkSize + e % chunkSize ≤ e := by
  by_cases hmod : e % chunkSize = 0
  · have hle := Nat.div_mul_le_self (e - 1) chunkSize
    omega
  · rw [div_pred hmod, Nat.div_add_mod']

theorem copiedLen_eq {chunkSize offset len : Nat} (hsize : 0 < chunkSize)
    (h : offset / chunkSize = (offset + len - 1) / chunkSize ∨ (offset + len) % chunkSize ≠ 0) :
    copiedLen chunkSize offset len = len := by
  rw [copiedLen]
  by_cases hlt : offset / chunkSize < (offset + len - 1) / chunkSize
  · have hmod : (offset + len) % chunkSize ≠ 0 := by
      rcases h with heq | hmod
      · exact absurd heq hlt.ne
      · exact hmod
    have hdiv := div_pred hmod
    have hle : offset ≤ (offset + len) / chunkSize * chunkSize := by
      rw [hdiv] at hlt
      exact ((Nat.div_lt_iff_lt_mul hsize).mp hlt).le
    rw [if_pos hlt, hdiv]
    have hsum := Nat.div_add_mod' (offset + len) chunkSize
    omega
  · rw [if_neg hlt]

theorem Inv.read (hstores : Stores cf lzo src) (h : Inv cf src c) (rand : Nat → Nat)
    {offset len : Nat} {dest : Bytes} (hlen : len ≠ 0) (hle : offset ≤ src.length)
    (hlt : offset / cf.chunkSize * cf.chunkSize < src.length)
    (hrange : offset + len < 2 ^ 64) (hdest : min len (src.length - offset) ≤ dest.length) :
    ∃ c', read cf lzo rand c offset dest len =
        .ok (c', copied src offset dest
            (copiedLen cf.chunkSize offset (min len (src.length - offset))),
          min len (src.length - offset)) ∧ Inv cf src c' := by
  have hlenEq : (if u64 (offset + len : Nat) > cf.size then cf.size - offset else len) =
      min len (src.length - offset) := by
    rw [u64, hstores.size]
    have hmod : (((offset + len : Nat) : Int) % 2 ^ 64).toNat = offset + len := by omega
    rw [hmod]
    by_cases hgt : offset + len > src.length
    · rw [if_pos hgt]
      omega
    · rw [if_neg hgt]
      omega
  have hnot : ¬ (offset > cf.size ∨ len = 0) := by
    rw [hstores.size]
    omega
  have hpos := chunkSize_pos cf
  rw [CompressedMmappedFile.read, if_neg hnot]
  dsimp only
  rw [hlenEq]
  generalize hn : min len (src.length - offset) = n at hdest ⊢
  have hend : 0 < offset + n := by
    by_contra hzero
    have hzero' : offset = 0 := by omega
    rw [hzero', Nat.zero_div, Nat.zero_mul] at hlt
    omega
  have hu64 : u64 ((offset + n : Nat) - 1 : Int) = offset + n - 1 := by
    have hsize := hstores.size_lt
    rw [u64]
    omega
  rw [hu64, hstores.chunk_eq hle, hstores.chunk_eq (by omega), inChunkOffSet_eq, inChunkOffSet_eq]
  have hdivMod := Nat.div_add_mod' offset cf.chunkSize
  have hmodLt := Nat.mod_lt offset hpos
  have hn_le : n ≤ src.length - offset := hn ▸ Nat.min_le_right _ _
  have hbeginCopy : offset / cf.chunkSize * cf.chunkSize + offset % cf.chunkSize = offset + 0 :=
    hdivMod
  rw [copiedLen]
  by_cases hmany : offset / cf.chunkSize < (offset + n - 1) / cf.chunkSize
  · obtain ⟨m, hm⟩ : ∃ m, (offset + n - 1) / cf.chunkSize = offset / cf.chunkSize + 1 + m :=
      Nat.exists_eq_add_of_le hmany
    have hendLe := Nat.div_mul_le_self (offset + n - 1) cf.chunkSize
    have hsucc : (offset / cf.chunkSize + 1) * cf.chunkSize =
        offset + (cf.chunkSize - offset % cf.chunkSize) := by
      rw [Nat.succ_mul]
      omega
    have hlast := div_pred_mul_add_mod_le cf.chunkSize (offset + n)
    have hmodLast := Nat.mod_lt (offset + n) hpos
    have hmul : (offset / cf.chunkSize + 1 + m) * cf.chunkSize =
        offset + (cf.chunkSize - offset % cf.chunkSize + m * cf.chunkSize) := by
      rw [Nat.add_mul, hsucc, Nat.add_assoc]
    have hcount : offset / cf.chunkSize + 1 + m - (offset / cf.chunkSize + 1) = m := by omega
    have hcopied : offset + (cf.chunkSize - offset % cf.chunkSize + m * cf.chunkSize) - offset =
        cf.chunkSize - offset % cf.chunkSize + m * cf.chunkSize := by omega
    rw [if_pos hmany, hm, hcount, hmul, hcopied]
    rw [hm] at hmany
    rw [hm, hmul] at hlast hendLe
    have hfirstLen : min n (cf.chunkSize - offset % cf.chunkSize) =
        cf.chunkSize - offset % cf.chunkSize := by omega
    obtain ⟨c₁, hfirst, hinv₁⟩ := h.copyChunk hstores rand dest
      (cf.chunkSize - offset % cf.chunkSize) hlt hbeginCopy (by omega) (by omega)
      (by omega)
    rw [copied_zero, Nat.zero_add] at hfirst
    obtain ⟨c₂, hloop, hinv₂⟩ := Inv.copyChunks hstores rand dest m hinv₁ hsucc
      (by omega) (by omega)
    have hlastBegin : (offset / cf.chunkSize + 1 + m) * cf.chunkSize + 0 =
        offset + (cf.chunkSize - offset % cf.chunkSize + m * cf.chunkSize) := hmul
    obtain ⟨c₃, hlastCopy, hinv₃⟩ := hinv₂.copyChunk hstores rand dest
      ((offset + n) % cf.chunkSize) (by omega) hlastBegin (by omega) (by omega) (by omega)
    refine ⟨c₃, ?_, hinv₃⟩
    rw [hfirstLen, hfirst, ok_bind, hloop, ok_bind, if_pos hmany, hlastCopy]
    rfl
  · have hdivLe : (offset + n - 1) / cf.chunkSize ≤ offset / cf.chunkSize := not_lt.mp hmany
    have hnone : (offset + n - 1) / cf.chunkSize - (offset / cf.chunkSize + 1) = 0 := by omega
    have hlenLe : n ≤ cf.chunkSize - offset % cf.chunkSize := by
      have hlt' := Nat.lt_mul_of_div_lt (Nat.lt_succ_of_le hdivLe) hpos
      rw [Nat.succ_mul] at hlt'
      omega
    obtain ⟨c₁, hfirst, hinv₁⟩ := h.copyChunk hstores rand dest n hlt hbeginCopy
      (by omega) (by omega) (by omega)
    rw [copied_zero, Nat.zero_add] at hfirst
    refine ⟨c₁, ?_, hinv₁⟩
    rw [if_neg hmany, hnone, Nat.min_eq_left hlenLe, hfirst, ok_bind, List.range'_zero,
      List.foldlM_nil, pure_bind, if_neg hmany]
    rfl

end Sserialize.CompressedMmappedFile
