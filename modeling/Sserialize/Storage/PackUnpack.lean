import Sserialize.Storage.Bytes

/-!
# Variable length integers in a bounded buffer

`p_v`, `up_v` and `psize_v` on the buffer between their two pointers, with the checks they make
and the accesses they do not check.
-/

namespace Sserialize

def store (buf : Bytes) (pos : Nat) (b : UInt8) : Except Fault Bytes :=
  if pos < buf.length then .ok (buf.set pos b) else .error .undefinedBehaviour

def storeAll : Bytes → Nat → Bytes → Except Fault Bytes
  | [], _, buf => .ok buf
  | b :: bs, pos, buf => do
    let buf ← store buf pos b
    storeAll bs (pos + 1) buf

def putBytes (checked : Bool) (bytes buf : Bytes) : Except Fault (Int × Bytes) :=
  if checked ∧ buf.length < bytes.length then .ok (-(bytes.length : Int), buf)
  else do
    let buf ← storeAll bytes 0 buf
    return ((bytes.length : Int), buf)

/-- The bytes of the branches of `p_v<uint64_t>`. -/
def pVu64 (s : Nat) : Bytes :=
  if s >>> 28 = 0 then
    if s >>> 14 = 0 then
      if s >>> 7 = 0 then [byte s]
      else [byte (s ||| 0x80), byte (s >>> 7)]
    else
      if s >>> 21 = 0 then
        [byte (s ||| 0x80), byte ((s >>> 7) ||| 0x80), byte (s >>> 14)]
      else
        [byte (s ||| 0x80), byte ((s >>> 7) ||| 0x80), byte ((s >>> 14) ||| 0x80),
          byte (s >>> 21)]
  else
    if s >>> 42 = 0 then
      if s >>> 35 = 0 then
        [byte (s ||| 0x80), byte ((s >>> 7) ||| 0x80), byte ((s >>> 14) ||| 0x80),
          byte ((s >>> 21) ||| 0x80), byte (s >>> 28)]
      else
        [byte (s ||| 0x80), byte ((s >>> 7) ||| 0x80), byte ((s >>> 14) ||| 0x80),
          byte ((s >>> 21) ||| 0x80), byte ((s >>> 28) ||| 0x80), byte (s >>> 35)]
    else
      if s >>> 56 = 0 then
        if s >>> 49 = 0 then
          [byte (s ||| 0x80), byte ((s >>> 7) ||| 0x80), byte ((s >>> 14) ||| 0x80),
            byte ((s >>> 21) ||| 0x80), byte ((s >>> 28) ||| 0x80), byte ((s >>> 35) ||| 0x80),
            byte (s >>> 42)]
        else
          [byte (s ||| 0x80), byte ((s >>> 7) ||| 0x80), byte ((s >>> 14) ||| 0x80),
            byte ((s >>> 21) ||| 0x80), byte ((s >>> 28) ||| 0x80), byte ((s >>> 35) ||| 0x80),
            byte ((s >>> 42) ||| 0x80), byte (s >>> 49)]
      else
        if s >>> 63 = 0 then
          [byte (s ||| 0x80), byte ((s >>> 7) ||| 0x80), byte ((s >>> 14) ||| 0x80),
            byte ((s >>> 21) ||| 0x80), byte ((s >>> 28) ||| 0x80), byte ((s >>> 35) ||| 0x80),
            byte ((s >>> 42) ||| 0x80), byte ((s >>> 49) ||| 0x80), byte (s >>> 56)]
        else
          [byte (s ||| 0x80), byte ((s >>> 7) ||| 0x80), byte ((s >>> 14) ||| 0x80),
            byte ((s >>> 21) ||| 0x80), byte ((s >>> 28) ||| 0x80), byte ((s >>> 35) ||| 0x80),
            byte ((s >>> 42) ||| 0x80), byte ((s >>> 49) ||| 0x80), byte ((s >>> 56) ||| 0x80),
            byte (s >>> 63)]

/-- `p_v<uint32_t>`: only a buffer of less than five bytes is checked. -/
def pV32 (s : Nat) (buf : Bytes) : Except Fault (Int × Bytes) :=
  putBytes (decide (buf.length < 5)) (pVu32 s) buf

/-- `p_v<uint64_t>`: only a buffer of less than ten bytes is checked. -/
def pV64 (s : Nat) (buf : Bytes) : Except Fault (Int × Bytes) :=
  putBytes (decide (buf.length < 10)) (pVu64 s) buf

def maxBytes (digits : Nat) : Nat := digits / 7 + if digits % 7 > 0 then 1 else 0

def pVLoop (checked : Bool) : Nat → Nat → Nat → Bytes → Except Fault (Int × Bytes)
  | 0, _, i, buf => .ok ((i : Int), buf)
  | rounds + 1, s, i, buf =>
    if checked ∧ buf.length ≤ i then .ok (-(i : Int), buf)
    else do
      let d := s &&& 0x7F
      let s := s >>> 7
      let buf ← store buf i (byte (if s ≠ 0 then d ||| 0x80 else d))
      if s ≠ 0 then pVLoop checked rounds s (i + 1) buf
      else .ok (((i + 1 : Nat) : Int), buf)

def pVGeneric (digits s : Nat) (buf : Bytes) : Except Fault (Int × Bytes) :=
  pVLoop (decide (buf.length < maxBytes digits)) (maxBytes digits) s 0 buf

def upVIn (checked : Bool) (digits maxLen : Nat) (buf : Bytes) :
    Nat → Nat → Nat → Nat → Except Fault (Nat × Int)
  | 0, retVal, myLen, _ => .ok (retVal, (myLen : Int))
  | rounds + 1, retVal, myLen, myShift =>
    if checked ∧ buf.length ≤ myLen then .ok (retVal, -(myLen : Int))
    else
      match buf[myLen]? with
      | none => .error .undefinedBehaviour
      | some b =>
        let retVal := retVal ||| ((b.toNat &&& 0x7F) <<< myShift) % 2 ^ digits
        if myLen + 1 < maxLen ∧ b.toNat &&& 0x80 ≠ 0 then
          upVIn checked digits maxLen buf rounds retVal (myLen + 1) (myShift + 7)
        else .ok (retVal, ((myLen + 1 : Nat) : Int))

def upV (digits : Nat) (buf : Bytes) : Except Fault (Nat × Int) :=
  upVIn (decide (buf.length < maxBytes digits)) digits (maxBytes digits) buf (maxBytes digits) 0 0 0

def psizeVOf (digits s : Nat) : Nat := psizeV (maxBytes digits) s

/-! ## Signed values -/

def foldSign (digits : Nat) (s : Int) : Nat :=
  if s < 0 then (((-s).toNat <<< 1) % 2 ^ digits) ||| 0x1 else (s.toNat <<< 1) % 2 ^ digits

def unfoldSign (tmp : Nat) : Int :=
  let stmp : Int := ((tmp >>> 1 : Nat) : Int)
  if tmp &&& 0x1 ≠ 0 then -stmp else stmp

/-- `p_v<int32_t>` and `p_v<int64_t>`. -/
def pVs32 (s : Int) (buf : Bytes) : Except Fault (Int × Bytes) := pV32 (foldSign 32 s) buf

def pVs64 (s : Int) (buf : Bytes) : Except Fault (Int × Bytes) := pV64 (foldSign 64 s) buf

def upVs (digits : Nat) (buf : Bytes) : Except Fault (Int × Int) := do
  let (tmp, len) ← upV digits buf
  return (unfoldSign tmp, len)

def psizeVs (digits : Nat) (s : Int) : Nat := psizeVOf digits (foldSign digits s)

/-! ## The encoders -/

variable {s : Nat}

theorem pVu64_eq_encode (hs : s < 2 ^ 64) : pVu64 s = Leb128.encode 10 s := by
  have hlast : s / 2 ^ 70 = 0 := by omega
  unfold pVu64
  simp only [Nat.shiftRight_eq_div_pow, byte_or_0x80, Leb128.encode, Nat.div_div_eq_div_mul,
    Nat.reducePow, Nat.reduceMul] at hlast ⊢
  split_ifs <;> first | rfl | omega

theorem storeAll_append (bytes front : Bytes) {old : Bytes} (rest : Bytes)
    (hlen : old.length = bytes.length) :
    storeAll bytes front.length (front ++ old ++ rest) = .ok (front ++ bytes ++ rest) := by
  induction bytes generalizing front old with
  | nil =>
    rw [List.eq_nil_of_length_eq_zero hlen]
    rfl
  | cons b bytes ih =>
    obtain ⟨o, old, rfl⟩ := List.exists_cons_of_length_eq_add_one hlen
    have hin : front.length < (front ++ (o :: old) ++ rest).length := by
      simp only [List.length_append, List.length_cons]
      omega
    have hset : (front ++ (o :: old) ++ rest).set front.length b =
        (front ++ [b]) ++ old ++ rest := by simp
    have hrec := ih (front ++ [b]) (Nat.succ.inj hlen)
    rw [List.length_append, List.length_singleton] at hrec
    rw [storeAll, store, if_pos hin, ok_bind, hset, hrec]
    simp

theorem putBytes_of_le {checked : Bool} {bytes buf : Bytes} (hlen : bytes.length ≤ buf.length) :
    putBytes checked bytes buf =
      .ok ((bytes.length : Int), bytes ++ buf.drop bytes.length) := by
  have htake : (buf.take bytes.length).length = bytes.length := by
    rw [List.length_take]
    omega
  have hstore := storeAll_append bytes [] (buf.drop bytes.length) htake
  rw [List.nil_append, List.take_append_drop, List.nil_append, List.length_nil] at hstore
  rw [putBytes, if_neg (by omega), hstore]
  rfl

theorem putBytes_of_lt {bytes buf : Bytes} (hlen : buf.length < bytes.length) :
    putBytes true bytes buf = .ok (-(bytes.length : Int), buf) :=
  if_pos ⟨rfl, hlen⟩

theorem last_byte_eq (h : s >>> 7 = 0) : byte (s &&& 0x7F) = UInt8.ofNat s := by
  rw [Nat.shiftRight_eq_div_pow] at h
  have hmod : s % 128 = s := by omega
  rw [and_0x7F, hmod, byte]

theorem more_byte_eq (s : Nat) : byte ((s &&& 0x7F) ||| 0x80) = UInt8.ofNat (s % 128 + 128) := by
  rw [byte_or_0x80, and_0x7F, Nat.mod_mod]

theorem pVLoop_append (checked : Bool) {rounds s : Nat} (hrounds : 0 < rounds)
    (hs : s < 128 ^ rounds) (front : Bytes) {old : Bytes} (rest : Bytes)
    (hlen : old.length = (Leb128.encode rounds s).length) :
    pVLoop checked rounds s front.length (front ++ old ++ rest) =
      .ok (((front.length + (Leb128.encode rounds s).length : Nat) : Int),
        front ++ Leb128.encode rounds s ++ rest) := by
  induction rounds generalizing s front old with
  | zero => omega
  | succ rounds ih =>
    have hpos : 0 < old.length := by
      rw [hlen, Leb128.length_encode]
      exact Leb128.size_pos rounds s
    obtain ⟨o, old, rfl⟩ := List.exists_cons_of_length_pos hpos
    have hin : front.length < (front ++ (o :: old) ++ rest).length := by
      simp only [List.length_append, List.length_cons]
      omega
    have hset : ∀ b, (front ++ (o :: old) ++ rest).set front.length b =
        (front ++ [b]) ++ old ++ rest := by simp
    have hdiv : s >>> 7 = s / 128 := Nat.shiftRight_eq_div_pow s 7
    unfold pVLoop
    rw [if_neg (by omega)]
    simp only [store, if_pos hin, ok_bind, hset]
    unfold Leb128.encode at hlen ⊢
    by_cases hlast : s / 128 = 0
    · have hzero : s >>> 7 = 0 := by rw [hdiv, hlast]
      rw [if_pos hlast] at hlen ⊢
      rw [if_neg (not_not.mpr hzero), if_neg (not_not.mpr hzero), last_byte_eq hzero,
        List.eq_nil_of_length_eq_zero (Nat.succ.inj hlen)]
      simp
    · have hne : s >>> 7 ≠ 0 := by rw [hdiv]; exact hlast
      have hrounds' : 0 < rounds := by
        by_contra hnone
        have hzero : rounds = 0 := by omega
        rw [hzero] at hs
        omega
      have hs' : s / 128 < 128 ^ rounds := by
        rw [Nat.pow_succ] at hs
        omega
      rw [if_neg hlast] at hlen ⊢
      have hrec := ih hrounds' hs' (front ++ [UInt8.ofNat (s % 128 + 128)]) (Nat.succ.inj hlen)
      rw [List.length_append, List.length_singleton] at hrec
      rw [if_pos hne, if_pos hne, more_byte_eq, hdiv, hrec, List.length_cons]
      have hsum : front.length + 1 + (Leb128.encode rounds (s / 128)).length =
          front.length + ((Leb128.encode rounds (s / 128)).length + 1) := by omega
      rw [hsum]
      simp

/-! ## The decoder -/

theorem upVIn_eq {checked : Bool} {digits maxLen : Nat} {buf : Bytes}
    (hchecked : checked = true ∨ maxLen ≤ buf.length) {rounds retVal myLen myShift : Nat}
    (hrounds : myLen + rounds = maxLen) (hpos : 0 < rounds) (hlen : myLen ≤ buf.length) :
    (∀ v n, upVLoop digits maxLen (buf.drop myLen) retVal myLen myShift = some (v, n) →
      upVIn checked digits maxLen buf rounds retVal myLen myShift = .ok (v, (n : Int)) ∧
        n ≤ buf.length) ∧
    (upVLoop digits maxLen (buf.drop myLen) retVal myLen myShift = none →
      ∃ v, upVIn checked digits maxLen buf rounds retVal myLen myShift =
        .ok (v, -(buf.length : Int))) := by
  induction rounds generalizing retVal myLen myShift with
  | zero => omega
  | succ rounds ih =>
    unfold upVIn
    by_cases hend : buf.length ≤ myLen
    · have hsame : myLen = buf.length := by omega
      have htrue : checked = true := hchecked.resolve_right (by omega)
      rw [if_pos ⟨htrue, hend⟩, List.drop_eq_nil_of_le hend, hsame]
      constructor
      · intro v n h
        cases h
      · intro _
        exact ⟨retVal, rfl⟩
    · have hin : myLen < buf.length := Nat.lt_of_not_le hend
      rw [if_neg fun h => hend h.2, List.getElem?_eq_getElem hin, List.drop_eq_getElem_cons hin,
        upVLoop]
      simp only
      by_cases hmore : myLen + 1 < maxLen ∧ buf[myLen].toNat &&& 0x80 ≠ 0
      · rw [if_pos hmore, if_pos hmore]
        exact ih (by omega) (by omega) (by omega)
      · rw [if_neg hmore, if_neg hmore]
        constructor
        · intro v n h
          obtain ⟨rfl, rfl⟩ := Prod.mk.inj (Option.some.inj h)
          exact ⟨rfl, hin⟩
        · intro h
          cases h

variable {digits : Nat}

theorem upV_eq (hdigits : 0 < digits) (buf : Bytes) :
    (∀ v n, upVLoop digits (maxBytes digits) buf 0 0 0 = some (v, n) →
      upV digits buf = .ok (v, (n : Int)) ∧ n ≤ buf.length) ∧
    (upVLoop digits (maxBytes digits) buf 0 0 0 = none →
      ∃ v, upV digits buf = .ok (v, -(buf.length : Int))) := by
  have hpos : 0 < maxBytes digits := by
    unfold maxBytes
    split <;> omega
  have hchecked : decide (buf.length < maxBytes digits) = true ∨
      maxBytes digits ≤ buf.length := by
    rw [decide_eq_true_iff]
    omega
  exact upVIn_eq hchecked (Nat.zero_add _) hpos (Nat.zero_le _)

theorem upV_in_bounds (hdigits : 0 < digits) (buf : Bytes) :
    ∃ v len, upV digits buf = .ok (v, len) ∧ len ≤ (buf.length : Int) := by
  obtain ⟨hsome, hnone⟩ := upV_eq hdigits buf
  cases hloop : upVLoop digits (maxBytes digits) buf 0 0 0 with
  | none =>
    obtain ⟨v, hread⟩ := hnone hloop
    exact ⟨v, _, hread, by omega⟩
  | some result =>
    obtain ⟨v, n⟩ := result
    obtain ⟨hread, hle⟩ := hsome v n hloop
    exact ⟨v, _, hread, by omega⟩

theorem lt_pow_maxBytes {digits s : Nat} (hs : s < 2 ^ digits) : s < 128 ^ maxBytes digits := by
  have hpow : (128 : Nat) ^ maxBytes digits = 2 ^ (7 * maxBytes digits) := by
    rw [Nat.pow_mul]
  rw [hpow]
  refine hs.trans_le (Nat.pow_le_pow_right (by decide) ?_)
  unfold maxBytes
  split <;> omega

theorem upV_append {digits s : Nat} (hdigits : 0 < digits) (hs : s < 2 ^ digits) (rest : Bytes) :
    upV digits (Leb128.encode (maxBytes digits) s ++ rest) =
      .ok (s, ((psizeVOf digits s : Nat) : Int)) := by
  have hpos : 0 < maxBytes digits := by
    unfold maxBytes
    split <;> omega
  have hloop := upVLoop_eq digits (maxBytes digits) (Leb128.encode (maxBytes digits) s ++ rest)
    0 0 0 hpos Nat.one_pos
  rw [Nat.sub_zero, Leb128.decode_encode hpos (lt_pow_maxBytes hs) rest] at hloop
  have hlen : (Leb128.encode (maxBytes digits) s ++ rest).length - rest.length =
      psizeVOf digits s := by
    rw [List.length_append, Nat.add_sub_cancel, Leb128.length_encode, psizeVOf, psizeV_eq_size]
  simp only [Option.map_some, Nat.zero_mod, Nat.zero_add, Nat.pow_zero, Nat.mul_one,
    Nat.mod_eq_of_lt hs, hlen] at hloop
  exact ((upV_eq hdigits _).1 _ _ hloop).1

theorem upV_take {digits s k : Nat} (hdigits : 0 < digits)
    (hk : k < (Leb128.encode (maxBytes digits) s).length) :
    ∃ v len, upV digits ((Leb128.encode (maxBytes digits) s).take k) = .ok (v, len) ∧
      len ≤ 0 := by
  have hpos : 0 < maxBytes digits := by
    unfold maxBytes
    split <;> omega
  have hloop := upVLoop_eq digits (maxBytes digits)
    ((Leb128.encode (maxBytes digits) s).take k) 0 0 0 hpos Nat.one_pos
  rw [Nat.sub_zero, Leb128.decode_take hk, Option.map_none, Nat.zero_mod] at hloop
  obtain ⟨v, hread⟩ := (upV_eq hdigits _).2 hloop
  exact ⟨v, _, hread, by omega⟩

/-! ## Both widths -/

/-- An encoder and a decoder on the code word of `value`, which has `size` bytes. -/
structure Codes {α : Type} (size : Nat) (pv pvGeneric : Bytes → Except Fault (Int × Bytes))
    (upv : Bytes → Except Fault (α × Int)) (value : α) (code : Bytes) : Prop where
  length : code.length = size
  pv_of_le : ∀ buf, size ≤ buf.length → pv buf = .ok ((size : Int), code ++ buf.drop size)
  pvGeneric_of_le : ∀ buf, size ≤ buf.length → pvGeneric buf = pv buf
  pv_of_lt : ∀ buf, buf.length < size → ∃ len, pv buf = .ok (len, buf) ∧ len < 0
  upv_append : ∀ rest, upv (code ++ rest) = .ok (value, (size : Int))
  upv_take : ∀ k < size, ∃ v len, upv (code.take k) = .ok (v, len) ∧ len ≤ 0

structure UnsignedSpec (digits : Nat) (pv : Nat → Bytes → Except Fault (Int × Bytes)) : Prop where
  codes : ∀ s < 2 ^ digits, ∃ code,
    Codes (psizeVOf digits s) (pv s) (pVGeneric digits s) (upV digits) s code
  inBounds : ∀ buf, ∃ v len, upV digits buf = .ok (v, len) ∧ len ≤ (buf.length : Int)

def SignedSpec (digits : Nat) (pvs : Int → Bytes → Except Fault (Int × Bytes)) : Prop :=
  ∀ s : Int, -2 ^ (digits - 1) < s → s < 2 ^ (digits - 1) → ∃ code,
    Codes (psizeVs digits s) (pvs s) (pVGeneric digits (foldSign digits s)) (upVs digits) s code

theorem codes_of_bytes {digits s : Nat} (hdigits : 0 < digits) (hs : s < 2 ^ digits)
    {pvBytes : Bytes} (hbytes : pvBytes = Leb128.encode (maxBytes digits) s) :
    Codes (psizeVOf digits s)
      (fun buf => putBytes (decide (buf.length < maxBytes digits)) pvBytes buf)
      (pVGeneric digits s) (upV digits) s (Leb128.encode (maxBytes digits) s) := by
  have hlen : (Leb128.encode (maxBytes digits) s).length = psizeVOf digits s := by
    rw [Leb128.length_encode, psizeVOf, psizeV_eq_size]
  have hmax : psizeVOf digits s ≤ maxBytes digits := by
    rw [psizeVOf, psizeV_eq_size]
    exact Leb128.size_le _ _
  have hpos : 0 < maxBytes digits := by
    unfold maxBytes
    split <;> omega
  have hput : ∀ buf : Bytes, psizeVOf digits s ≤ buf.length →
      putBytes (decide (buf.length < maxBytes digits)) pvBytes buf =
        .ok ((psizeVOf digits s : Int),
          Leb128.encode (maxBytes digits) s ++ buf.drop (psizeVOf digits s)) := by
    intro buf hbuf
    rw [← hlen, hbytes]
    exact putBytes_of_le (by rw [hlen]; exact hbuf)
  refine ⟨hlen, hput, ?_, ?_, ?_, ?_⟩
  · intro buf hbuf
    have htake : (buf.take (psizeVOf digits s)).length =
        (Leb128.encode (maxBytes digits) s).length := by
      rw [List.length_take, hlen]
      omega
    have hloop := pVLoop_append (decide (buf.length < maxBytes digits)) hpos (lt_pow_maxBytes hs)
      [] (buf.drop (psizeVOf digits s)) htake
    rw [List.nil_append, List.take_append_drop, List.nil_append, List.length_nil, Nat.zero_add,
      hlen] at hloop
    rw [hput buf hbuf]
    exact hloop
  · intro buf hbuf
    have hcheck : decide (buf.length < maxBytes digits) = true := by
      rw [decide_eq_true_iff]
      omega
    refine ⟨-(psizeVOf digits s : Int), ?_, ?_⟩
    · simp only [hcheck]
      rw [← hlen, hbytes]
      exact putBytes_of_lt (by rw [hlen]; exact hbuf)
    · have hsize : 0 < psizeVOf digits s := by
        obtain ⟨groups, hgroups⟩ : ∃ groups, maxBytes digits = groups + 1 :=
          ⟨maxBytes digits - 1, by omega⟩
        rw [psizeVOf, psizeV_eq_size, hgroups]
        exact Leb128.size_pos groups s
      omega
  · exact upV_append hdigits hs
  · intro k hk
    exact upV_take hdigits (by rw [hlen]; exact hk)

theorem codes_32 (hs : s < 2 ^ 32) :
    Codes (psizeVOf 32 s) (pV32 s) (pVGeneric 32 s) (upV 32) s (Leb128.encode 5 s) :=
  codes_of_bytes (by decide) hs (pVu32_eq_encode hs)

theorem codes_64 (hs : s < 2 ^ 64) :
    Codes (psizeVOf 64 s) (pV64 s) (pVGeneric 64 s) (upV 64) s (Leb128.encode 10 s) :=
  codes_of_bytes (by decide) hs (pVu64_eq_encode hs)

theorem foldSign_lt (hdigits : 0 < digits) (s : Int) : foldSign digits s < 2 ^ digits := by
  unfold foldSign
  split
  · refine Nat.or_lt_two_pow (Nat.mod_lt _ (Nat.two_pow_pos digits)) ?_
    exact Nat.one_lt_two_pow (by omega)
  · exact Nat.mod_lt _ (Nat.two_pow_pos digits)

theorem unfoldSign_foldSign (hdigits : 0 < digits) {s : Int} (hlow : -2 ^ (digits - 1) < s)
    (hhigh : s < 2 ^ (digits - 1)) : unfoldSign (foldSign digits s) = s := by
  have hcast : ((2 ^ (digits - 1) : Nat) : Int) = 2 ^ (digits - 1) := by norm_num
  have hpow : (2 : Nat) ^ digits = 2 * 2 ^ (digits - 1) := by
    rw [← Nat.pow_succ']
    congr 1
    omega
  rw [← hcast] at hlow hhigh
  unfold foldSign
  by_cases hneg : s < 0
  · have hshift : ((-s).toNat <<< 1) % 2 ^ digits = 2 * (-s).toNat := by
      rw [Nat.shiftLeft_eq, hpow, Nat.mod_eq_of_lt (by omega)]
      omega
    have hor : 2 * (-s).toNat ||| 0x1 = 2 * (-s).toNat + 1 := by
      have hadd := Nat.shiftLeft_add_eq_or_of_lt (show 1 < 2 ^ 1 by decide) (-s).toNat
      rw [Nat.shiftLeft_eq, Nat.pow_one, Nat.mul_comm] at hadd
      exact hadd.symm
    have hodd : (2 * (-s).toNat + 1) % 2 = 1 := by omega
    have hhalf : (2 * (-s).toNat + 1) / 2 ^ 1 = (-s).toNat := by omega
    rw [if_pos hneg, hshift, hor, unfoldSign, Nat.and_one_is_mod, hodd, if_pos Nat.one_ne_zero,
      Nat.shiftRight_eq_div_pow, hhalf]
    omega
  · have hshift : (s.toNat <<< 1) % 2 ^ digits = 2 * s.toNat := by
      rw [Nat.shiftLeft_eq, hpow, Nat.mod_eq_of_lt (by omega)]
      omega
    have heven : 2 * s.toNat % 2 = 0 := by omega
    have hhalf : 2 * s.toNat / 2 ^ 1 = s.toNat := by omega
    rw [if_neg hneg, hshift, unfoldSign, Nat.and_one_is_mod, heven, if_neg (by decide),
      Nat.shiftRight_eq_div_pow, hhalf]
    omega

theorem signed_of_codes (hdigits : 0 < digits) {pv : Nat → Bytes → Except Fault (Int × Bytes)}
    (h : ∀ s < 2 ^ digits, ∃ code,
      Codes (psizeVOf digits s) (pv s) (pVGeneric digits s) (upV digits) s code) :
    SignedSpec digits fun s => pv (foldSign digits s) := by
  intro s hlow hhigh
  obtain ⟨code, hcodes⟩ := h _ (foldSign_lt hdigits s)
  refine ⟨code, hcodes.length, hcodes.pv_of_le, hcodes.pvGeneric_of_le, hcodes.pv_of_lt, ?_, ?_⟩
  · intro rest
    rw [upVs, hcodes.upv_append, ok_bind]
    simp only [unfoldSign_foldSign hdigits hlow hhigh]
    rfl
  · intro k hk
    obtain ⟨v, len, hread, hle⟩ := hcodes.upv_take k hk
    refine ⟨unfoldSign v, len, ?_, hle⟩
    rw [upVs, hread]
    rfl

/-- The unrolled encoders, the generic loop, the decoder and the size of both widths agree. -/
theorem packUnpack_spec : UnsignedSpec 32 pV32 ∧ UnsignedSpec 64 pV64 ∧
    SignedSpec 32 pVs32 ∧ SignedSpec 64 pVs64 := by
  refine ⟨⟨?_, upV_in_bounds (by decide)⟩, ⟨?_, upV_in_bounds (by decide)⟩, ?_, ?_⟩
  · exact fun s hs => ⟨_, codes_32 hs⟩
  · exact fun s hs => ⟨_, codes_64 hs⟩
  · exact signed_of_codes (by decide) fun s hs => ⟨_, codes_32 hs⟩
  · exact signed_of_codes (by decide) fun s hs => ⟨_, codes_64 hs⟩

/-! ## Through an adapter

`putVlPackedUint64` and `putVlPackedInt64` encode into a buffer of ten bytes of their own, which
is never too small. The getters read at most ten bytes of what is behind the position. -/

def putVlPackedUint64 (value : Nat) : Bytes := pVu64 value

def putVlPackedInt64 (value : Int) : Bytes := pVu64 (foldSign 64 value)

def getVlPacked {α : Type} (upv : Bytes → Except Fault (α × Int)) (data : Bytes) :
    Except Fault (α × Nat) :=
  if data.length < 1 then .error .outOfBounds
  else do
    let (res, len) ← upv (data.take 10)
    if len < 0 then .error .outOfBounds else return (res, len.toNat)

def consumeVlPacked {α : Type} (upv : Bytes → Except Fault (α × Int)) (data : Bytes) :
    Except Fault (α × Bytes) := do
  let (res, curLen) ← getVlPacked upv data
  return (res, data.drop curLen)

def consumeVlPackedUint64 (data : Bytes) : Except Fault (Nat × Bytes) :=
  consumeVlPacked (upV 64) data

def consumeVlPackedInt64 (data : Bytes) : Except Fault (Int × Bytes) :=
  consumeVlPacked (upVs 64) data

def psizeVu64 (value : Nat) : Nat := psizeVOf 64 value

def psizeVs64 (value : Int) : Nat := psizeVs 64 value

theorem psizeVu64_pos (value : Nat) : 0 < psizeVu64 value := by
  rw [psizeVu64, psizeVOf, psizeV_eq_size]
  exact Leb128.size_pos 9 value

theorem length_pVu64 (hs : s < 2 ^ 64) : (pVu64 s).length = psizeVu64 s := by
  rw [pVu64_eq_encode hs, Leb128.length_encode, psizeVu64, psizeVOf, psizeV_eq_size]
  rfl

theorem length_putVlPackedUint64 {value : Nat} (hvalue : value < 2 ^ 64) :
    (putVlPackedUint64 value).length = psizeVu64 value :=
  length_pVu64 hvalue

theorem length_putVlPackedInt64 (value : Int) :
    (putVlPackedInt64 value).length = psizeVs64 value :=
  length_pVu64 (foldSign_lt (by decide) value)

theorem upV_take_pVu64 (hs : s < 2 ^ 64) (rest : Bytes) :
    upV 64 ((pVu64 s ++ rest).take 10) = .ok (s, ((pVu64 s).length : Int)) := by
  have hlen : (pVu64 s).length ≤ 10 := by
    rw [pVu64_eq_encode hs, Leb128.length_encode]
    exact Leb128.size_le 10 s
  rw [List.take_append, List.take_of_length_le hlen, length_pVu64 hs, pVu64_eq_encode hs]
  exact upV_append (by decide) hs _

theorem getVlPacked_append {α : Type} {upv : Bytes → Except Fault (α × Int)} {value : α}
    (hs : s < 2 ^ 64) (rest : Bytes)
    (hupv : upv ((pVu64 s ++ rest).take 10) = .ok (value, ((pVu64 s).length : Int))) :
    getVlPacked upv (pVu64 s ++ rest) = .ok (value, (pVu64 s).length) := by
  have hpos := psizeVu64_pos s
  rw [← length_pVu64 hs] at hpos
  have hlen : ¬ (pVu64 s ++ rest).length < 1 := by
    rw [List.length_append]
    omega
  have hnonneg : ¬ ((pVu64 s).length : Int) < 0 := by omega
  rw [getVlPacked, if_neg hlen, hupv, ok_bind]
  simp only [if_neg hnonneg, except_pure, Int.toNat_natCast]

theorem getVlPackedUint64_append {value : Nat} (hvalue : value < 2 ^ 64) (rest : Bytes) :
    getVlPacked (upV 64) (putVlPackedUint64 value ++ rest) =
      .ok (value, (putVlPackedUint64 value).length) :=
  getVlPacked_append hvalue rest (upV_take_pVu64 hvalue rest)

theorem consumeVlPacked_append {α : Type} {upv : Bytes → Except Fault (α × Int)} {value : α}
    (hs : s < 2 ^ 64) (rest : Bytes)
    (hupv : upv ((pVu64 s ++ rest).take 10) = .ok (value, ((pVu64 s).length : Int))) :
    consumeVlPacked upv (pVu64 s ++ rest) = .ok (value, rest) := by
  rw [consumeVlPacked, getVlPacked_append hs rest hupv, ok_bind]
  simp only [except_pure, List.drop_left]

theorem consumeVlPackedUint64_append {value : Nat} (hvalue : value < 2 ^ 64) (rest : Bytes) :
    consumeVlPackedUint64 (putVlPackedUint64 value ++ rest) = .ok (value, rest) :=
  consumeVlPacked_append hvalue rest (upV_take_pVu64 hvalue rest)

theorem consumeVlPackedInt64_append {value : Int} (hlow : -2 ^ 63 < value)
    (hhigh : value < 2 ^ 63) (rest : Bytes) :
    consumeVlPackedInt64 (putVlPackedInt64 value ++ rest) = .ok (value, rest) := by
  have hfold : foldSign 64 value < 2 ^ 64 := foldSign_lt (by decide) value
  refine consumeVlPacked_append hfold rest ?_
  rw [upVs, upV_take_pVu64 hfold, ok_bind]
  simp only [unfoldSign_foldSign (show 0 < 64 by decide) hlow hhigh]
  rfl

def putVlPackedInt32 (value : Int) : Bytes := pVu32 (foldSign 32 value)

def consumeVlPackedInt32 (data : Bytes) : Except Fault (Int × Bytes) :=
  if data.length < 1 then .error .outOfBounds
  else do
    let (res, len) ← upVs 32 (data.take 5)
    if len < 0 then .error .outOfBounds else return (res, data.drop len.toNat)

theorem consumeVlPackedInt32_append {value : Int} (hlow : -2 ^ 31 < value)
    (hhigh : value < 2 ^ 31) (rest : Bytes) :
    consumeVlPackedInt32 (putVlPackedInt32 value ++ rest) = .ok (value, rest) := by
  have hfold : foldSign 32 value < 2 ^ 32 := foldSign_lt (by decide) value
  have hcode : putVlPackedInt32 value = Leb128.encode 5 (foldSign 32 value) :=
    pVu32_eq_encode hfold
  have hsize : (putVlPackedInt32 value).length = psizeVOf 32 (foldSign 32 value) := by
    rw [hcode, Leb128.length_encode, psizeVOf, psizeV_eq_size]
    rfl
  have hpos : 0 < (putVlPackedInt32 value).length := by
    rw [hcode, Leb128.length_encode]
    exact Leb128.size_pos 4 _
  have hfive : (putVlPackedInt32 value).length ≤ 5 := by
    rw [hcode, Leb128.length_encode]
    exact Leb128.size_le 5 _
  have hread : upVs 32 ((putVlPackedInt32 value ++ rest).take 5) =
      .ok (value, ((putVlPackedInt32 value).length : Int)) := by
    rw [List.take_append, List.take_of_length_le hfive, hsize, hcode, upVs]
    have hup := upV_append (show 0 < 32 by decide) hfold
      (rest.take (5 - psizeVOf 32 (foldSign 32 value)))
    rw [show maxBytes 32 = 5 from rfl] at hup
    rw [hup, ok_bind]
    simp only [unfoldSign_foldSign (show 0 < 32 by decide) hlow hhigh]
    rfl
  have hlen : ¬ (putVlPackedInt32 value ++ rest).length < 1 := by
    rw [List.length_append]
    omega
  have hnonneg : ¬ ((putVlPackedInt32 value).length : Int) < 0 := by omega
  rw [consumeVlPackedInt32, if_neg hlen, hread, ok_bind]
  simp only [if_neg hnonneg, except_pure, Int.toNat_natCast, List.drop_left]

end Sserialize
