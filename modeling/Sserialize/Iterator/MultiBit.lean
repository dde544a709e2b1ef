import Sserialize.Containers.CompactUintArray

/-!
# `MultiBitBackInserter` and `MultiBitIterator`

Numbers of any width behind each other, high bit first. The inserter keeps the started byte in its
buffer, the iterator reads a window of 16, 32 or 64 bits that starts at any bit.
-/

namespace Sserialize

/-! ## Writing -/

/-- `data` holds what was put to the array in front of the put pointer. -/
structure MultiBitBackInserter where
  data : Bytes
  curInByteOffset : Nat
  buffer : Bytes
  deriving Repr, DecidableEq

namespace MultiBitBackInserter

def new (data : Bytes) : MultiBitBackInserter :=
  { data := data, curInByteOffset := 0, buffer := List.replicate 9 0 }

/-- The loop of `push_back` that spreads the value over the buffer. -/
def fillBuffer : Nat → Nat → Bytes → Bytes
  | 0, _, buffer => buffer
  | byteSpan + 1, value, buffer =>
    fillBuffer byteSpan (value >>> 8) (buffer.modify byteSpan fun d => byte (d.toNat ||| value))

def pushBack (m : MultiBitBackInserter) (value length : Nat) : MultiBitBackInserter :=
  let value := value &&& createMask length
  if 8 - m.curInByteOffset ≥ length then
    let buffer := m.buffer.modify 0 fun d =>
      byte (d.toNat ||| value <<< ((8 - m.curInByteOffset) - length))
    if 8 - m.curInByteOffset = length then
      { data := m.data ++ [buffer.getD 0 0], curInByteOffset := 0,
        buffer := buffer.modify 0 fun _ => 0 }
    else { m with curInByteOffset := m.curInByteOffset + length, buffer := buffer }
  else
    let fullBitSpan := length + m.curInByteOffset
    let byteSpan := fullBitSpan / 8
    let curInByteOffset := fullBitSpan % 8
    let overlap := if curInByteOffset ≠ 0 then byte (value <<< (8 - curInByteOffset)) else 0
    let value := if curInByteOffset ≠ 0 then value >>> curInByteOffset else value
    let buffer := fillBuffer byteSpan value m.buffer
    { data := m.data ++ buffer.take byteSpan, curInByteOffset := curInByteOffset,
      buffer := (List.replicate 9 0).modify 0 fun _ => overlap }

/-- `push_back(begin, end, length)`. Its body is the one of `push_back(value, length)`. -/
def pushBackRange (m : MultiBitBackInserter) (length : Nat) : List Nat → MultiBitBackInserter
  | [] => m
  | v :: vs => pushBackRange (m.pushBack v length) length vs

def flush (m : MultiBitBackInserter) : MultiBitBackInserter :=
  if m.curInByteOffset ≠ 0 then
    { data := m.data ++ [m.buffer.getD 0 0], curInByteOffset := 0,
      buffer := m.buffer.modify 0 fun _ => 0 }
  else m

end MultiBitBackInserter

/-! ## Reading -/

structure MultiBitIterator where
  data : Bytes
  getPtr : Nat
  bitOffset : Nat
  deriving Repr, DecidableEq

namespace MultiBitIterator

def new (data : Bytes) : MultiBitIterator := { data := data, getPtr := 0, bitOffset := 0 }

/-- The loop of `getN`. A byte behind the end is read as zero; a remainder that would become
negative ends the loop as zero does. -/
def getNLoop (digits : Nat) (data : Bytes) : Nat → Nat → Nat → Nat → Nat
  | 0, _, res, _ => res
  | fuel + 1, getPtr, res, remainingBits =>
    let srcRShift := if remainingBits > 8 then 0 else 8 - remainingBits
    let byte := (data.getD getPtr 0).toNat
    let res := res ||| byte >>> srcRShift
    let remainingBits := remainingBits - 8
    if remainingBits > 0 then
      getNLoop digits data fuel (getPtr + 1)
        (res <<< (if remainingBits > 8 then 8 else remainingBits) % 2 ^ digits) remainingBits
    else res

/-- `getN<T>()` for a type of so many digits. -/
def getN (digits : Nat) (it : MultiBitIterator) : Except Fault Nat := do
  let first ← byteAt it.data it.getPtr
  let headerLength := 8 - it.bitOffset
  return getNLoop digits it.data digits (it.getPtr + 1) (first.toNat <<< 8 % 2 ^ digits)
    (digits - headerLength)

def get (digits : Nat) (it : MultiBitIterator) (len : Nat) : Except Fault Nat := do
  let v ← it.getN digits
  return v >>> (digits - len)

def add (it : MultiBitIterator) (bitCount : Nat) : MultiBitIterator :=
  let bitCount := u32 (bitCount + it.bitOffset)
  { it with getPtr := min (it.getPtr + bitCount / 8) it.data.length, bitOffset := bitCount % 8 }

end MultiBitIterator

open BitString

/-! ## What the inserter appends -/

namespace MultiBitBackInserter

/-- The bits inserted so far are those of the data and the ones that wait in the first byte of the
buffer; behind them the buffer is clear. -/
def Inserted (m : MultiBitBackInserter) (stream : List Bool) : Prop :=
  ∃ d waiting, m.buffer = d :: List.replicate 8 0 ∧ waiting.length = m.curInByteOffset ∧
    m.curInByteOffset < 8 ∧
    lowBits 8 d.toNat = waiting ++ List.replicate (8 - m.curInByteOffset) false ∧
    stream = bits m.data ++ waiting

theorem inserted_new (data : Bytes) : Inserted (new data) (bits data) :=
  ⟨0, [], rfl, rfl, Nat.zero_lt_succ 7, lowBits_zero 8, (List.append_nil _).symm⟩

theorem modify_length (front : Bytes) (d : UInt8) (rest : Bytes) (f : UInt8 → UInt8) :
    (front ++ d :: rest).modify front.length f = front ++ f d :: rest := by
  induction front with
  | nil => rfl
  | cons a front ih => rw [List.cons_append, List.length_cons, List.modify_succ_cons, ih]; rfl

theorem fillBuffer_spec {byteSpan n : Nat} (value : Nat) {front : Bytes} (rest : Bytes)
    (hlen : front.length = byteSpan) (hfront : lowBits (8 * byteSpan) n = bits front) :
    ∃ front', fillBuffer byteSpan value (front ++ rest) = front' ++ rest ∧
      front'.length = byteSpan ∧ bits front' = lowBits (8 * byteSpan) (n ||| value) := by
  induction byteSpan generalizing value n front rest with
  | zero =>
    rw [List.eq_nil_of_length_eq_zero hlen]
    exact ⟨[], rfl, rfl, rfl⟩
  | succ byteSpan ih =>
    obtain ⟨front₀, d, rfl⟩ : ∃ front₀ d, front = front₀ ++ [d] := by
      rcases List.eq_nil_or_concat front with rfl | ⟨front₀, d, hconcat⟩
      · cases hlen
      · exact ⟨front₀, d, by rw [hconcat, List.concat_eq_append]⟩
    have hlen₀ : front₀.length = byteSpan := by
      rw [List.length_append, List.length_singleton] at hlen
      omega
    have hsplit : lowBits (8 * byteSpan) (n >>> 8) = bits front₀ ∧
        lowBits 8 n = lowBits 8 d.toNat := by
      rw [Nat.mul_succ, lowBits_add, bits_append, bits_cons, bits_nil, List.append_nil] at hfront
      exact List.append_inj' hfront (by rw [length_lowBits, length_lowBits])
    have hmodify : ((front₀ ++ [d] ++ rest).modify byteSpan fun d => byte (d.toNat ||| value)) =
        front₀ ++ ([byte (d.toNat ||| value)] ++ rest) := by
      rw [← hlen₀, List.append_assoc]
      exact modify_length front₀ d rest _
    obtain ⟨front', hfill, hlen', hbits'⟩ :=
      ih (value >>> 8) ([byte (d.toNat ||| value)] ++ rest) hlen₀ hsplit.1
    refine ⟨front' ++ [byte (d.toNat ||| value)], ?_, ?_, ?_⟩
    · rw [fillBuffer, hmodify, hfill, List.append_assoc]
    · rw [List.length_append, hlen', List.length_singleton]
    · rw [bits_append, hbits', bits_cons, bits_nil, List.append_nil, Nat.mul_succ, lowBits_add,
        Nat.shiftRight_or_distrib, byte, UInt8.toNat_ofNat', lowBits_mod,
        lowBits_or_right value hsplit.2.symm]

theorem and_createMask_spec (value length : Nat) :
    value &&& createMask length < 2 ^ length ∧
      lowBits length (value &&& createMask length) = lowBits length value := by
  rw [createMask, Nat.and_two_pow_sub_one_eq_mod, lowBits_mod]
  exact ⟨Nat.mod_lt value (Nat.two_pow_pos length), rfl⟩

variable {m : MultiBitBackInserter} {stream : List Bool}

theorem pushBack_short {value length : Nat} (h : Inserted m stream)
    (hshort : 8 - m.curInByteOffset ≥ length) :
    Inserted (m.pushBack value length) (stream ++ lowBits length value) := by
  obtain ⟨d, waiting, hbuffer, hlen, hlt, hd, rfl⟩ := h
  obtain ⟨hv, hmask⟩ := and_createMask_spec value length
  obtain ⟨free, hfree⟩ : ∃ free, 8 - m.curInByteOffset = length + free :=
    ⟨8 - m.curInByteOffset - length, by omega⟩
  have hwidth : 8 = waiting.length + (length + free) := by omega
  have hor : lowBits 8 (byte (d.toNat ||| (value &&& createMask length) <<< free)).toNat =
      waiting ++ (lowBits length value ++ List.replicate free false) := by
    rw [byte, UInt8.toNat_ofNat', lowBits_mod, ← hmask]
    rw [hfree] at hd
    rw [hwidth] at hd ⊢
    exact lowBits_or_shiftLeft hv hd
  unfold pushBack
  rw [if_pos hshort]
  simp only [hbuffer, hfree, Nat.add_sub_cancel_left, List.modify_zero_cons]
  by_cases hfull : length + free = length
  · obtain rfl : free = 0 := by omega
    rw [if_pos hfull]
    refine ⟨0, [], rfl, rfl, Nat.zero_lt_succ 7, lowBits_zero 8, ?_⟩
    rw [bits_append, List.getD_cons_zero, bits_cons, hor, bits_nil]
    simp
  · rw [if_neg hfull]
    refine ⟨_, waiting ++ lowBits length value, rfl, ?_, ?_, ?_, ?_⟩
    · rw [List.length_append, length_lowBits, hlen]
    · show m.curInByteOffset + length < 8
      omega
    · have hrest : 8 - (m.curInByteOffset + length) = free := by omega
      rw [hor, hrest, List.append_assoc]
    · rw [List.append_assoc]

theorem pushBack_long {value length : Nat} (h : Inserted m stream)
    (hlong : ¬ 8 - m.curInByteOffset ≥ length) (hlength : length ≤ 64) :
    Inserted (m.pushBack value length) (stream ++ lowBits length value) := by
  obtain ⟨d, waiting, hbuffer, hlen, hlt, hd, rfl⟩ := h
  obtain ⟨hv, hmask⟩ := and_createMask_spec value length
  unfold pushBack
  rw [if_neg hlong]
  dsimp only
  generalize hspan : (length + m.curInByteOffset) / 8 = byteSpan
  generalize hoffset : (length + m.curInByteOffset) % 8 = offset
  generalize value &&& createMask length = v at hv hmask
  have hshift : (if offset ≠ 0 then v >>> offset else v) = v >>> offset := by
    by_cases hzero : offset = 0
    · rw [if_neg (by simpa using hzero), hzero, Nat.shiftRight_zero]
    · rw [if_pos hzero]
  obtain ⟨w, hw⟩ : ∃ w, 8 * byteSpan = waiting.length + (w + 0) :=
    ⟨8 * byteSpan - waiting.length, by omega⟩
  have hsum : length = w + offset := by omega
  obtain ⟨span, rfl⟩ : ∃ span, byteSpan = span + 1 := ⟨byteSpan - 1, by omega⟩
  have hsplit : m.buffer = (d :: List.replicate span 0) ++ List.replicate (8 - span) 0 := by
    rw [hbuffer, List.cons_append, ← List.replicate_add]
    congr 2
    omega
  have hfrontLen : (d :: List.replicate span (0 : UInt8)).length = span + 1 := by
    rw [List.length_cons, List.length_replicate]
  have hvalue := lowBits_beValue (d :: List.replicate span 0)
  rw [hfrontLen] at hvalue
  obtain ⟨front', hfill, hlen', hbits'⟩ := fillBuffer_spec (v >>> offset)
    (List.replicate (8 - span) 0) hfrontLen hvalue
  have hfront : lowBits (8 * (span + 1)) (beValue (d :: List.replicate span 0)) =
      waiting ++ List.replicate (w + 0) false := by
    rw [hvalue, bits_cons, hd, bits_replicate_zero, List.append_assoc, ← List.replicate_add]
    congr 2
    omega
  have hhigh : v >>> offset < 2 ^ w := by
    rw [hsum, Nat.pow_add] at hv
    rw [Nat.shiftRight_eq_div_pow]
    exact Nat.div_lt_of_lt_mul (by rwa [Nat.mul_comm])
  have hbits : bits front' = waiting ++ lowBits w (v >>> offset) := by
    rw [hw] at hfront hbits'
    rw [hbits']
    have hor := lowBits_or_shiftLeft hhigh hfront
    rwa [Nat.add_zero, Nat.shiftLeft_zero, List.replicate_zero, List.append_nil] at hor
  rw [hshift, hsplit, hfill, List.take_left' hlen']
  refine ⟨_, lowBits offset v, rfl, length_lowBits _ _, ?_, ?_, ?_⟩
  · show offset < 8
    omega
  · show lowBits 8 _ = lowBits offset v ++ List.replicate (8 - offset) false
    by_cases hzero : offset = 0
    · rw [if_neg (by simpa using hzero), hzero]
      exact lowBits_zero 8
    · have hwidth : offset + (8 - offset) = 8 := by omega
      have hoverlap := lowBits_shiftLeft offset (8 - offset) v
      rw [hwidth] at hoverlap
      rw [if_pos hzero, byte, UInt8.toNat_ofNat', lowBits_mod, hoverlap]
  · rw [bits_append, hbits, ← hmask, hsum, lowBits_add]
    simp only [List.append_assoc]

theorem inserted_pushBack {length : Nat} (value : Nat) (h : Inserted m stream)
    (hlength : length ≤ 64) : Inserted (m.pushBack value length) (stream ++ lowBits length value) := by
  by_cases hshort : 8 - m.curInByteOffset ≥ length
  · exact pushBack_short h hshort
  · exact pushBack_long h hshort hlength

theorem inserted_pushBackRange {length : Nat} (vs : List Nat) (h : Inserted m stream)
    (hlength : length ≤ 64) : Inserted (m.pushBackRange length vs) (stream ++ code length vs) := by
  induction vs generalizing m stream with
  | nil => simpa [pushBackRange] using h
  | cons v vs ih =>
    have hstep := ih (inserted_pushBack v h hlength)
    rwa [List.append_assoc, ← code_cons] at hstep

theorem bits_flush (h : Inserted m stream) :
    ∃ pad < 8, bits m.flush.data = stream ++ List.replicate pad false := by
  obtain ⟨d, waiting, hbuffer, hlen, hlt, hd, rfl⟩ := h
  unfold flush
  by_cases hzero : m.curInByteOffset = 0
  · rw [if_neg (by simpa using hzero)]
    rw [hzero] at hlen
    exact ⟨0, by decide, by rw [List.eq_nil_of_length_eq_zero hlen]; simp⟩
  · rw [if_pos hzero]
    refine ⟨8 - m.curInByteOffset, by omega, ?_⟩
    rw [bits_append, hbuffer, List.getD_cons_zero, bits_cons, hd, bits_nil, List.append_nil,
      List.append_assoc]

end MultiBitBackInserter

/-! ## What the iterator reads -/

namespace MultiBitIterator

/-- `n` bytes from `pos` on, zero behind the end of the data. -/
def window (data : Bytes) : Nat → Nat → Bytes
  | 0, _ => []
  | n + 1, pos => data.getD pos 0 :: window data n (pos + 1)

variable (data : Bytes)

theorem length_window (n pos : Nat) : (window data n pos).length = n := by
  induction n generalizing pos with
  | zero => rfl
  | succ n ih => rw [window, List.length_cons, ih]

theorem window_eq (n pos : Nat) :
    window data n pos = ((data ++ List.replicate (pos + n) 0).drop pos).take n := by
  have hlong : ∀ k, ((data ++ List.replicate (pos + n + k) 0).drop pos).take n =
      window data n pos := by
    induction n generalizing pos with
    | zero =>
      intro k
      rfl
    | succ n ih =>
      intro k
      have hpos : pos < (data ++ List.replicate (pos + (n + 1) + k) (0 : UInt8)).length := by
        rw [List.length_append, List.length_replicate]
        omega
      have hget : (data ++ List.replicate (pos + (n + 1) + k) (0 : UInt8))[pos] =
          data.getD pos 0 := by
        rw [← getD_append_zeros data (pos + (n + 1) + k) pos, List.getD, List.getElem?_eq_getElem hpos]
        rfl
      have htail := ih (pos + 1) k
      have hcount : pos + 1 + n + k = pos + (n + 1) + k := by omega
      rw [hcount] at htail
      rw [List.drop_eq_getElem_cons hpos, List.take_succ_cons, hget, htail, window]
  exact (hlong 0).symm

theorem bits_window {data : Bytes} {n pos skip len : Nat} (hwindow : skip + len ≤ 8 * n)
    (hdata : 8 * pos + skip + len ≤ 8 * data.length) :
    ((bits (window data n pos)).drop skip).take len =
      ((bits data).drop (8 * pos + skip)).take len := by
  rw [window_eq, bits_take, bits_drop, bits_append, List.drop_take, List.take_take,
    List.drop_drop, Nat.min_eq_left (by omega), List.drop_append_of_le_length,
    List.take_append_of_le_length]
  · rw [List.length_drop, length_bits]
    omega
  · rw [length_bits]
    omega

theorem beValue_cons (b : UInt8) (bs : Bytes) :
    beValue (b :: bs) = b.toNat * 2 ^ (8 * bs.length) + beValue bs := by
  rw [beValue, ← Nat.shiftLeft_add_eq_or_of_lt (beValue_lt bs), Nat.shiftLeft_eq]

theorem beValue_window_div {off : Nat} (m pos : Nat) (hoff : off < 8) :
    beValue (window data (m + 1 + 1) pos) / 2 ^ (8 - off) =
      (data.getD pos 0).toNat * 2 ^ (8 * m + off) +
        beValue (window data (m + 1) (pos + 1)) / 2 ^ (8 - off) := by
  have hpow : 8 * (m + 1) = (8 * m + off) + (8 - off) := by omega
  rw [window, beValue_cons, length_window, hpow, Nat.pow_add, ← Nat.mul_assoc,
    Nat.mul_comm (_ * _), Nat.mul_add_div (Nat.two_pow_pos _)]

theorem mod_or_of_lt {digits k b : Nat} (x : Nat) (hk : k ≤ digits) (hb : b < 2 ^ k) :
    (x * 2 ^ k % 2 ^ digits) ||| b = (x * 2 ^ k + b) % 2 ^ digits := by
  obtain ⟨e, rfl⟩ : ∃ e, digits = e + k := ⟨digits - k, by omega⟩
  have hr : x % 2 ^ e < 2 ^ e := Nat.mod_lt x (Nat.two_pow_pos e)
  have hsmall : x % 2 ^ e * 2 ^ k + b < 2 ^ e * 2 ^ k := by
    have hle : (x % 2 ^ e + 1) * 2 ^ k ≤ 2 ^ e * 2 ^ k := Nat.mul_le_mul_right _ hr
    rw [Nat.succ_mul] at hle
    omega
  have hx : x * 2 ^ k + b = x % 2 ^ e * 2 ^ k + b + 2 ^ e * 2 ^ k * (x / 2 ^ e) := by
    calc x * 2 ^ k + b
        = (x % 2 ^ e + 2 ^ e * (x / 2 ^ e)) * 2 ^ k + b := by rw [Nat.mod_add_div]
      _ = x % 2 ^ e * 2 ^ k + b + 2 ^ e * 2 ^ k * (x / 2 ^ e) := by ring
  rw [Nat.pow_add, Nat.mul_mod_mul_right, ← Nat.shiftLeft_eq, ← Nat.shiftLeft_add_eq_or_of_lt hb,
    Nat.shiftLeft_eq, hx, Nat.add_mul_mod_self_left, Nat.mod_eq_of_lt hsmall]

theorem getNLoop_spec {digits off : Nat} (hdigits : 8 ≤ digits) (hoff : off < 8)
    (m fuel pos x : Nat) (hfuel : m < fuel) (hrem : 0 < 8 * m + off) :
    getNLoop digits data fuel pos (x * 2 ^ min 8 (8 * m + off) % 2 ^ digits) (8 * m + off) =
      (x * 2 ^ (8 * m + off) + beValue (window data (m + 1) pos) / 2 ^ (8 - off)) %
        2 ^ digits := by
  induction m generalizing fuel pos x with
  | zero =>
    obtain ⟨fuel, rfl⟩ : ∃ f, fuel = f + 1 := ⟨fuel - 1, by omega⟩
    have hbyte := (data.getD pos 0).toNat_lt
    have hb : (data.getD pos 0).toNat >>> (8 - off) < 2 ^ off := by
      rw [Nat.shiftRight_eq_div_pow]
      refine Nat.div_lt_of_lt_mul ?_
      rw [← Nat.pow_add, Nat.sub_add_cancel (Nat.le_of_lt hoff)]
      exact hbyte
    rw [Nat.mul_zero, Nat.zero_add, Nat.min_eq_right (Nat.le_of_lt hoff), getNLoop]
    rw [if_neg (by omega), if_neg (by omega), mod_or_of_lt x (by omega) hb, window, window,
      Nat.shiftRight_eq_div_pow]
    simp [beValue]
  | succ m ih =>
    obtain ⟨fuel, rfl⟩ : ∃ f, fuel = f + 1 := ⟨fuel - 1, by omega⟩
    have hbyte := (data.getD pos 0).toNat_lt
    have hmin : min 8 (8 * (m + 1) + off) = 8 := Nat.min_eq_left (by omega)
    have hshift : (if 8 * (m + 1) + off > 8 then 0 else 8 - (8 * (m + 1) + off)) = 0 := by
      split
      · rfl
      · omega
    have hrest : 8 * (m + 1) + off - 8 = 8 * m + off := by omega
    have hvalue := beValue_window_div data m pos hoff
    rw [hmin, getNLoop, hshift, Nat.shiftRight_zero, mod_or_of_lt x hdigits hbyte, hrest, hvalue]
    have hx : x * 2 ^ (8 * (m + 1) + off) = x * 2 ^ 8 * 2 ^ (8 * m + off) := by
      have hpow : 8 * (m + 1) + off = 8 + (8 * m + off) := by omega
      rw [hpow, Nat.pow_add, Nat.mul_assoc]
    by_cases hlast : 8 * m + off > 0
    · have hcount : (if 8 * m + off > 8 then 8 else 8 * m + off) = min 8 (8 * m + off) := by
        split
        · omega
        · omega
      rw [if_pos hlast, hcount, Nat.shiftLeft_eq, Nat.mod_mul_mod,
        ih _ _ _ (by omega) hlast, hx, Nat.add_mul, Nat.add_assoc]
    · obtain ⟨rfl, rfl⟩ : m = 0 ∧ off = 0 := by omega
      have hlow : beValue (window data (0 + 1) (pos + 1)) / 2 ^ (8 - 0) = 0 := by
        apply Nat.div_eq_of_lt
        have hlt := beValue_lt (window data (0 + 1) (pos + 1))
        rwa [length_window] at hlt
      rw [if_neg hlast, hlow, hx]
      simp

def position (it : MultiBitIterator) : Nat := 8 * it.getPtr + it.bitOffset

theorem getN_spec {it : MultiBitIterator} {n : Nat} (hoff : it.bitOffset < 8)
    (hpos : it.getPtr < it.data.length) (hn : 2 ≤ n) :
    it.getN (8 * n) = .ok
      (beValue (window it.data (n + 1) it.getPtr) / 2 ^ (8 - it.bitOffset) % 2 ^ (8 * n)) := by
  obtain ⟨m, rfl⟩ : ∃ m, n = m + 1 := ⟨n - 1, by omega⟩
  have hdigits : 8 ≤ 8 * (m + 1) := by omega
  have hloop := getNLoop_spec it.data hdigits hoff m (8 * (m + 1)) (it.getPtr + 1)
    (it.data.getD it.getPtr 0).toNat (by omega) (by omega)
  have hmin : min 8 (8 * m + it.bitOffset) = 8 := Nat.min_eq_left (by omega)
  have hrem : 8 * (m + 1) - (8 - it.bitOffset) = 8 * m + it.bitOffset := by omega
  rw [hmin] at hloop
  rw [getN, byteAt, if_pos (by omega), ok_bind]
  dsimp only
  rw [Nat.shiftLeft_eq, hrem, hloop, beValue_window_div it.data m it.getPtr hoff]
  rfl

theorem get_spec (it : MultiBitIterator) {n len : Nat} (hoff : it.bitOffset < 8) (hn : 2 ≤ n)
    (hlen : len ≤ 8 * n) (hpos : it.getPtr < it.data.length)
    (hdata : it.position + len ≤ 8 * it.data.length) :
    ∃ v, it.get (8 * n) len = .ok v ∧ v < 2 ^ len ∧
      lowBits len v = ((bits it.data).drop it.position).take len := by
  refine ⟨_, by rw [get, getN_spec hoff hpos hn]; rfl, ?_, ?_⟩
  · rw [Nat.shiftRight_eq_div_pow]
    refine Nat.div_lt_of_lt_mul ?_
    rw [← Nat.pow_add, Nat.sub_add_cancel hlen]
    exact Nat.mod_lt _ (Nat.two_pow_pos _)
  · have htop := lowBits_slice 0 len (8 * n - len)
      (beValue (window it.data (n + 1) it.getPtr) / 2 ^ (8 - it.bitOffset) % 2 ^ (8 * n))
    have hwidth : 0 + (len + (8 * n - len)) = 8 * n := by omega
    have hslice := lowBits_slice it.bitOffset (8 * n) (8 - it.bitOffset)
      (beValue (window it.data (n + 1) it.getPtr))
    have hall : it.bitOffset + (8 * n + (8 - it.bitOffset)) =
        8 * (window it.data (n + 1) it.getPtr).length := by
      rw [length_window]
      omega
    rw [hall, lowBits_beValue, Nat.shiftRight_eq_div_pow] at hslice
    rw [← htop, hwidth, List.drop_zero, lowBits_mod, ← hslice, List.take_take,
      Nat.min_eq_left hlen, position]
    exact bits_window (by omega) hdata

theorem add_spec (it : MultiBitIterator) (bitCount : Nat) (hoff : it.bitOffset < 8)
    (hcount : bitCount + 7 < 2 ^ 32) (hdata : it.position + bitCount ≤ 8 * it.data.length) :
    (it.add bitCount).data = it.data ∧ (it.add bitCount).bitOffset < 8 ∧
      (it.add bitCount).position = it.position + bitCount := by
  have hu32 : u32 (bitCount + it.bitOffset) = bitCount + it.bitOffset :=
    u32_of_lt (by omega)
  rw [position] at hdata ⊢
  rw [position, add, hu32]
  dsimp only
  refine ⟨rfl, by omega, ?_⟩
  rw [Nat.min_eq_left (by omega)]
  omega

end MultiBitIterator

end Sserialize
