import Mathlib.Data.Nat.Bitwise
import Mathlib.Data.List.Basic
import Mathlib.Tactic.Ring
import Sserialize.Library.Leb128

/-!
# Bytes and variable length integers

`UByteArrayAdapter` as a byte list with a get pointer, its faults, and the codec behind
`putVlPackedUint32` and `getVlPackedUint32`. Machine integers are natural numbers; `u32` is the
conversion to `uint32_t`.
-/

namespace Sserialize

abbrev Bytes := List UInt8

/-- The exceptions of the modelled functions; `undefinedBehaviour` stands for an access or a shift
that C++ does not define. -/
inductive Fault where
  | outOfBounds
  | typeOverflow
  | domainError
  | outOfRange
  | unsupportedFeature
  | creation
  | corruptData
  | versionMissMatch
  | notEnoughRoom
  | invalidUtf8
  | invalidCodePoint
  | typeMissMatch
  | configuration
  | lengthError
  | undefinedBehaviour
  deriving Repr, DecidableEq

@[simp] theorem ok_bind {α β : Type} (a : α) (f : α → Except Fault β) :
    (Except.ok a >>= f) = f a := rfl

@[simp] theorem error_bind {α β : Type} (e : Fault) (f : α → Except Fault β) :
    ((Except.error e : Except Fault α) >>= f) = Except.error e := rfl

@[simp] theorem except_pure {α : Type} (a : α) :
    (pure a : Except Fault α) = Except.ok a := rfl

theorem bind_eq_ok {α β : Type} {x : Except Fault α} {f : α → Except Fault β} {b : β}
    (h : (x >>= f) = Except.ok b) : ∃ a, x = Except.ok a ∧ f a = Except.ok b := by
  cases x with
  | error e => cases h
  | ok a => exact ⟨a, rfl, h⟩

theorem some_ok_inj {α : Type} {a b : α} (h : some (Except.ok a : Except Fault α) = some (.ok b)) :
    a = b := Except.ok.inj (Option.some.inj h)

theorem ok_of_ite {α : Type} {p : Prop} [Decidable p] {x : Except Fault α} {e : Fault} {a : α}
    (h : (if p then x else .error e) = Except.ok a) : p ∧ x = Except.ok a := by
  split at h
  next hp => exact ⟨hp, h⟩
  next => cases h

theorem ok_of_ite_error {α : Type} {p : Prop} [Decidable p] {x : Except Fault α} {e : Fault}
    {a : α} (h : (if p then .error e else x) = Except.ok a) : ¬ p ∧ x = Except.ok a := by
  split at h
  next => cases h
  next hp => exact ⟨hp, h⟩

/-- Conversion to `uint32_t`. -/
def u32 (n : Nat) : Nat := n % 2 ^ 32

theorem u32_lt (n : Nat) : u32 n < 2 ^ 32 := Nat.mod_lt n (by decide)

theorem u32_of_lt {n : Nat} (h : n < 2 ^ 32) : u32 n = n := Nat.mod_eq_of_lt h

/-- Subtraction of `uint32_t` values. -/
def sub32 (a b : Nat) : Nat := u32 (2 ^ 32 - b + a)

theorem sub32_of_le {a b : Nat} (hba : b ≤ a) (ha : a < 2 ^ 32) : sub32 a b = a - b := by
  unfold sub32 u32
  omega

theorem u32_add_u32 (m n : Nat) : u32 (u32 m + n) = u32 (m + n) := Nat.mod_add_mod m _ n

/-- `narrow_check<uint32_t>`. -/
def narrowCheck32 (n : Nat) : Except Fault Nat :=
  if u32 n = n then .ok n else .error .typeOverflow

theorem narrowCheck32_of_lt {n : Nat} (h : n < 2 ^ 32) : narrowCheck32 n = .ok n :=
  if_pos (u32_of_lt h)

theorem narrowCheck32_of_le {n : Nat} (h : 2 ^ 32 ≤ n) : narrowCheck32 n = .error .typeOverflow := by
  have hlt := u32_lt n
  exact if_neg (by omega)

/-- Conversion to `uint8_t`. -/
def byte (n : Nat) : UInt8 := UInt8.ofNat n

theorem byte_or_0x80 (s : Nat) : byte (s ||| 0x80) = UInt8.ofNat (s % 128 + 128) := by
  have hlow : ∀ x < 256, x ||| 128 = x % 128 + 128 := by decide +kernel
  apply UInt8.toNat_inj.mp
  rw [byte, UInt8.toNat_ofNat', UInt8.toNat_ofNat', Nat.or_mod_two_pow]
  have hx := hlow (s % 2 ^ 8) (Nat.mod_lt s (by decide))
  rw [show (0x80 : Nat) % 2 ^ 8 = 128 from rfl, hx]
  omega

/-! ## Variable length integers -/

/-- `p_v<uint32_t>`. The destination always has the five bytes a value may need: every caller
writes into a buffer of that size first. -/
def pVu32 (s : Nat) : Bytes :=
  if s >>> 7 = 0 then [byte s]
  else if s >>> 14 = 0 then [byte (s ||| 0x80), byte (s >>> 7)]
  else if s >>> 21 = 0 then [byte (s ||| 0x80), byte ((s >>> 7) ||| 0x80), byte (s >>> 14)]
  else if s >>> 28 = 0 then
    [byte (s ||| 0x80), byte ((s >>> 7) ||| 0x80), byte ((s >>> 14) ||| 0x80), byte (s >>> 21)]
  else
    [byte (s ||| 0x80), byte ((s >>> 7) ||| 0x80), byte ((s >>> 14) ||| 0x80),
      byte ((s >>> 21) ||| 0x80), byte (s >>> 28)]

/-- `psize_v<uint32_t>`. The loop shifts at most five times before `s` is zero. -/
def psizeV : Nat → Nat → Nat
  | 0, _ => 0
  | fuel + 1, s => if s >>> 7 = 0 then 1 else 1 + psizeV fuel (s >>> 7)

def psizeVu32 (s : Nat) : Nat := psizeV 5 s

/-- The loop of `up_v`; `none` is the negative length it returns when the bytes run out. -/
def upVLoop (digits maxLen : Nat) : Bytes → Nat → Nat → Nat → Option (Nat × Nat)
  | [], _, _, _ => none
  | b :: s, retVal, myLen, myShift =>
    let retVal := retVal ||| ((b.toNat &&& 0x7F) <<< myShift) % 2 ^ digits
    if myLen + 1 < maxLen ∧ b.toNat &&& 0x80 ≠ 0 then
      upVLoop digits maxLen s retVal (myLen + 1) (myShift + 7)
    else some (retVal, myLen + 1)

def upVu32 (s : Bytes) : Option (Nat × Nat) := upVLoop 32 5 s 0 0 0

variable {s : Nat}

theorem pVu32_eq_encode (hs : s < 2 ^ 32) : pVu32 s = Leb128.encode 5 s := by
  unfold pVu32
  simp only [Nat.shiftRight_eq_div_pow, byte_or_0x80, Leb128.encode, Nat.div_div_eq_div_mul,
    Nat.reducePow, Nat.reduceMul]
  split
  · rfl
  · split
    · rfl
    · split
      · rfl
      · split
        · rfl
        · rw [if_pos (by omega)]
          rfl

theorem psizeV_eq_size (fuel s : Nat) : psizeV fuel s = Leb128.size fuel s := by
  induction fuel generalizing s with
  | zero => rfl
  | succ fuel ih =>
    unfold psizeV Leb128.size
    rw [Nat.shiftRight_eq_div_pow, ih]

theorem length_pVu32 (hs : s < 2 ^ 32) : (pVu32 s).length = psizeVu32 s := by
  rw [pVu32_eq_encode hs, Leb128.length_encode, psizeVu32, psizeV_eq_size]

theorem pVu32_ne_nil (hs : s < 2 ^ 32) : pVu32 s ≠ [] := by
  rw [pVu32_eq_encode hs]
  exact Leb128.encode_ne_nil 4 s

theorem and_0x80_ne_zero_iff (b : UInt8) : b.toNat &&& 0x80 ≠ 0 ↔ ¬ b.toNat < 128 := by
  have hall : ∀ x < 256, (x &&& 0x80 ≠ 0 ↔ ¬ x < 128) := by decide +kernel
  exact hall b.toNat b.toNat_lt

theorem and_0x7F (n : Nat) : n &&& 0x7F = n % 128 := Nat.and_two_pow_sub_one_eq_mod n 7

theorem upVLoop_eq (digits maxLen : Nat) (s : Bytes) (value myLen myShift : Nat)
    (hlen : myLen < maxLen) (hvalue : value < 2 ^ myShift) :
    upVLoop digits maxLen s (value % 2 ^ digits) myLen myShift =
      (Leb128.decode (maxLen - myLen) s).map fun (v, rest) =>
        ((value + v * 2 ^ myShift) % 2 ^ digits, myLen + (s.length - rest.length)) := by
  induction s generalizing value myLen myShift with
  | nil =>
    obtain ⟨groups, hgroups⟩ : ∃ groups, maxLen - myLen = groups + 1 :=
      ⟨maxLen - myLen - 1, by omega⟩
    rw [hgroups]
    rfl
  | cons b s ih =>
    obtain ⟨groups, hgroups⟩ : ∃ groups, maxLen - myLen = groups + 1 :=
      ⟨maxLen - myLen - 1, by omega⟩
    have hor : value % 2 ^ digits ||| ((b.toNat &&& 0x7F) <<< myShift) % 2 ^ digits =
        (value + b.toNat % 128 * 2 ^ myShift) % 2 ^ digits := by
      rw [← Nat.or_mod_two_pow, and_0x7F, Nat.or_comm, ← Nat.shiftLeft_add_eq_or_of_lt hvalue,
        Nat.shiftLeft_eq, Nat.add_comm]
    unfold upVLoop
    simp only [hor, and_0x80_ne_zero_iff]
    rw [hgroups, Leb128.decode]
    by_cases hlast : b.toNat < 128
    · have hmod : b.toNat % 128 = b.toNat := Nat.mod_eq_of_lt hlast
      simp [hlast, hmod]
    · by_cases hmore : myLen + 1 < maxLen
      · have hbound : value + b.toNat % 128 * 2 ^ myShift < 2 ^ (myShift + 7) := by
          have hdigit : b.toNat % 128 ≤ 127 := by omega
          have hmul := Nat.mul_le_mul_right (2 ^ myShift) hdigit
          rw [Nat.pow_add]
          omega
        have hrec := ih (value + b.toNat % 128 * 2 ^ myShift) (myLen + 1) (myShift + 7) hmore hbound
        have hleft : maxLen - (myLen + 1) = groups := by omega
        rw [hleft] at hrec
        simp only [hmore, hlast, not_false_eq_true, and_self, if_true, if_false, hrec,
          Option.map_map]
        cases hdec : Leb128.decode groups s with
        | none => rfl
        | some result =>
          obtain ⟨v, rest⟩ := result
          have hrest := Leb128.length_rest_le hdec
          simp only [Option.map_some, Function.comp, Option.some.injEq, Prod.mk.injEq,
            List.length_cons]
          refine ⟨?_, by omega⟩
          congr 1
          rw [Nat.pow_add]
          ring
      · have hzero : groups = 0 := by omega
        subst hzero
        simp [hmore, hlast, Leb128.decode]

theorem upVu32_pVu32 (hs : s < 2 ^ 32) (rest : Bytes) :
    upVu32 (pVu32 s ++ rest) = some (s, (pVu32 s).length) := by
  have hloop := upVLoop_eq 32 5 (pVu32 s ++ rest) 0 0 0 (by decide) (by decide)
  have hdec : Leb128.decode (5 - 0) (pVu32 s ++ rest) = some (s, rest) := by
    rw [pVu32_eq_encode hs]
    exact Leb128.decode_encode (by decide) (by omega) rest
  rw [hdec] at hloop
  rw [upVu32]
  have hmod : s % 4294967296 = s := Nat.mod_eq_of_lt hs
  simpa [hmod] using hloop

/-! ## Reading through an adapter -/

/-- `getVlPackedUint32(pos, &len)`. -/
def getVlPackedUint32At (data : Bytes) (pos : Nat) : Except Fault (Nat × Nat) :=
  if pos + 1 ≤ data.length then
    match upVu32 (data.drop pos) with
    | some (res, len) => .ok (res, len)
    | none => .error .outOfBounds
  else .error .outOfBounds

structure UByteArrayAdapter where
  data : Bytes
  getPtr : Nat
  deriving Repr, DecidableEq

namespace UByteArrayAdapter

def size (d : UByteArrayAdapter) : Nat := d.data.length

/-- `getVlPackedUint32()`, which moves the get pointer. -/
def getVlPackedUint32 (d : UByteArrayAdapter) : Except Fault (Nat × UByteArrayAdapter) := do
  let (res, len) ← getVlPackedUint32At d.data d.getPtr
  return (res, { d with getPtr := d.getPtr + len })

def unread (d : UByteArrayAdapter) : Bytes := d.data.drop d.getPtr

/-- `resize`: growth appends zero bytes. -/
def resize (data : Bytes) (newSize : Nat) : Bytes :=
  data.take newSize ++ List.replicate (newSize - data.length) 0

end UByteArrayAdapter

theorem getVlPackedUint32At_of_drop (hs : s < 2 ^ 32) {data rest : Bytes} {pos : Nat}
    (hdrop : data.drop pos = pVu32 s ++ rest) :
    getVlPackedUint32At data pos = .ok (s, (pVu32 s).length) := by
  have hlen : 0 < (pVu32 s).length := List.length_pos_of_ne_nil (pVu32_ne_nil hs)
  have hle := congrArg List.length hdrop
  rw [List.length_drop, List.length_append] at hle
  unfold getVlPackedUint32At
  rw [if_pos (by omega), hdrop, upVu32_pVu32 hs]

theorem drop_add_of_drop {data front rest : Bytes} {pos : Nat}
    (hdrop : data.drop pos = front ++ rest) : data.drop (pos + front.length) = rest := by
  rw [← List.drop_drop, hdrop, List.drop_left]

theorem UByteArrayAdapter.getVlPackedUint32_of_drop (hs : s < 2 ^ 32) {d : UByteArrayAdapter}
    {rest : Bytes} (hdrop : d.unread = pVu32 s ++ rest) :
    d.getVlPackedUint32 = .ok (s, { d with getPtr := d.getPtr + (pVu32 s).length }) := by
  unfold getVlPackedUint32
  rw [getVlPackedUint32At_of_drop hs hdrop]
  rfl

theorem getVlPackedUint32At_end (data : Bytes) {pos : Nat} (hpos : data.length ≤ pos) :
    getVlPackedUint32At data pos = .error .outOfBounds := by
  unfold getVlPackedUint32At
  rw [if_neg (by omega)]

theorem UByteArrayAdapter.getVlPackedUint32_append (hs : s < 2 ^ 32) (before rest : Bytes) :
    (⟨before ++ (pVu32 s ++ rest), before.length⟩ : UByteArrayAdapter).getVlPackedUint32 =
      .ok (s, ⟨before ++ (pVu32 s ++ rest), before.length + (pVu32 s).length⟩) :=
  getVlPackedUint32_of_drop hs List.drop_left

end Sserialize
