import Mathlib.Data.Char
import Mathlib.Data.List.Lex
import Sserialize.Storage.Bytes

/-!
# UTF-8

The checked decoding of `utf8::next` and the comparison of strings by code points. A pair of
iterators is the bytes between them.
-/

namespace Sserialize

namespace Utf8

def isTrail (oc : Nat) : Bool := oc >>> 6 = 0x2

def isSurrogate (cp : Nat) : Bool := 0xd800 ≤ cp ∧ cp ≤ 0xdfff

def isCodePointValid (cp : Nat) : Bool := cp ≤ 0x10ffff ∧ isSurrogate cp = false

def sequenceLength (lead : Nat) : Nat :=
  if lead < 0x80 then 1
  else if lead >>> 5 = 0x6 then 2
  else if lead >>> 4 = 0xe then 3
  else if lead >>> 3 = 0x1e then 4
  else 0

def isOverlongSequence (cp length : Nat) : Bool :=
  if cp < 0x80 then length ≠ 1
  else if cp < 0x800 then length ≠ 2
  else if cp < 0x10000 then length ≠ 3
  else false

def increaseSafely : Bytes → Except Fault (Nat × Bytes)
  | [] => .error .notEnoughRoom
  | oc :: rest => if isTrail oc.toNat then .ok (oc.toNat, rest) else .error .invalidUtf8

def getSequence2 (lead : Nat) (rest : Bytes) : Except Fault (Nat × Bytes) := do
  let (oc, rest) ← increaseSafely rest
  .ok (((lead <<< 6) &&& 0x7ff) + (oc &&& 0x3f), rest)

def getSequence3 (lead : Nat) (rest : Bytes) : Except Fault (Nat × Bytes) := do
  let (oc₁, rest) ← increaseSafely rest
  let (oc₂, rest) ← increaseSafely rest
  .ok (((lead <<< 12) &&& 0xffff) + ((oc₁ <<< 6) &&& 0xfff) + (oc₂ &&& 0x3f), rest)

def getSequence4 (lead : Nat) (rest : Bytes) : Except Fault (Nat × Bytes) := do
  let (oc₁, rest) ← increaseSafely rest
  let (oc₂, rest) ← increaseSafely rest
  let (oc₃, rest) ← increaseSafely rest
  .ok (((lead <<< 18) &&& 0x1fffff) + ((oc₁ <<< 12) &&& 0x3ffff) + ((oc₂ <<< 6) &&& 0xfff) +
    (oc₃ &&& 0x3f), rest)

def getSequence (length lead : Nat) (rest : Bytes) : Except Fault (Nat × Bytes) :=
  match length with
  | 1 => .ok (lead, rest)
  | 2 => getSequence2 lead rest
  | 3 => getSequence3 lead rest
  | 4 => getSequence4 lead rest
  | _ => .error .invalidUtf8

/-- `next`: the code point and what is behind it. The end of a string is not to be decoded. -/
def next : Bytes → Except Fault (Nat × Bytes)
  | [] => .error .undefinedBehaviour
  | oc :: rest => do
    let length := sequenceLength oc.toNat
    let (cp, rest) ← getSequence length oc.toNat rest
    if isCodePointValid cp then
      if isOverlongSequence cp length then .error .invalidUtf8 else .ok (cp, rest)
    else .error .invalidCodePoint

/-! ## Valid strings -/

def encode (s : List Char) : Bytes := s.flatMap String.utf8EncodeChar

@[simp] theorem encode_nil : encode [] = [] := rfl

variable (c : Char)

theorem encode_cons (s : List Char) : encode (c :: s) = String.utf8EncodeChar c ++ encode s := rfl

@[simp] theorem encode_append (s s' : List Char) : encode (s ++ s') = encode s ++ encode s' :=
  List.flatMap_append

theorem lt_length_utf8EncodeChar : 0 < (String.utf8EncodeChar c).length :=
  List.length_pos_iff.mpr String.utf8EncodeChar_ne_nil

theorem toNat_ofNat_of_lt {n : Nat} (h : n < 256) : (UInt8.ofNat n).toNat = n := by
  rw [UInt8.toNat_ofNat', Nat.mod_eq_of_lt h]

theorem increaseSafely_trail (n : Nat) (rest : Bytes) :
    increaseSafely (UInt8.ofNat (n % 0x40 + 0x80) :: rest) = .ok (n % 0x40 + 0x80, rest) := by
  have htrail : isTrail (n % 0x40 + 0x80) = true := by
    unfold isTrail
    rw [Nat.shiftRight_eq_div_pow, decide_eq_true_eq]
    omega
  rw [increaseSafely, toNat_ofNat_of_lt (by omega), if_pos htrail]

theorem and_0x3f (n : Nat) : n &&& 0x3f = n % 0x40 := Nat.and_two_pow_sub_one_eq_mod n 6

theorem shiftLeft_and (n k m : Nat) : (n <<< k) &&& (2 ^ (k + m) - 1) = n % 2 ^ m * 2 ^ k := by
  rw [Nat.and_two_pow_sub_one_eq_mod, Nat.shiftLeft_eq, Nat.pow_add, Nat.mul_comm (2 ^ k),
    Nat.mul_mod_mul_right]

theorem shiftLeft_six_and (n : Nat) : (n <<< 6) &&& 0xfff = n % 0x40 * 0x40 := shiftLeft_and n 6 6

theorem getSequence2_spec {v : Nat} (h : v ≤ 0x7ff) (rest : Bytes) :
    getSequence2 (v / 64 % 0x20 + 0xc0) (UInt8.ofNat (v % 0x40 + 0x80) :: rest) = .ok (v, rest) := by
  have hmask : ∀ n, (n <<< 6) &&& 0x7ff = n % 0x20 * 0x40 := fun n => shiftLeft_and n 6 5
  have hcp : (v / 64 % 0x20 + 0xc0) % 0x20 * 0x40 + (v % 0x40 + 0x80) % 0x40 = v := by omega
  rw [getSequence2, increaseSafely_trail, ok_bind]
  dsimp only
  rw [hmask, and_0x3f, hcp]

theorem getSequence3_spec {v : Nat} (h : v ≤ 0xffff) (rest : Bytes) :
    getSequence3 (v / 4096 % 0x10 + 0xe0) (UInt8.ofNat (v / 64 % 0x40 + 0x80) ::
      UInt8.ofNat (v % 0x40 + 0x80) :: rest) = .ok (v, rest) := by
  have hmask : ∀ n, (n <<< 12) &&& 0xffff = n % 0x10 * 0x1000 := fun n => shiftLeft_and n 12 4
  have hcp : (v / 4096 % 0x10 + 0xe0) % 0x10 * 0x1000 + (v / 64 % 0x40 + 0x80) % 0x40 * 0x40 +
      (v % 0x40 + 0x80) % 0x40 = v := by omega
  rw [getSequence3, increaseSafely_trail, ok_bind]
  dsimp only
  rw [increaseSafely_trail, ok_bind]
  dsimp only
  rw [hmask, shiftLeft_six_and, and_0x3f, hcp]

theorem getSequence4_spec {v : Nat} (h : v ≤ 0x1fffff) (rest : Bytes) :
    getSequence4 (v / 262144 % 0x08 + 0xf0) (UInt8.ofNat (v / 4096 % 0x40 + 0x80) ::
      UInt8.ofNat (v / 64 % 0x40 + 0x80) :: UInt8.ofNat (v % 0x40 + 0x80) :: rest) =
        .ok (v, rest) := by
  have hmask₁ : ∀ n, (n <<< 18) &&& 0x1fffff = n % 0x08 * 0x40000 := fun n => shiftLeft_and n 18 3
  have hmask₂ : ∀ n, (n <<< 12) &&& 0x3ffff = n % 0x40 * 0x1000 := fun n => shiftLeft_and n 12 6
  have hcp : (v / 262144 % 0x08 + 0xf0) % 0x08 * 0x40000 +
      (v / 4096 % 0x40 + 0x80) % 0x40 * 0x1000 + (v / 64 % 0x40 + 0x80) % 0x40 * 0x40 +
        (v % 0x40 + 0x80) % 0x40 = v := by omega
  rw [getSequence4, increaseSafely_trail, ok_bind]
  dsimp only
  rw [increaseSafely_trail, ok_bind]
  dsimp only
  rw [increaseSafely_trail, ok_bind]
  dsimp only
  rw [hmask₁, hmask₂, shiftLeft_six_and, and_0x3f, hcp]

theorem isCodePointValid_val : isCodePointValid c.val.toNat = true := by
  have hvalid := c.valid
  unfold isCodePointValid isSurrogate
  simp only [UInt32.isValidChar, Nat.isValidChar] at hvalid
  simp only [decide_eq_true_eq, decide_eq_false_iff_not]
  omega

theorem next_of_getSequence {oc : UInt8} {length v : Nat} {bytes rest : Bytes}
    (hlength : sequenceLength oc.toNat = length)
    (hget : getSequence length oc.toNat bytes = .ok (v, rest)) (hvalid : isCodePointValid v = true)
    (hlong : isOverlongSequence v length = false) : next (oc :: bytes) = .ok (v, rest) := by
  rw [next, hlength, hget, ok_bind]
  dsimp only
  rw [if_pos hvalid, if_neg (by rw [hlong]; exact Bool.false_ne_true)]

theorem next_encodeChar (rest : Bytes) :
    next (String.utf8EncodeChar c ++ rest) = .ok (c.val.toNat, rest) := by
  have hvalid := isCodePointValid_val c
  have hlt : c.val.toNat ≤ 0x1fffff := by
    simp only [isCodePointValid, decide_eq_true_eq] at hvalid
    omega
  unfold String.utf8EncodeChar
  revert hvalid hlt
  generalize c.val.toNat = v
  intro hvalid hlt
  dsimp only
  by_cases h1 : v ≤ 0x7f
  · rw [if_pos h1]
    have hnat : (UInt8.ofNat v).toNat = v := toNat_ofNat_of_lt (by omega)
    have hlength : sequenceLength v = 1 := if_pos (by omega)
    have hlong : isOverlongSequence v 1 = false := by
      rw [isOverlongSequence, if_pos (by omega)]
      rfl
    refine next_of_getSequence (by rw [hnat, hlength]) ?_ hvalid hlong
    rw [hnat]
    rfl
  rw [if_neg h1]
  by_cases h2 : v ≤ 0x7ff
  · rw [if_pos h2]
    have hnat : (UInt8.ofNat (v / 64 % 0x20 + 0xc0)).toNat = v / 64 % 0x20 + 0xc0 :=
      toNat_ofNat_of_lt (by omega)
    have hlength : sequenceLength (v / 64 % 0x20 + 0xc0) = 2 := by
      unfold sequenceLength
      rw [if_neg (by omega), if_pos (by rw [Nat.shiftRight_eq_div_pow]; omega)]
    have hlong : isOverlongSequence v 2 = false := by
      rw [isOverlongSequence, if_neg (by omega), if_pos (by omega)]
      rfl
    refine next_of_getSequence (by rw [hnat, hlength]) ?_ hvalid hlong
    rw [hnat]
    exact getSequence2_spec h2 rest
  rw [if_neg h2]
  by_cases h3 : v ≤ 0xffff
  · rw [if_pos h3]
    have hnat : (UInt8.ofNat (v / 4096 % 0x10 + 0xe0)).toNat = v / 4096 % 0x10 + 0xe0 :=
      toNat_ofNat_of_lt (by omega)
    have hlength : sequenceLength (v / 4096 % 0x10 + 0xe0) = 3 := by
      unfold sequenceLength
      simp only [Nat.shiftRight_eq_div_pow]
      rw [if_neg (by omega), if_neg (by omega), if_pos (by omega)]
    have hlong : isOverlongSequence v 3 = false := by
      rw [isOverlongSequence, if_neg (by omega), if_neg (by omega), if_pos (by omega)]
      rfl
    refine next_of_getSequence (by rw [hnat, hlength]) ?_ hvalid hlong
    rw [hnat]
    exact getSequence3_spec h3 rest
  rw [if_neg h3]
  have hnat : (UInt8.ofNat (v / 262144 % 0x08 + 0xf0)).toNat = v / 262144 % 0x08 + 0xf0 :=
    toNat_ofNat_of_lt (by omega)
  have hlength : sequenceLength (v / 262144 % 0x08 + 0xf0) = 4 := by
    unfold sequenceLength
    simp only [Nat.shiftRight_eq_div_pow]
    rw [if_neg (by omega), if_neg (by omega), if_neg (by omega), if_pos (by omega)]
  have hlong : isOverlongSequence v 4 = false := by
    rw [isOverlongSequence, if_neg (by omega), if_neg (by omega), if_neg (by omega)]
  refine next_of_getSequence (by rw [hnat, hlength]) ?_ hvalid hlong
  rw [hnat]
  exact getSequence4_spec hlt rest

theorem next_encode (s : List Char) : next (encode (c :: s)) = .ok (c.val.toNat, encode s) := by
  rw [encode_cons, next_encodeChar]

theorem encode_injective : Function.Injective encode := by
  intro s
  induction s with
  | nil =>
    intro s' h
    cases s' with
    | nil => rfl
    | cons c s' =>
      have hlt := lt_length_utf8EncodeChar c
      have hlen := congrArg List.length h
      rw [encode_cons, List.length_append, encode_nil, List.length_nil] at hlen
      omega
  | cons c s ih =>
    intro s' h
    cases s' with
    | nil =>
      have hlt := lt_length_utf8EncodeChar c
      have hlen := congrArg List.length h
      rw [encode_cons, List.length_append, encode_nil, List.length_nil] at hlen
      omega
    | cons c' s' =>
      have hnext := next_encode c s
      rw [h, next_encode] at hnext
      obtain ⟨hc, hs⟩ := Prod.mk.inj (Except.ok.inj hnext)
      have hchar : c = c' := Char.ext (UInt32.toNat_inj.mp hc.symm)
      rw [hchar, ih hs.symm]

end Utf8

/-! ## Comparison -/

/-- The loop of `unicodeIsSmaller`; the rounds are bounded by the length of the first string. -/
def unicodeIsSmallerLoop : Nat → Bytes → Bytes → Except Fault Bool
  | 0, _, b => .ok (b ≠ [])
  | rounds + 1, a, b =>
    if a ≠ [] ∧ b ≠ [] then do
      let (aCode, a) ← Utf8.next a
      let (bCode, b) ← Utf8.next b
      if aCode < bCode then .ok true
      else if bCode < aCode then .ok false
      else unicodeIsSmallerLoop rounds a b
    else .ok (b ≠ [])

def unicodeIsSmaller (a b : Bytes) : Except Fault Bool := unicodeIsSmallerLoop a.length a b

theorem encode_ne_nil (c : Char) (s : List Char) : Utf8.encode (c :: s) ≠ [] := by
  rw [Utf8.encode_cons]
  exact List.append_ne_nil_of_left_ne_nil String.utf8EncodeChar_ne_nil _

theorem unicodeIsSmallerLoop_encode (s s' : List Char) (rounds : Nat)
    (h : (Utf8.encode s).length ≤ rounds) :
    unicodeIsSmallerLoop rounds (Utf8.encode s) (Utf8.encode s') = .ok (decide (s < s')) := by
  induction s generalizing s' rounds with
  | nil =>
    have hend : unicodeIsSmallerLoop rounds (Utf8.encode []) (Utf8.encode s') =
        .ok (decide (Utf8.encode s' ≠ [])) := by
      cases rounds with
      | zero => rfl
      | succ rounds => exact if_neg fun hne => hne.1 rfl
    rw [hend]
    cases s' with
    | nil => rfl
    | cons c s' =>
      have hlt : [] < c :: s' := List.nil_lt_cons c s'
      rw [decide_eq_true (encode_ne_nil c s'), decide_eq_true hlt]
  | cons c s ih =>
    rw [Utf8.encode_cons, List.length_append] at h
    have hpos := Utf8.lt_length_utf8EncodeChar c
    obtain ⟨rounds, rfl⟩ : ∃ n, rounds = n + 1 := ⟨rounds - 1, by omega⟩
    cases s' with
    | nil =>
      have hend : unicodeIsSmallerLoop (rounds + 1) (Utf8.encode (c :: s)) (Utf8.encode []) =
          .ok (decide (Utf8.encode [] ≠ [])) := if_neg fun hne => hne.2 rfl
      rw [hend]
      rfl
    | cons c' s' =>
      have hiff : c :: s < c' :: s' ↔ c.val.toNat < c'.val.toNat ∨ c = c' ∧ s < s' :=
        List.cons_lt_cons_iff
      rw [unicodeIsSmallerLoop, if_pos ⟨encode_ne_nil c s, encode_ne_nil c' s'⟩, Utf8.next_encode,
        ok_bind]
      dsimp only
      rw [Utf8.next_encode, ok_bind]
      dsimp only
      rcases Nat.lt_trichotomy c.val.toNat c'.val.toNat with hlt | heq | hgt
      · rw [if_pos hlt, decide_eq_true (hiff.mpr (.inl hlt))]
      · have hchar : c = c' := Char.ext (UInt32.toNat_inj.mp heq)
        rw [if_neg (by omega), if_neg (by omega), ih s' rounds (by omega)]
        congr 1
        rw [decide_eq_decide, hiff]
        exact ⟨fun h => .inr ⟨hchar, h⟩, fun h => h.elim (fun h => by omega) And.right⟩
      · rw [if_neg (by omega), if_pos hgt]
        have hnot : ¬ c :: s < c' :: s' := by
          rw [hiff]
          rintro (hlt | ⟨hchar, -⟩)
          · omega
          · rw [hchar] at hgt
            omega
        rw [decide_eq_false hnot]

theorem unicodeIsSmaller_encode (s s' : List Char) :
    unicodeIsSmaller (Utf8.encode s) (Utf8.encode s') = .ok (decide (s < s')) :=
  unicodeIsSmallerLoop_encode s s' _ (Nat.le_refl _)

/-! ## Decoding whole strings -/

namespace Utf8

variable {bytes rest : Bytes}

theorem increaseSafely_length {oc : Nat} (h : increaseSafely bytes = .ok (oc, rest)) :
    rest.length ≤ bytes.length := by
  cases bytes with
  | nil => cases h
  | cons b bytes =>
    rw [increaseSafely] at h
    split at h
    · obtain ⟨-, rfl⟩ := Prod.mk.inj (Except.ok.inj h)
      exact Nat.le_succ _
    · cases h

theorem getSequence_length {length lead cp : Nat}
    (h : getSequence length lead bytes = .ok (cp, rest)) : rest.length ≤ bytes.length := by
  unfold getSequence at h
  split at h
  · obtain ⟨-, rfl⟩ := Prod.mk.inj (Except.ok.inj h)
    exact Nat.le_refl _
  · obtain ⟨⟨oc, rest₁⟩, h₁, hok⟩ := bind_eq_ok h
    obtain ⟨-, rfl⟩ := Prod.mk.inj (Except.ok.inj hok)
    exact increaseSafely_length h₁
  · obtain ⟨⟨oc₁, rest₁⟩, h₁, hrest⟩ := bind_eq_ok h
    obtain ⟨⟨oc₂, rest₂⟩, h₂, hok⟩ := bind_eq_ok hrest
    obtain ⟨-, rfl⟩ := Prod.mk.inj (Except.ok.inj hok)
    exact (increaseSafely_length h₂).trans (increaseSafely_length h₁)
  · obtain ⟨⟨oc₁, rest₁⟩, h₁, hrest⟩ := bind_eq_ok h
    obtain ⟨⟨oc₂, rest₂⟩, h₂, hrest'⟩ := bind_eq_ok hrest
    obtain ⟨⟨oc₃, rest₃⟩, h₃, hok⟩ := bind_eq_ok hrest'
    obtain ⟨-, rfl⟩ := Prod.mk.inj (Except.ok.inj hok)
    exact (increaseSafely_length h₃).trans
      ((increaseSafely_length h₂).trans (increaseSafely_length h₁))
  · cases h

variable {cp : Nat}

theorem next_length (h : next bytes = .ok (cp, rest)) : rest.length < bytes.length := by
  cases bytes with
  | nil => cases h
  | cons oc bytes =>
    rw [next] at h
    obtain ⟨⟨cp', rest'⟩, hget, hcheck⟩ := bind_eq_ok h
    dsimp only at hcheck
    split at hcheck
    · split at hcheck
      · cases hcheck
      · obtain ⟨-, rfl⟩ := Prod.mk.inj (Except.ok.inj hcheck)
        exact Nat.lt_succ_of_le (getSequence_length hget)
    · cases hcheck

/-! The octets that are decoded to a code point are those of its shortest sequence. -/

theorem increaseSafely_ok {n : Nat} (h : increaseSafely bytes = .ok (n, rest)) :
    ∃ oc, bytes = oc :: rest ∧ oc.toNat = n ∧ 0x80 ≤ n ∧ n < 0xc0 := by
  cases bytes with
  | nil => cases h
  | cons oc bytes =>
    rw [increaseSafely] at h
    split at h
    next htrail =>
      obtain ⟨rfl, rfl⟩ := Prod.mk.inj (Except.ok.inj h)
      rw [isTrail, Nat.shiftRight_eq_div_pow, decide_eq_true_eq] at htrail
      exact ⟨oc, rfl, rfl, by omega, by omega⟩
    next => cases h

def sequence (cp : Nat) : List Nat :=
  if cp < 0x80 then [cp]
  else if cp < 0x800 then [0xc0 + cp / 0x40, 0x80 + cp % 0x40]
  else if cp < 0x10000 then [0xe0 + cp / 0x1000, 0x80 + cp / 0x40 % 0x40, 0x80 + cp % 0x40]
  else [0xf0 + cp / 0x40000, 0x80 + cp / 0x1000 % 0x40, 0x80 + cp / 0x40 % 0x40, 0x80 + cp % 0x40]

theorem le_of_not_overlong_two (h : isOverlongSequence cp 2 = false) : 0x80 ≤ cp := by
  by_contra hlt
  rw [isOverlongSequence, if_pos (by omega)] at h
  cases h

theorem le_of_not_overlong_three (h : isOverlongSequence cp 3 = false) : 0x800 ≤ cp := by
  by_contra hlt
  rw [isOverlongSequence] at h
  split at h
  · cases h
  · rw [if_pos (by omega)] at h
    cases h

theorem le_of_not_overlong_four (h : isOverlongSequence cp 4 = false) : 0x10000 ≤ cp := by
  by_contra hlt
  rw [isOverlongSequence] at h
  split at h
  · cases h
  · split at h
    · cases h
    · rw [if_pos (by omega)] at h
      cases h

theorem next_ok (h : next bytes = .ok (cp, rest)) :
    bytes.map UInt8.toNat = sequence cp ++ rest.map UInt8.toNat := by
  cases bytes with
  | nil => cases h
  | cons oc bytes =>
    rw [next] at h
    obtain ⟨⟨cp', rest'⟩, hget, hcheck⟩ := bind_eq_ok h
    dsimp only at hcheck
    have hoc : oc.toNat < 256 := oc.toNat_lt
    obtain ⟨hcp, hlong⟩ : (cp' = cp ∧ rest' = rest) ∧
        isOverlongSequence cp (sequenceLength oc.toNat) = false := by
      split at hcheck
      next =>
        split at hcheck
        next => cases hcheck
        next hlong =>
          obtain ⟨rfl, rfl⟩ := Prod.mk.inj (Except.ok.inj hcheck)
          exact ⟨⟨rfl, rfl⟩, Bool.eq_false_of_not_eq_true hlong⟩
      next => cases hcheck
    obtain ⟨rfl, rfl⟩ := hcp
    rw [List.map_cons]
    generalize oc.toNat = lead at *
    unfold sequenceLength at hget hlong
    simp only [Nat.shiftRight_eq_div_pow] at hget hlong
    by_cases h1 : lead < 0x80
    · rw [if_pos h1] at hget
      obtain ⟨rfl, rfl⟩ := Prod.mk.inj (Except.ok.inj hget)
      rw [sequence, if_pos h1]
      rfl
    rw [if_neg h1] at hget hlong
    by_cases h2 : lead / 2 ^ 5 = 0x6
    · rw [if_pos h2] at hget hlong
      obtain ⟨⟨oc₁, rest₁⟩, ht₁, hok⟩ := bind_eq_ok hget
      obtain ⟨hcp, rfl⟩ := Prod.mk.inj (Except.ok.inj hok)
      obtain ⟨b, rfl, rfl, hge, hlt⟩ := increaseSafely_ok ht₁
      have hmask : (lead <<< 6) &&& 0x7ff = lead % 2 ^ 5 * 2 ^ 6 := shiftLeft_and lead 6 5
      rw [hmask, and_0x3f] at hcp
      have hrange : 0x80 ≤ cp' := le_of_not_overlong_two hlong
      rw [sequence, if_neg (by omega), if_pos (by omega)]
      simp only [List.map_cons, List.cons_append, List.nil_append, List.cons.injEq, and_true]
      omega
    rw [if_neg h2] at hget hlong
    by_cases h3 : lead / 2 ^ 4 = 0xe
    · rw [if_pos h3] at hget hlong
      obtain ⟨⟨oc₁, rest₁⟩, ht₁, hget₂⟩ := bind_eq_ok hget
      obtain ⟨⟨oc₂, rest₂⟩, ht₂, hok⟩ := bind_eq_ok hget₂
      obtain ⟨hcp, rfl⟩ := Prod.mk.inj (Except.ok.inj hok)
      obtain ⟨b, rfl, rfl, hge, hlt⟩ := increaseSafely_ok ht₁
      obtain ⟨c, rfl, rfl, hge', hlt'⟩ := increaseSafely_ok ht₂
      have hmask : (lead <<< 12) &&& 0xffff = lead % 2 ^ 4 * 2 ^ 12 := shiftLeft_and lead 12 4
      rw [hmask, shiftLeft_six_and, and_0x3f] at hcp
      have hrange : 0x800 ≤ cp' := le_of_not_overlong_three hlong
      rw [sequence, if_neg (by omega), if_neg (by omega), if_pos (by omega)]
      simp only [List.map_cons, List.cons_append, List.nil_append, List.cons.injEq, and_true]
      omega
    rw [if_neg h3] at hget hlong
    by_cases h4 : lead / 2 ^ 3 = 0x1e
    · rw [if_pos h4] at hget hlong
      obtain ⟨⟨oc₁, rest₁⟩, ht₁, hget₂⟩ := bind_eq_ok hget
      obtain ⟨⟨oc₂, rest₂⟩, ht₂, hget₃⟩ := bind_eq_ok hget₂
      obtain ⟨⟨oc₃, rest₃⟩, ht₃, hok⟩ := bind_eq_ok hget₃
      obtain ⟨hcp, rfl⟩ := Prod.mk.inj (Except.ok.inj hok)
      obtain ⟨b, rfl, rfl, hge, hlt⟩ := increaseSafely_ok ht₁
      obtain ⟨c, rfl, rfl, hge', hlt'⟩ := increaseSafely_ok ht₂
      obtain ⟨d, rfl, rfl, hge'', hlt''⟩ := increaseSafely_ok ht₃
      have hmask : (lead <<< 18) &&& 0x1fffff = lead % 2 ^ 3 * 2 ^ 18 := shiftLeft_and lead 18 3
      have hmask' : (b.toNat <<< 12) &&& 0x3ffff = b.toNat % 2 ^ 6 * 2 ^ 12 :=
        shiftLeft_and b.toNat 12 6
      rw [hmask, hmask', shiftLeft_six_and, and_0x3f] at hcp
      have hrange : 0x10000 ≤ cp' := le_of_not_overlong_four hlong
      rw [sequence, if_neg (by omega), if_neg (by omega), if_neg (by omega)]
      simp only [List.map_cons, List.cons_append, List.nil_append, List.cons.injEq, and_true]
      omega
    rw [if_neg h4] at hget
    cases hget

theorem next_inj {a b rest : Bytes} (ha : next a = .ok (cp, rest)) (hb : next b = .ok (cp, rest)) :
    a = b :=
  List.map_injective_iff.mpr (fun _ _ h => UInt8.toNat_inj.mp h)
    ((next_ok ha).trans (next_ok hb).symm)

/-- The code points up to the first octet that does not decode, for which there is a number greater
than those of all code points. -/
def codes : Nat → Bytes → List Nat
  | 0, _ => []
  | rounds + 1, bytes =>
    if bytes = [] then []
    else
      match next bytes with
      | .error _ => [0x110000]
      | .ok (cp, rest) => cp :: codes rounds rest

theorem codes_ne_nil {rounds : Nat} {bytes : Bytes} (hne : bytes ≠ [])
    (hrounds : bytes.length ≤ rounds) : codes rounds bytes ≠ [] := by
  obtain ⟨rounds, rfl⟩ : ∃ n, rounds = n + 1 :=
    ⟨rounds - 1, by have hpos := List.length_pos_iff.mpr hne; omega⟩
  rw [codes, if_neg hne]
  cases next bytes <;> exact List.cons_ne_nil _ _

end Utf8

theorem codes_of_end {n m : Nat} {a b : Bytes} (hm : b.length ≤ m) (h : a = [] ∨ b = []) :
    decide (b ≠ []) = decide (Utf8.codes n a < Utf8.codes m b) := by
  have hnil : ∀ k, Utf8.codes k [] = [] := by
    intro k
    cases k <;> rfl
  rw [decide_eq_decide]
  rcases h with rfl | rfl
  · rw [hnil]
    by_cases hb : b = []
    · rw [hb, hnil]
      exact iff_of_false (fun hne => hne rfl) (List.not_lt_nil _)
    · obtain ⟨c, cs, hcs⟩ := List.exists_cons_of_ne_nil (Utf8.codes_ne_nil hb hm)
      rw [hcs]
      exact iff_of_true hb (List.nil_lt_cons c cs)
  · rw [hnil]
    exact iff_of_false (fun hne => hne rfl) (List.not_lt_nil _)

theorem unicodeIsSmallerLoop_codes {rounds n m : Nat} {a b : Bytes} {r : Bool}
    (hrounds : a.length ≤ rounds) (hn : a.length ≤ n) (hm : b.length ≤ m)
    (h : unicodeIsSmallerLoop rounds a b = .ok r) :
    r = decide (Utf8.codes n a < Utf8.codes m b) := by
  induction rounds generalizing n m a b with
  | zero =>
    have ha : a = [] := List.eq_nil_of_length_eq_zero (Nat.le_zero.mp hrounds)
    rw [← codes_of_end hm (.inl ha)]
    exact (Except.ok.inj h).symm
  | succ rounds ih =>
    rw [unicodeIsSmallerLoop] at h
    split at h
    · rename_i hne
      have hpos₂ := List.length_pos_iff.mpr hne.2
      obtain ⟨⟨aCode, a'⟩, ha, h⟩ := bind_eq_ok h
      obtain ⟨⟨bCode, b'⟩, hb, h⟩ := bind_eq_ok h
      have hlen₁ := Utf8.next_length ha
      have hlen₂ := Utf8.next_length hb
      obtain ⟨n, rfl⟩ : ∃ k, n = k + 1 := ⟨n - 1, by omega⟩
      obtain ⟨m, rfl⟩ : ∃ k, m = k + 1 := ⟨m - 1, by omega⟩
      rw [Utf8.codes, Utf8.codes, if_neg hne.1, if_neg hne.2, ha, hb]
      have hiff : aCode :: Utf8.codes n a' < bCode :: Utf8.codes m b' ↔
          aCode < bCode ∨ aCode = bCode ∧ Utf8.codes n a' < Utf8.codes m b' :=
        List.cons_lt_cons_iff
      dsimp only at h ⊢
      split at h
      · rename_i hlt
        rw [decide_eq_true (hiff.mpr (.inl hlt))]
        exact (Except.ok.inj h).symm
      · rename_i hnlt
        split at h
        · rename_i hgt
          rw [decide_eq_false (by rw [hiff]; omega)]
          exact (Except.ok.inj h).symm
        · rename_i hngt
          have heq : aCode = bCode := by omega
          rw [ih (n := n) (m := m) (by omega) (by omega) (by omega) h, decide_eq_decide, hiff]
          exact ⟨fun hlt => .inr ⟨heq, hlt⟩, fun hlt => hlt.elim (fun hlt => by omega) And.right⟩
    · rename_i hor
      rw [not_and_or, not_not, not_not] at hor
      rw [← codes_of_end hm hor]
      exact (Except.ok.inj h).symm

theorem unicodeIsSmaller_codes {a b : Bytes} {r : Bool} (h : unicodeIsSmaller a b = .ok r) :
    r = decide (Utf8.codes a.length a < Utf8.codes b.length b) :=
  unicodeIsSmallerLoop_codes (Nat.le_refl _) (Nat.le_refl _) (Nat.le_refl _) h

end Sserialize
