import Mathlib.Data.List.Basic
import Mathlib.Data.Nat.Bitwise

/-!
# Bit strings in byte lists

Two views of a byte list: `bit data i` counts bits from the low end of each byte, `bits data`
lists them from the high end of each byte. Behind the end of the data every bit is clear.
-/

namespace BitString

/-! ## Low bit first -/

def bit (data : List UInt8) (i : Nat) : Bool := (data.getD (i / 8) 0).toNat.testBit (i % 8)

@[simp] theorem bit_nil (i : Nat) : bit [] i = false := by simp [bit]

variable (data : List UInt8)

theorem getD_append_zeros (k i : Nat) : (data ++ List.replicate k 0).getD i 0 = data.getD i 0 := by
  by_cases hi : i < data.length
  · simp [List.getD, List.getElem?_append_left hi]
  · have hle : data.length ≤ i := by omega
    simp only [List.getD, List.getElem?_append_right hle, List.getElem?_eq_none hle]
    by_cases hk : i - data.length < k
    · simp [hk]
    · simp [hk]

theorem bit_append_zeros (k i : Nat) : bit (data ++ List.replicate k 0) i = bit data i := by
  rw [bit, getD_append_zeros, bit]

theorem bit_of_length_le {data : List UInt8} {i : Nat} (h : data.length ≤ i / 8) :
    bit data i = false := by
  have hdefault : data.getD (i / 8) 0 = 0 := by
    simp [List.getD, List.getElem?_eq_none h]
  rw [bit, hdefault]
  simp

theorem getD_take {size pos : Nat} (hpos : pos < size) :
    (data.take size).getD pos 0 = data.getD pos 0 := by
  simp [List.getD, hpos]

theorem bit_take_of_le {data : List UInt8} {size i : Nat} (h : size ≤ i / 8) :
    bit (data.take size) i = false := by
  apply bit_of_length_le
  rw [List.length_take]
  omega

theorem bit_take (size i : Nat) : bit (data.take size) i = (decide (i < 8 * size) && bit data i) := by
  by_cases hi : i < 8 * size
  · rw [bit, getD_take data (by omega), decide_eq_true hi, Bool.true_and, bit]
  · rw [bit_take_of_le (by omega), decide_eq_false hi, Bool.false_and]

theorem getD_modify (f : UInt8 → UInt8) {k : Nat} (hk : k < data.length) (i : Nat) :
    (data.modify k f).getD i 0 = if i = k then f (data.getD k 0) else data.getD i 0 := by
  by_cases hi : i = k
  · subst hi
    simp [List.getD, hk]
  · have hne : ¬ k = i := fun h => hi h.symm
    simp [List.getD, hi, hne]

theorem bit_modify (f : UInt8 → UInt8) {k : Nat} (hk : k < data.length) (i : Nat) :
    bit (data.modify k f) i =
      if i / 8 = k then (f (data.getD k 0)).toNat.testBit (i % 8) else bit data i := by
  rw [bit, getD_modify data f hk]
  split
  · rfl
  · rfl

theorem bit_append_right (front data : List UInt8) (i : Nat) :
    bit (front ++ data) (8 * front.length + i) = bit data i := by
  have hdiv : (8 * front.length + i) / 8 = front.length + i / 8 := by omega
  have hmod : (8 * front.length + i) % 8 = i % 8 := by omega
  rw [bit, bit, hdiv, hmod, List.getD, List.getD, List.getElem?_append_right (Nat.le_add_right _ _),
    Nat.add_sub_cancel_left]

theorem bit_append_left {front data : List UInt8} {i : Nat} (h : i / 8 < front.length) :
    bit (front ++ data) i = bit front i := by
  rw [bit, bit]
  simp [List.getD, List.getElem?_append_left h]

theorem eq_of_testBit {m n width : Nat} (hm : m < 2 ^ width) (hn : n < 2 ^ width)
    (h : ∀ i < width, m.testBit i = n.testBit i) : m = n := by
  apply Nat.eq_of_testBit_eq
  intro i
  by_cases hi : i < width
  · exact h i hi
  · have hle : 2 ^ width ≤ 2 ^ i := Nat.pow_le_pow_right (by decide) (by omega)
    rw [Nat.testBit_lt_two_pow (by omega), Nat.testBit_lt_two_pow (by omega)]

/-! ## High bit first -/

/-- The lowest `k` bits of `n`, the highest of them first. -/
def lowBits : Nat → Nat → List Bool
  | 0, _ => []
  | k + 1, n => n.testBit k :: lowBits k n

@[simp] theorem length_lowBits (k n : Nat) : (lowBits k n).length = k := by
  induction k with
  | zero => rfl
  | succ k ih => rw [lowBits, List.length_cons, ih]

def bits (data : List UInt8) : List Bool := data.flatMap fun b => lowBits 8 b.toNat

@[simp] theorem bits_nil : bits [] = [] := rfl

@[simp] theorem bits_cons (b : UInt8) (data : List UInt8) :
    bits (b :: data) = lowBits 8 b.toNat ++ bits data := by
  simp [bits]

theorem bits_append (front data : List UInt8) : bits (front ++ data) = bits front ++ bits data := by
  simp [bits]

theorem length_bits : (bits data).length = 8 * data.length := by
  induction data with
  | nil => rfl
  | cons b data ih =>
    rw [bits_cons, List.length_append, length_lowBits, ih, List.length_cons]
    omega

theorem drop_bits (n : Nat) (data : List UInt8) :
    (bits data).drop (8 * n) = bits (data.drop n) := by
  induction n generalizing data with
  | zero => rfl
  | succ n ih =>
    cases data with
    | nil => simp
    | cons b data =>
      rw [bits_cons, Nat.mul_succ, Nat.add_comm, ← List.drop_drop,
        List.drop_left' (length_lowBits 8 b.toNat), ih, List.drop_succ_cons]

theorem lowBits_add (m k n : Nat) : lowBits (m + k) n = lowBits m (n >>> k) ++ lowBits k n := by
  induction m with
  | zero => simp [lowBits]
  | succ m ih =>
    rw [Nat.succ_add, lowBits, ih, lowBits, List.cons_append, Nat.testBit_shiftRight,
      Nat.add_comm k m]

theorem lowBits_congr {k m n : Nat} (h : ∀ i < k, m.testBit i = n.testBit i) :
    lowBits k m = lowBits k n := by
  induction k with
  | zero => rfl
  | succ k ih =>
    rw [lowBits, lowBits, h k (Nat.lt_succ_self k), ih fun i hi => h i (Nat.lt_succ_of_lt hi)]

theorem lowBits_zero (k : Nat) : lowBits k 0 = List.replicate k false := by
  induction k with
  | zero => rfl
  | succ k ih => rw [lowBits, ih, Nat.zero_testBit, List.replicate_succ]

theorem bits_replicate_zero (k : Nat) :
    bits (List.replicate k 0) = List.replicate (8 * k) false := by
  induction k with
  | zero => rfl
  | succ k ih =>
    have hzero : (0 : UInt8).toNat = 0 := rfl
    rw [List.replicate_succ, bits_cons, ih, hzero, lowBits_zero, ← List.replicate_add]
    congr 1
    omega

theorem eq_zero_of_lowBits {k n : Nat} (hn : n < 2 ^ k)
    (h : lowBits k n = List.replicate k false) : n = 0 := by
  induction k with
  | zero => omega
  | succ k ih =>
    rw [lowBits, List.replicate_succ, List.cons.injEq] at h
    refine ih ?_ h.2
    by_contra hge
    have hbit : n.testBit k = true :=
      Nat.testBit_of_two_pow_le_and_two_pow_add_one_gt (by omega) hn
    rw [h.1] at hbit
    cases hbit

/-! ## Unary code -/

def unary (vs : List Nat) : List Bool := vs.flatMap fun v => List.replicate v false ++ [true]

theorem unary_cons (v : Nat) (vs : List Nat) :
    unary (v :: vs) = List.replicate v false ++ true :: unary vs := by
  simp [unary]

theorem replicate_append_code {k v : Nat} {rest bs : List Bool}
    (h : List.replicate k false ++ rest = List.replicate v false ++ true :: bs) :
    k ≤ v ∧ rest = List.replicate (v - k) false ++ true :: bs := by
  induction k generalizing v with
  | zero => exact ⟨Nat.zero_le v, h⟩
  | succ k ih =>
    cases v with
    | zero => simp [List.replicate_succ] at h
    | succ v =>
      rw [List.replicate_succ, List.replicate_succ, List.cons_append, List.cons_append,
        List.cons.injEq] at h
      obtain ⟨hle, hrest⟩ := ih h.2
      rw [Nat.succ_sub_succ]
      exact ⟨by omega, hrest⟩

theorem length_unary (vs : List Nat) : (unary vs).length = vs.sum + vs.length := by
  induction vs with
  | nil => rfl
  | cons v vs ih =>
    rw [unary_cons, List.length_append, List.length_cons, ih, List.length_replicate,
      List.sum_cons, List.length_cons]
    omega

end BitString

/-!
## Numbers of one width behind each other, high bit first

`code b vs` is the concatenation of the lowest `b` bits of every number. A number is the slice of
the code at its position, and a code determines its numbers.
-/

namespace BitString

/-! ## Slices of one number -/

theorem lowBits_slice (skip w r n : Nat) :
    ((lowBits (skip + (w + r)) n).drop skip).take w = lowBits w (n >>> r) := by
  rw [lowBits_add, List.drop_left' (length_lowBits _ _), lowBits_add,
    List.take_left' (length_lowBits _ _)]

theorem lowBits_mod (w n : Nat) : lowBits w (n % 2 ^ w) = lowBits w n := by
  apply lowBits_congr
  intro i hi
  rw [Nat.testBit_mod_two_pow, decide_eq_true hi, Bool.true_and]

theorem lowBits_shiftLeft (w k n : Nat) :
    lowBits (w + k) (n <<< k) = lowBits w n ++ List.replicate k false := by
  rw [lowBits_add, Nat.shiftLeft_shiftRight]
  congr 1
  rw [← lowBits_zero]
  apply lowBits_congr
  intro i hi
  rw [Nat.testBit_shiftLeft, Nat.zero_testBit, decide_eq_false (by omega), Bool.false_and]

theorem lowBits_shiftLeft_drop {w k : Nat} (n : Nat) (hk : k ≤ w) :
    lowBits w (n <<< k) = (lowBits w n).drop k ++ List.replicate k false := by
  obtain ⟨w', rfl⟩ : ∃ w', w = k + w' := ⟨w - k, by omega⟩
  rw [Nat.add_comm k w', lowBits_shiftLeft, Nat.add_comm w' k, lowBits_add,
    List.drop_left' (length_lowBits _ _)]

theorem lowBits_shiftLeft_twice {w k : Nat} (n : Nat) (hk : 2 * k ≤ w) :
    lowBits w ((n <<< k % 2 ^ w) <<< k % 2 ^ w) =
      (lowBits w n).drop (2 * k) ++ List.replicate (2 * k) false := by
  have hlen : k ≤ ((lowBits w n).drop k).length := by
    rw [List.length_drop, length_lowBits]
    omega
  rw [lowBits_mod, lowBits_shiftLeft_drop _ (by omega), lowBits_mod,
    lowBits_shiftLeft_drop _ (by omega), List.drop_append_of_le_length hlen, List.drop_drop,
    List.append_assoc, ← List.replicate_add, Nat.two_mul]

theorem testBit_of_lowBits {w m n : Nat} (h : lowBits w m = lowBits w n) :
    ∀ i < w, m.testBit i = n.testBit i := by
  induction w with
  | zero =>
    intro i hi
    omega
  | succ w ih =>
    rw [lowBits, lowBits, List.cons.injEq] at h
    intro i hi
    by_cases htop : i = w
    · rw [htop]
      exact h.1
    · exact ih h.2 i (by omega)

theorem lowBits_injective {w m n : Nat} (hm : m < 2 ^ w) (hn : n < 2 ^ w)
    (h : lowBits w m = lowBits w n) : m = n :=
  eq_of_testBit hm hn (testBit_of_lowBits h)

theorem lowBits_or {front back : List Bool} {m n w r : Nat}
    (hm : lowBits (w + r) m = front ++ List.replicate r false)
    (hn : lowBits (w + r) n = List.replicate w false ++ back) :
    lowBits (w + r) (m ||| n) = front ++ back := by
  have hmBits : lowBits w (m >>> r) = front ∧ lowBits r m = List.replicate r false := by
    rw [lowBits_add] at hm
    exact List.append_inj' hm (by rw [length_lowBits, List.length_replicate])
  have hnBits : lowBits w (n >>> r) = List.replicate w false ∧ lowBits r n = back := by
    rw [lowBits_add] at hn
    exact List.append_inj hn (by rw [length_lowBits, List.length_replicate])
  have hclear : ∀ {k a : Nat}, lowBits k a = List.replicate k false →
      ∀ i < k, a.testBit i = false := by
    intro k a ha i hi
    rw [testBit_of_lowBits (ha.trans (lowBits_zero k).symm) i hi, Nat.zero_testBit]
  rw [lowBits_add]
  congr 1
  · rw [← hmBits.1]
    apply lowBits_congr
    intro i hi
    have hi' := hclear hnBits.1 i hi
    rw [Nat.testBit_shiftRight] at hi' ⊢
    rw [Nat.testBit_shiftRight, Nat.testBit_or, hi', Bool.or_false]
  · rw [← hnBits.2]
    apply lowBits_congr
    intro i hi
    rw [Nat.testBit_or, hclear hmBits.2 i hi, Bool.false_or]

theorem lowBits_or_right {w m n : Nat} (k : Nat) (h : lowBits w m = lowBits w n) :
    lowBits w (m ||| k) = lowBits w (n ||| k) := by
  apply lowBits_congr
  intro i hi
  rw [Nat.testBit_or, Nat.testBit_or, testBit_of_lowBits h i hi]

theorem lowBits_or_shiftLeft {front : List Bool} {m v w r : Nat} (hv : v < 2 ^ w)
    (hm : lowBits (front.length + (w + r)) m = front ++ List.replicate (w + r) false) :
    lowBits (front.length + (w + r)) (m ||| v <<< r) =
      front ++ (lowBits w v ++ List.replicate r false) := by
  refine lowBits_or hm ?_
  have hzero : (v <<< r) >>> (w + r) = 0 := by
    rw [Nat.add_comm w r, Nat.shiftRight_add, Nat.shiftLeft_shiftRight,
      Nat.shiftRight_eq_div_pow, Nat.div_eq_of_lt hv]
  rw [lowBits_add, hzero, lowBits_zero, lowBits_shiftLeft]

/-! ## The code -/

def code (b : Nat) (vs : List Nat) : List Bool := vs.flatMap (lowBits b)

@[simp] theorem code_nil (b : Nat) : code b [] = [] := rfl

theorem code_cons (b v : Nat) (vs : List Nat) : code b (v :: vs) = lowBits b v ++ code b vs := rfl

theorem code_append (b : Nat) (front vs : List Nat) :
    code b (front ++ vs) = code b front ++ code b vs := by
  simp [code]

theorem length_code (b : Nat) (vs : List Nat) : (code b vs).length = b * vs.length := by
  induction vs with
  | nil => rfl
  | cons v vs ih =>
    rw [code_cons, List.length_append, length_lowBits, ih, List.length_cons,
      Nat.mul_succ, Nat.add_comm]

theorem take_code (b : Nat) (vs : List Nat) {k : Nat} (hk : k ≤ vs.length) :
    (code b vs).take (b * k) = code b (vs.take k) := by
  have hsplit := congrArg (code b) (List.take_append_drop k vs)
  rw [code_append] at hsplit
  rw [← hsplit, List.take_left']
  rw [length_code, List.length_take, Nat.min_eq_left hk]

theorem drop_code (b : Nat) (vs : List Nat) {k : Nat} (hk : k ≤ vs.length) :
    (code b vs).drop (b * k) = code b (vs.drop k) := by
  have hsplit := congrArg (code b) (List.take_append_drop k vs)
  rw [code_append] at hsplit
  rw [← hsplit, List.drop_left']
  rw [length_code, List.length_take, Nat.min_eq_left hk]

theorem slice_code {b i : Nat} {vs : List Nat} (rest : List Bool) (hi : i < vs.length) :
    ((code b vs ++ rest).drop (b * i)).take b = lowBits b vs[i] := by
  have hlen : b * i + b ≤ (code b vs).length := by
    have hmul : b * (i + 1) ≤ b * vs.length := Nat.mul_le_mul_left b hi
    rw [length_code]
    rwa [Nat.mul_succ] at hmul
  rw [List.drop_append_of_le_length (by omega),
    List.take_append_of_le_length (by rw [List.length_drop]; omega), drop_code b vs (by omega),
    List.drop_eq_getElem_cons hi, code_cons, List.take_left' (length_lowBits _ _)]

theorem code_injective {b : Nat} {vs ws : List Nat} (hlen : vs.length = ws.length)
    (hvs : ∀ v ∈ vs, v < 2 ^ b) (hws : ∀ v ∈ ws, v < 2 ^ b) (h : code b vs = code b ws) :
    vs = ws := by
  induction vs generalizing ws with
  | nil => exact (List.eq_nil_of_length_eq_zero hlen.symm).symm
  | cons v vs ih =>
    cases ws with
    | nil => cases hlen
    | cons w ws =>
      rw [code_cons, code_cons] at h
      obtain ⟨hhead, htail⟩ := List.append_inj h (by rw [length_lowBits, length_lowBits])
      rw [List.forall_mem_cons] at hvs hws
      rw [lowBits_injective hvs.1 hws.1 hhead, ih (Nat.succ.inj hlen) hvs.2 hws.2 htail]

theorem bits_eq_code (data : List UInt8) : bits data = code 8 (data.map UInt8.toNat) := by
  induction data with
  | nil => rfl
  | cons d data ih => rw [bits_cons, List.map_cons, code_cons, ih]

theorem bits_injective {data other : List UInt8} (h : bits data = bits other) : data = other := by
  have hlen := congrArg List.length h
  rw [length_bits, length_bits] at hlen
  rw [bits_eq_code, bits_eq_code] at h
  have hlt : ∀ (l : List UInt8), ∀ v ∈ l.map UInt8.toNat, v < 2 ^ 8 := by
    intro l v hv
    obtain ⟨d, -, rfl⟩ := List.mem_map.mp hv
    exact d.toNat_lt
  have hmap := code_injective (by rw [List.length_map, List.length_map]; omega) (hlt data)
    (hlt other) h
  exact List.map_injective_iff.mpr (fun _ _ => UInt8.toNat_inj.mp) hmap

theorem bits_take (data : List UInt8) (k : Nat) : bits (data.take k) = (bits data).take (8 * k) := by
  by_cases hk : k ≤ data.length
  · rw [bits_eq_code, bits_eq_code, List.map_take, take_code]
    rwa [List.length_map]
  · rw [List.take_of_length_le (by omega), List.take_of_length_le]
    rw [length_bits]
    omega

theorem bits_drop (data : List UInt8) (k : Nat) : bits (data.drop k) = (bits data).drop (8 * k) := by
  by_cases hk : k ≤ data.length
  · rw [bits_eq_code, bits_eq_code, List.map_drop, drop_code]
    rwa [List.length_map]
  · rw [List.drop_eq_nil_of_le (by omega), List.drop_eq_nil_of_le, bits_nil]
    rw [length_bits]
    omega

end BitString
