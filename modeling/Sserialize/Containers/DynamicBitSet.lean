import Sserialize.Library.BitString
import Sserialize.Library.Overlay
import Sserialize.Storage.Bytes

/-! # `DynamicBitSet`

Bit `i` is bit `i % 8` of byte `i / 8`; the storage grows with zero bytes when a bit behind its
end is set. -/

namespace Sserialize

structure DynamicBitSet where
  data : Bytes
  deriving Repr, DecidableEq

namespace DynamicBitSet

def empty : DynamicBitSet := ⟨[]⟩

def isSet (b : DynamicBitSet) (pos : Nat) : Bool :=
  decide (b.data.length > pos / 8) && (b.data.getD (pos / 8) 0).toNat &&& (1 <<< (pos % 8)) != 0

def set (b : DynamicBitSet) (pos : Nat) : DynamicBitSet :=
  let offset := pos / 8
  let inByteOffset := pos % 8
  let data :=
    if offset ≥ b.data.length then b.data ++ List.replicate (offset + 1 - b.data.length) 0
    else b.data
  ⟨data.modify offset fun d => UInt8.ofNat (d.toNat ||| (1 <<< inByteOffset))⟩

theorem isSet_eq (b : DynamicBitSet) (pos : Nat) : b.isSet pos = BitString.bit b.data pos := by
  unfold isSet
  rw [Nat.shiftLeft_eq, Nat.one_mul, Nat.and_two_pow, ← BitString.bit]
  by_cases hpos : pos / 8 < b.data.length
  · cases BitString.bit b.data pos <;> simp [hpos]
  · rw [BitString.bit_of_length_le (by omega)]
    simp

theorem isSet_set (b : DynamicBitSet) (pos q : Nat) :
    (b.set pos).isSet q = (decide (q = pos) || b.isSet q) := by
  rw [isSet_eq, isSet_eq]
  unfold set
  generalize hdata : (if pos / 8 ≥ b.data.length then
      b.data ++ List.replicate (pos / 8 + 1 - b.data.length) 0 else b.data) = data
  have hsame : ∀ i, BitString.bit data i = BitString.bit b.data i := by
    intro i
    rw [← hdata]
    split
    · exact BitString.bit_append_zeros _ _ _
    · rfl
  have hlen : pos / 8 < data.length := by
    rw [← hdata]
    split
    · simp only [List.length_append, List.length_replicate]
      omega
    · omega
  simp only [ge_iff_le, hdata]
  rw [BitString.bit_modify _ _ hlen, hsame]
  by_cases hbyte : q / 8 = pos / 8
  · have hbit : decide (pos % 8 = q % 8) = decide (q = pos) := by
      apply decide_eq_decide.mpr
      constructor <;> intro h <;> omega
    have hlt : q % 8 < 8 := by omega
    have hold := hsame q
    rw [BitString.bit, hbyte] at hold
    rw [if_pos hbyte, UInt8.toNat_ofNat', Nat.testBit_mod_two_pow, Nat.testBit_or, hold,
      Nat.shiftLeft_eq, Nat.one_mul, Nat.testBit_two_pow, hbit]
    simp [hlt, Bool.or_comm]
  · have hne : q ≠ pos := by
      intro h
      exact hbyte (by rw [h])
    rw [if_neg hbyte]
    simp [hne]

end DynamicBitSet

end Sserialize

/-! ## The operators of `DynamicBitSet` -/

namespace Sserialize.DynamicBitSet

open BitString Overlay

def and (b other : DynamicBitSet) : DynamicBitSet :=
  ⟨List.zipWith (fun x y => x &&& y) b.data other.data⟩

/-- `operator|`: behind the common bytes come those of the longer operand. -/
def or (b other : DynamicBitSet) : DynamicBitSet :=
  ⟨List.zipWith (fun x y => x ||| y) b.data other.data ++
    b.data.drop (min b.data.length other.data.length) ++ other.data.drop b.data.length⟩

def sub (b other : DynamicBitSet) : DynamicBitSet :=
  ⟨List.zipWith (fun x y => x &&& ~~~y) b.data other.data⟩

def xor (b other : DynamicBitSet) : DynamicBitSet :=
  ⟨List.zipWith (fun x y => x ^^^ y) b.data other.data ++
    b.data.drop (min b.data.length other.data.length) ++ other.data.drop b.data.length⟩

def assignCommon (f : UInt8 → UInt8 → UInt8) (data other : Bytes) : Bytes :=
  List.zipWith f data other ++ data.drop (min data.length other.length)

/-- The storage grown to the size of `other`, with the bytes of `other` in the new part. -/
def appendRest (data other : Bytes) : Bytes :=
  if data.length < other.length then data ++ other.drop data.length else data

def andAssign (b other : DynamicBitSet) : DynamicBitSet :=
  ⟨assignCommon (fun x y => x &&& y) (b.data.take (min b.data.length other.data.length))
    other.data⟩

def orAssign (b other : DynamicBitSet) : DynamicBitSet :=
  ⟨appendRest (assignCommon (fun x y => x ||| y) b.data other.data) other.data⟩

def subAssign (b other : DynamicBitSet) : DynamicBitSet :=
  ⟨assignCommon (fun x y => x &&& ~~~y) b.data other.data⟩

def xorAssign (b other : DynamicBitSet) : DynamicBitSet :=
  ⟨appendRest (assignCommon (fun x y => x ^^^ y) b.data other.data) other.data⟩

/-! ## The storage of the results -/

theorem drop_min (xs : Bytes) (n : Nat) : xs.drop (min xs.length n) = xs.drop n := by
  rcases Nat.le_total xs.length n with hle | hle
  · rw [Nat.min_eq_left hle, List.drop_length, List.drop_eq_nil_of_le hle]
  · rw [Nat.min_eq_right hle]

theorem assignCommon_eq (f : UInt8 → UInt8 → UInt8) (data other : Bytes) :
    assignCommon f data other = overlay f true false data other := by
  rw [assignCommon, drop_min, overlay_eq_append, if_pos rfl, if_neg Bool.false_ne_true,
    List.append_nil]

theorem appendRest_eq (f : UInt8 → UInt8 → UInt8) (data other : Bytes) :
    appendRest (assignCommon f data other) other = overlay f true true data other := by
  have hlen : (assignCommon f data other).length = data.length := by
    rw [assignCommon_eq, length_overlay]
    simp
  rw [appendRest, hlen, overlay_eq_append, if_pos rfl, if_pos rfl, assignCommon, drop_min]
  by_cases hlt : data.length < other.length
  · rw [if_pos hlt, List.append_assoc]
  · rw [if_neg hlt, List.drop_eq_nil_of_le (Nat.le_of_not_lt hlt), List.append_nil]

variable (b other : DynamicBitSet)

theorem data_and :
    (b.and other).data = overlay (fun x y => x &&& y) false false b.data other.data := by
  rw [overlay_eq_append]
  simp [and]

theorem data_or : (b.or other).data = overlay (fun x y => x ||| y) true true b.data other.data := by
  rw [overlay_eq_append, if_pos rfl, if_pos rfl, or, drop_min, List.append_assoc]

theorem data_sub :
    (b.sub other).data = overlay (fun x y => x &&& ~~~y) false false b.data other.data := by
  rw [overlay_eq_append]
  simp [sub]

theorem data_xor : (b.xor other).data = overlay (fun x y => x ^^^ y) true true b.data other.data := by
  rw [overlay_eq_append, if_pos rfl, if_pos rfl, xor, drop_min, List.append_assoc]

/-! All assigning forms but `-=` leave the storage of the other form. -/

theorem andAssign_eq : b.andAssign other = b.and other := by
  have htake : b.data.take (min b.data.length other.data.length) =
      b.data.take other.data.length := by
    rw [Nat.min_comm, ← List.take_take, List.take_length]
  have hdata : (b.andAssign other).data = (b.and other).data := by
    rw [data_and, andAssign, htake]
    exact (assignCommon_eq _ _ _).trans (overlay_take _ _)
  exact congrArg DynamicBitSet.mk hdata

theorem orAssign_eq : b.orAssign other = b.or other := by
  have hdata := appendRest_eq (fun x y => x ||| y) b.data other.data
  rw [← data_or] at hdata
  exact congrArg DynamicBitSet.mk hdata

theorem xorAssign_eq : b.xorAssign other = b.xor other := by
  have hdata := appendRest_eq (fun x y => x ^^^ y) b.data other.data
  rw [← data_xor] at hdata
  exact congrArg DynamicBitSet.mk hdata

theorem data_subAssign :
    (b.subAssign other).data = overlay (fun x y => x &&& ~~~y) true false b.data other.data :=
  assignCommon_eq _ _ _

/-! ## The bits of the results -/

theorem testBit_and_not (x y : UInt8) {i : Nat} (hi : i < 8) :
    (x &&& ~~~y).toNat.testBit i = (x.toNat.testBit i && !y.toNat.testBit i) := by
  have hnot : (~~~y).toNat = 2 ^ 8 - (y.toNat + 1) := by
    rw [UInt8.toNat_not]
    have hy := y.toNat_lt
    show 256 - 1 - y.toNat = _
    omega
  rw [UInt8.toNat_and, Nat.testBit_and, hnot, Nat.testBit_two_pow_sub_succ y.toNat_lt]
  simp [hi]

theorem bit_overlay {f : UInt8 → UInt8 → UInt8} {g : Bool → Bool → Bool} {first second : Bool}
    (hf : ∀ x y : UInt8, ∀ i < 8,
      (f x y).toNat.testBit i = g (x.toNat.testBit i) (y.toNat.testBit i))
    (hfirst : ∀ x, f x 0 = if first then x else 0) (hsecond : ∀ y, f 0 y = if second then y else 0)
    (a b : Bytes) (i : Nat) :
    bit (overlay f first second a b) i = g (bit a i) (bit b i) := by
  rw [bit, getD_overlay hfirst hsecond, hf _ _ _ (Nat.mod_lt i (by decide))]
  rfl

theorem isSet_and (i : Nat) : (b.and other).isSet i = (b.isSet i && other.isSet i) := by
  rw [isSet_eq, isSet_eq, isSet_eq, data_and]
  refine bit_overlay (fun x y i _ => ?_) (fun x => ?_) (fun y => ?_) _ _ i
  · rw [UInt8.toNat_and, Nat.testBit_and]
  · exact UInt8.and_zero
  · exact UInt8.zero_and

theorem isSet_or (i : Nat) : (b.or other).isSet i = (b.isSet i || other.isSet i) := by
  rw [isSet_eq, isSet_eq, isSet_eq, data_or]
  refine bit_overlay (fun x y i _ => ?_) (fun x => ?_) (fun y => ?_) _ _ i
  · rw [UInt8.toNat_or, Nat.testBit_or]
  · exact UInt8.or_zero
  · exact UInt8.zero_or

theorem isSet_xor (i : Nat) : (b.xor other).isSet i = (b.isSet i ^^ other.isSet i) := by
  rw [isSet_eq, isSet_eq, isSet_eq, data_xor]
  refine bit_overlay (fun x y i _ => ?_) (fun x => ?_) (fun y => ?_) _ _ i
  · rw [UInt8.toNat_xor, Nat.testBit_xor]
  · exact UInt8.xor_zero
  · exact UInt8.zero_xor

theorem bit_difference (a b : Bytes) (i : Nat) :
    bit (overlay (fun x y => x &&& ~~~y) true false a b) i = (bit a i && !bit b i) := by
  refine bit_overlay (g := fun x y => x && !y) (fun x y i hi => testBit_and_not x y hi)
    (fun x => ?_) (fun y => ?_) a b i
  · have hnot : ~~~(0 : UInt8) = -1 := rfl
    rw [hnot]
    exact UInt8.and_neg_one
  · exact UInt8.zero_and

theorem isSet_subAssign (i : Nat) : (b.subAssign other).isSet i = (b.isSet i && !other.isSet i) := by
  rw [isSet_eq, isSet_eq, isSet_eq, data_subAssign, bit_difference]

theorem isSet_sub (i : Nat) :
    (b.sub other).isSet i =
      (decide (i < 8 * other.data.length) && (b.isSet i && !other.isSet i)) := by
  have hcut : overlay (fun x y => x &&& ~~~y) false false b.data other.data =
      overlay (fun x y => x &&& ~~~y) true false (b.data.take other.data.length) other.data :=
    (overlay_take _ _).symm
  rw [isSet_eq, isSet_eq, isSet_eq, data_sub, hcut, bit_difference, bit_take]
  cases decide (i < 8 * other.data.length) <;> rfl

/-- Both forms of all operators are the operations on the id sets. -/
structure OperatorsSpec (a b : DynamicBitSet) : Prop where
  and : ∀ i, (a.and b).isSet i = (a.isSet i && b.isSet i)
  or : ∀ i, (a.or b).isSet i = (a.isSet i || b.isSet i)
  sub : ∀ i, (a.sub b).isSet i = (a.isSet i && !b.isSet i)
  xor : ∀ i, (a.xor b).isSet i = (a.isSet i ^^ b.isSet i)
  andAssign : ∀ i, (a.andAssign b).isSet i = (a.and b).isSet i
  orAssign : ∀ i, (a.orAssign b).isSet i = (a.or b).isSet i
  subAssign : ∀ i, (a.subAssign b).isSet i = (a.sub b).isSet i
  xorAssign : ∀ i, (a.xorAssign b).isSet i = (a.xor b).isSet i

/-- `operator-` loses the ids of the first operand behind the storage of the second. -/
theorem operators_iff (a b : DynamicBitSet) :
    OperatorsSpec a b ↔ ∀ i, 8 * b.data.length ≤ i → a.isSet i = false := by
  constructor
  · intro h i hi
    have hsub := h.sub i
    have hother : b.isSet i = false := by
      rw [isSet_eq]
      exact bit_of_length_le (by omega)
    rw [isSet_sub, decide_eq_false (Nat.not_lt_of_le hi), hother, Bool.false_and] at hsub
    simpa using hsub.symm
  · intro h
    have hsub : ∀ i, (a.sub b).isSet i = (a.isSet i && !b.isSet i) := by
      intro i
      rw [isSet_sub]
      by_cases hi : i < 8 * b.data.length
      · rw [decide_eq_true hi, Bool.true_and]
      · rw [h i (Nat.le_of_not_lt hi), Bool.false_and, Bool.and_false]
    refine ⟨isSet_and a b, isSet_or a b, hsub, isSet_xor a b, fun i => by rw [andAssign_eq],
      fun i => by rw [orAssign_eq], fun i => ?_, fun i => by rw [xorAssign_eq]⟩
    rw [isSet_subAssign, hsub]

/-- The id 8 is lost when an id of the first byte is subtracted. -/
theorem operators_not : ¬ OperatorsSpec ⟨[0, 1]⟩ ⟨[1]⟩ := by
  intro h
  have hsub := h.sub 8
  revert hsub
  decide

end Sserialize.DynamicBitSet
