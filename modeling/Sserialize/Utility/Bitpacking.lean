import Sserialize.Containers.CompactUintArray

/-!
# `Bitpacking`

Blocks of numbers of one width, high bit first. A number is read from and written through a
buffer that starts at a byte in front of it; the buffer is an integer here, the source keeps its
big endian bytes while it packs.
-/

namespace Sserialize.Bitpacking

/-- The digits of the type that `BitpackingBufferTypeSelector` chooses. -/
def bufferBits (bpn : Nat) : Nat :=
  if bpn = 1 ∨ bpn = 2 ∨ bpn = 4 ∨ bpn = 8 then 8
  else if bpn = 3 ∨ bpn = 5 ∨ bpn = 6 ∨ bpn = 7 ∨ bpn = 16 then 16
  else if (9 ≤ bpn ∧ bpn ≤ 15) ∨ bpn = 32 then 32
  else 64

def bufferBytes (bpn : Nat) : Nat := bufferBits bpn / 8

def blockBits (bpn : Nat) : Nat := bpn * bufferBits bpn

def blockSize (bpn : Nat) : Nat := blockBits bpn / bpn

def blockBytes (bpn : Nat) : Nat := blockBits bpn / 8

/-- The widths for which `BitpackingInterface::instance` has an instance. -/
def Supported (bpn : Nat) : Prop := 1 ≤ bpn ∧ bpn ≤ 56 ∨ bpn = 64

instance (bpn : Nat) : Decidable (Supported bpn) := by
  unfold Supported
  infer_instance

/-! ## The tables -/

def calcBegin (bpn i : Nat) : Nat :=
  if i * bpn + bufferBits bpn > blockBits bpn then blockBytes bpn - bufferBytes bpn
  else i * bpn / 8

def calcRs (bpn i : Nat) : Nat := (calcBegin bpn i + bufferBytes bpn) * 8 - (i + 1) * bpn

def calcUpCpb (bpn i : Nat) : Nat :=
  if i * bpn + bufferBits bpn > blockBits bpn then blockBytes bpn - bufferBytes bpn
  else i * bpn / 8

def calcUpCps (bpn i : Nat) : Nat := calcUpCpb bpn (i + 1) - calcUpCpb bpn i

def calcUpLs (bpn i : Nat) : Nat :=
  min (blockBytes bpn - i * bpn / 8) (bufferBytes bpn) * 8 - bpn - i * bpn % 8

/-! ## Unpacking -/

def unpackAt (bpn : Nat) (src : Bytes) (i : Nat) : Except Fault Nat := do
  let buffer ← loadBe (bufferBytes bpn) src (calcBegin bpn i)
  return (buffer >>> calcRs bpn i) &&& createMask bpn

def unpackLoop (bpn : Nat) (src : Bytes) : Nat → Nat → Except Fault (List Nat)
  | 0, _ => .ok []
  | rounds + 1, i => do
    let v ← unpackAt bpn src i
    let vs ← unpackLoop bpn src rounds (i + 1)
    return v :: vs

def unpack (bpn : Nat) (src : Bytes) : Except Fault (List Nat) :=
  unpackLoop bpn src (blockSize bpn) 0

/-- The loop of `unpack` over the blocks: the numbers and the input behind them. -/
def unpackCount (bpn : Nat) : Nat → Bytes → Except Fault (List Nat × Bytes)
  | 0, input => .ok ([], input)
  | blocks + 1, input => do
    let vs ← unpack bpn input
    let (rest, input) ← unpackCount bpn blocks (input.drop (blockBytes bpn))
    return (vs ++ rest, input)

/-- `unpack_blocks`: the numbers, `src` and `count` as it leaves them. -/
def unpackBlocks (bpn : Nat) (src : Bytes) (count : Nat) : Except Fault (List Nat × Bytes × Nat) := do
  let myCount := (count / blockSize bpn) * blockSize bpn
  let (vs, src) ← unpackCount bpn (myCount / blockSize bpn) src
  return (vs, src, count - myCount)

/-! ## Packing -/

def packStep (bpn : Nat) (input : List Nat) (i : Nat) (flushBuffer : Nat) (output : Bytes) :
    Except Fault (Nat × Bytes) :=
  match input[i]? with
  | none => .error .undefinedBehaviour
  | some v => do
    let buffer := (v &&& createMask bpn) <<< calcUpLs bpn i % 2 ^ bufferBits bpn
    let flushBuffer := flushBuffer ||| buffer
    let output ← storeBe (bufferBytes bpn) output (calcUpCpb bpn i) flushBuffer
    -- in two steps, since one shift may have the width of the buffer
    let shiftamount := 4 * calcUpCps bpn i
    let flushBuffer := flushBuffer <<< shiftamount % 2 ^ bufferBits bpn
    let flushBuffer := flushBuffer <<< shiftamount % 2 ^ bufferBits bpn
    return (flushBuffer, output)

def packLoop (bpn : Nat) (input : List Nat) :
    Nat → Nat → Nat → Bytes → Except Fault (Nat × Bytes)
  | 0, _, flushBuffer, output => .ok (flushBuffer, output)
  | rounds + 1, i, flushBuffer, output => do
    let (flushBuffer, output) ← packStep bpn input i flushBuffer output
    packLoop bpn input rounds (i + 1) flushBuffer output

def pack (bpn : Nat) (input : List Nat) (output : Bytes) : Except Fault Bytes := do
  let (_, output) ← packLoop bpn input (blockSize bpn) 0 0 output
  return output

/-- The loop of `pack` over the blocks: the memory in front of the output pointer that it returns
and the memory from there on. -/
def packCount (bpn : Nat) : Nat → List Nat → Bytes → Except Fault (Bytes × Bytes)
  | 0, _, output => .ok ([], output)
  | blocks + 1, input, output => do
    let output ← pack bpn input output
    let (front, rest) ← packCount bpn blocks (input.drop (blockSize bpn))
      (output.drop (blockBytes bpn))
    return (output.take (blockBytes bpn) ++ front, rest)

/-- `pack_blocks`: the packed bytes, and `dest`, `src` and `count` as it leaves them. -/
def packBlocks (bpn : Nat) (src : List Nat) (dest : Bytes) (count : Nat) :
    Except Fault (Bytes × Bytes × List Nat × Nat) := do
  let myCount := (count / blockSize bpn) * blockSize bpn
  let (packed, dest) ← packCount bpn (myCount / blockSize bpn) src dest
  return (packed, dest, src.drop myCount, count - myCount)

/-! ## The numbers of a block -/

variable {bpn : Nat}

theorem residue_add_le (h : Supported bpn) (i : Nat) : i * bpn % 8 + bpn ≤ bufferBits bpn := by
  have hsmall : ∀ b < 65, Supported b → ∀ j < 8, j * b % 8 + b ≤ bufferBits b := by decide
  have hlt : bpn < 65 := by
    unfold Supported at h
    omega
  have hmod : i * bpn % 8 = i % 8 * bpn % 8 := (Nat.mod_mul_mod i bpn 8).symm
  rw [hmod]
  exact hsmall bpn hlt h (i % 8) (Nat.mod_lt i (by decide))

theorem pos_of_supported (h : Supported bpn) : 0 < bpn := by
  unfold Supported at h
  omega

theorem bufferBits_eq (bpn : Nat) : bufferBits bpn = 8 * bufferBytes bpn := by
  unfold bufferBytes bufferBits
  split
  · rfl
  · split
    · rfl
    · split
      · rfl
      · rfl

theorem blockSize_eq (h : Supported bpn) : blockSize bpn = bufferBits bpn :=
  Nat.mul_div_cancel_left _ (pos_of_supported h)

theorem blockBits_eq (bpn : Nat) : blockBits bpn = 8 * blockBytes bpn := by
  have hbits : blockBits bpn = 8 * (bpn * bufferBytes bpn) := by
    rw [blockBits, bufferBits_eq]
    exact Nat.mul_left_comm _ _ _
  rw [blockBytes]
  omega

theorem bufferBytes_le_blockBytes (h : Supported bpn) : bufferBytes bpn ≤ blockBytes bpn := by
  have hle : 1 * bufferBits bpn ≤ bpn * bufferBits bpn :=
    Nat.mul_le_mul_right _ (pos_of_supported h)
  have hbuffer := bufferBits_eq bpn
  have hblock := blockBits_eq bpn
  rw [blockBits] at hblock
  omega

theorem bpn_mul_succ_le {bpn i : Nat} (h : Supported bpn) (hi : i < blockSize bpn) :
    bpn * i + bpn ≤ blockBits bpn := by
  rw [blockSize_eq h] at hi
  have hmul : bpn * (i + 1) ≤ bpn * bufferBits bpn := Nat.mul_le_mul_left bpn hi
  rwa [Nat.mul_succ] at hmul

theorem calcUpCpb_eq (bpn i : Nat) : calcUpCpb bpn i = calcBegin bpn i := rfl

theorem calcBegin_spec {bpn i : Nat} (h : Supported bpn) (hi : i < blockSize bpn) :
    8 * calcBegin bpn i ≤ bpn * i ∧ bpn * i + bpn ≤ 8 * calcBegin bpn i + bufferBits bpn ∧
      calcBegin bpn i + bufferBytes bpn ≤ blockBytes bpn := by
  have hend := bpn_mul_succ_le h hi
  have hbuffer := bufferBits_eq bpn
  have hblock := blockBits_eq bpn
  have hle := bufferBytes_le_blockBytes h
  have hresidue := residue_add_le h i
  unfold calcBegin
  rw [Nat.mul_comm i bpn] at hresidue ⊢
  split
  · omega
  · omega

theorem calcBegin_succ {bpn : Nat} (h : Supported bpn) (i : Nat) :
    calcBegin bpn i ≤ calcBegin bpn (i + 1) ∧ 8 * calcBegin bpn (i + 1) ≤ bpn * i + bpn := by
  have hbuffer := bufferBits_eq bpn
  have hblock := blockBits_eq bpn
  have hle := bufferBytes_le_blockBytes h
  unfold calcBegin
  rw [Nat.mul_comm i bpn, Nat.mul_comm (i + 1) bpn, Nat.mul_succ]
  split
  · rw [if_pos (by omega)]
    omega
  · split
    · omega
    · omega

theorem calcRs_eq (bpn i : Nat) :
    calcRs bpn i = 8 * calcBegin bpn i + bufferBits bpn - (bpn * i + bpn) := by
  have hbuffer := bufferBits_eq bpn
  rw [calcRs, Nat.mul_comm (i + 1) bpn, Nat.mul_succ bpn i]
  omega

theorem calcUpLs_eq {bpn i : Nat} (h : Supported bpn) (hi : i < blockSize bpn) :
    calcUpLs bpn i = 8 * calcBegin bpn i + bufferBits bpn - (bpn * i + bpn) := by
  have hend := bpn_mul_succ_le h hi
  have hbuffer := bufferBits_eq bpn
  have hblock := blockBits_eq bpn
  have hle := bufferBytes_le_blockBytes h
  unfold calcUpLs calcBegin
  rw [Nat.mul_comm i bpn]
  split
  · rw [Nat.min_eq_left (by omega)]
    omega
  · rw [Nat.min_eq_right (by omega)]
    omega

open BitString

theorem lowBits_and_createMask (bpn v : Nat) : lowBits bpn (v &&& createMask bpn) = lowBits bpn v := by
  rw [createMask, Nat.and_two_pow_sub_one_eq_mod, lowBits_mod]

theorem and_createMask_lt (bpn v : Nat) : v &&& createMask bpn < 2 ^ bpn := by
  rw [createMask, Nat.and_two_pow_sub_one_eq_mod]
  exact Nat.mod_lt v (Nat.two_pow_pos bpn)

/-! ## Unpacking reads the slices of the bits -/

theorem unpackAt_spec {bpn i : Nat} {src : Bytes} (h : Supported bpn) (hi : i < blockSize bpn)
    (hsrc : blockBytes bpn ≤ src.length) :
    ∃ v, unpackAt bpn src i = .ok v ∧ v < 2 ^ bpn ∧
      lowBits bpn v = ((bits src).drop (bpn * i)).take bpn := by
  obtain ⟨hbegin, hfit, hblock⟩ := calcBegin_spec h hi
  obtain ⟨buffer, hload, hbits⟩ :=
    loadBe_spec (bufferBytes bpn) (calcBegin bpn i) src (by omega)
  refine ⟨_, by rw [unpackAt, hload]; rfl, and_createMask_lt _ _, ?_⟩
  have hrs := calcRs_eq bpn i
  have hwidth : 8 * bufferBytes bpn =
      (bpn * i - 8 * calcBegin bpn i) + (bpn + calcRs bpn i) := by
    have hbuffer := bufferBits_eq bpn
    omega
  rw [lowBits_and_createMask, ← lowBits_slice (bpn * i - 8 * calcBegin bpn i), ← hwidth,
    hbits, List.drop_take, List.take_take, List.drop_drop]
  congr 1
  · omega
  · congr 1
    omega

theorem unpackLoop_spec {src : Bytes} (h : Supported bpn) (hsrc : blockBytes bpn ≤ src.length)
    (rounds i : Nat) (hi : i + rounds ≤ blockSize bpn) :
    ∃ vs, unpackLoop bpn src rounds i = .ok vs ∧ vs.length = rounds ∧ (∀ v ∈ vs, v < 2 ^ bpn) ∧
      code bpn vs = ((bits src).drop (bpn * i)).take (bpn * rounds) := by
  induction rounds generalizing i with
  | zero => exact ⟨[], rfl, rfl, by simp, by simp⟩
  | succ rounds ih =>
    obtain ⟨v, hv, hlt, hbits⟩ := unpackAt_spec h (show i < blockSize bpn by omega) hsrc
    obtain ⟨vs, hvs, hlen, hall, hcode⟩ := ih (i + 1) (by omega)
    refine ⟨v :: vs, ?_, by rw [List.length_cons, hlen], ?_, ?_⟩
    · rw [unpackLoop, hv, ok_bind, hvs]
      rfl
    · exact List.forall_mem_cons.mpr ⟨hlt, hall⟩
    · rw [code_cons, hbits, hcode, Nat.mul_succ, Nat.mul_succ, Nat.add_comm (bpn * rounds),
        List.take_add, List.drop_drop]

theorem unpack_spec (src : Bytes) (h : Supported bpn) (hsrc : blockBytes bpn ≤ src.length) :
    ∃ vs, unpack bpn src = .ok vs ∧ vs.length = blockSize bpn ∧ (∀ v ∈ vs, v < 2 ^ bpn) ∧
      code bpn vs = (bits src).take (8 * blockBytes bpn) := by
  obtain ⟨vs, hvs, hlen, hall, hcode⟩ := unpackLoop_spec h hsrc (blockSize bpn) 0 (by omega)
  refine ⟨vs, hvs, hlen, hall, ?_⟩
  have hblock := blockBits_eq bpn
  rw [blockBits] at hblock
  rw [hcode, Nat.mul_zero, List.drop_zero, blockSize_eq h, hblock]

/-! ## Packing appends the numbers to the bits -/

/-- Before number `i` is packed, the output has the bits of the numbers in front of it, and the
flush buffer those of them that its bytes hold. -/
structure PackInv (bpn : Nat) (input : List Nat) (output₀ : Bytes) (i flushBuffer : Nat)
    (output : Bytes) : Prop where
  length : output.length = output₀.length
  written : (bits output).take (bpn * i) = code bpn (input.take i)
  flush : lowBits (bufferBits bpn) flushBuffer =
    (code bpn (input.take i)).drop (8 * calcBegin bpn i) ++
      List.replicate (8 * calcBegin bpn i + bufferBits bpn - bpn * i) false
  frame : output.drop (blockBytes bpn) = output₀.drop (blockBytes bpn)

theorem packInv_zero (bpn : Nat) (input : List Nat) (output : Bytes) (h : Supported bpn) :
    PackInv bpn input output 0 0 output := by
  have hbegin : calcBegin bpn 0 = 0 := by
    have hle := bufferBytes_le_blockBytes h
    have hbuffer := bufferBits_eq bpn
    have hblock := blockBits_eq bpn
    unfold calcBegin
    rw [if_neg (by omega), Nat.zero_mul]
  exact ⟨rfl, rfl, by simp [hbegin, lowBits_zero], rfl⟩

variable {input : List Nat}

theorem flushBuffer_or {i v flushBuffer : Nat} (h : Supported bpn) (hi : i < blockSize bpn)
    (hinput : i ≤ input.length)
    (hflush : lowBits (bufferBits bpn) flushBuffer =
      (code bpn (input.take i)).drop (8 * calcBegin bpn i) ++
        List.replicate (8 * calcBegin bpn i + bufferBits bpn - bpn * i) false) :
    lowBits (bufferBits bpn) (flushBuffer |||
        (v &&& createMask bpn) <<< calcUpLs bpn i % 2 ^ bufferBits bpn) =
      (code bpn (input.take i) ++ lowBits bpn v).drop (8 * calcBegin bpn i) ++
        List.replicate (calcUpLs bpn i) false := by
  obtain ⟨hbegin, hfit, -⟩ := calcBegin_spec h hi
  have hls := calcUpLs_eq h hi
  have hcode : (code bpn (input.take i)).length = bpn * i := by
    rw [length_code, List.length_take, Nat.min_eq_left hinput]
  have hfront : ((code bpn (input.take i)).drop (8 * calcBegin bpn i)).length +
      (bpn + calcUpLs bpn i) = bufferBits bpn := by
    rw [List.length_drop, hcode]
    omega
  have hv := and_createMask_lt bpn v
  have hmod : (v &&& createMask bpn) <<< calcUpLs bpn i % 2 ^ bufferBits bpn =
      (v &&& createMask bpn) <<< calcUpLs bpn i := by
    apply Nat.mod_eq_of_lt
    have hle : bpn + calcUpLs bpn i ≤ bufferBits bpn := by omega
    calc (v &&& createMask bpn) <<< calcUpLs bpn i
        < 2 ^ (bpn + calcUpLs bpn i) := by
          rw [Nat.shiftLeft_eq, Nat.pow_add]
          exact Nat.mul_lt_mul_of_pos_right hv (Nat.two_pow_pos _)
      _ ≤ 2 ^ bufferBits bpn := Nat.pow_le_pow_right (by decide) hle
  have hzeros : 8 * calcBegin bpn i + bufferBits bpn - bpn * i = bpn + calcUpLs bpn i := by omega
  rw [hzeros, ← hfront] at hflush
  rw [hmod, ← hfront, lowBits_or_shiftLeft hv hflush, lowBits_and_createMask,
    List.drop_append_of_le_length (by omega), List.append_assoc]

theorem packStep_inv {output₀ output : Bytes} {i flushBuffer : Nat} (h : Supported bpn)
    (hi : i < blockSize bpn) (hinput : i < input.length)
    (houtput : blockBytes bpn ≤ output₀.length)
    (hinv : PackInv bpn input output₀ i flushBuffer output) :
    ∃ flushBuffer' output', packStep bpn input i flushBuffer output = .ok (flushBuffer', output') ∧
      PackInv bpn input output₀ (i + 1) flushBuffer' output' := by
  obtain ⟨hbegin, hfit, hblock⟩ := calcBegin_spec h hi
  obtain ⟨hmono, hnext⟩ := calcBegin_succ h i
  have hbuffer := bufferBits_eq bpn
  have hls := calcUpLs_eq h hi
  have hor := flushBuffer_or (v := input[i]) h hi (Nat.le_of_lt hinput) hinv.flush
  generalize hnew : flushBuffer ||| (input[i] &&& createMask bpn) <<< calcUpLs bpn i %
    2 ^ bufferBits bpn = new at hor
  obtain ⟨output', hstore, hlength, hbits, hframe⟩ := storeBe_spec (bufferBytes bpn)
    (calcBegin bpn i) output new (by rw [hinv.length]; omega)
  have hcode : code bpn (input.take (i + 1)) = code bpn (input.take i) ++ lowBits bpn input[i] := by
    rw [List.take_add_one, List.getElem?_eq_getElem hinput, code_append]
    simp [code]
  have hlen : (code bpn (input.take (i + 1))).length = bpn * i + bpn := by
    rw [length_code, List.length_take, Nat.min_eq_left hinput, Nat.mul_succ]
  rw [← hcode] at hor
  have hcps : calcUpCps bpn i = calcBegin bpn (i + 1) - calcBegin bpn i := rfl
  refine ⟨_, output', by
    rw [packStep, List.getElem?_eq_getElem hinput]
    simp only [hnew, calcUpCpb_eq, hstore, ok_bind]
    rfl, ?_, ?_, ?_, ?_⟩
  · rw [hlength, hinv.length]
  · have htake : (bits output).take (8 * calcBegin bpn i) =
        (code bpn (input.take (i + 1))).take (8 * calcBegin bpn i) := by
      have hfrontBits := congrArg (List.take (8 * calcBegin bpn i)) hinv.written
      rw [List.take_take, Nat.min_eq_left hbegin] at hfrontBits
      rw [hfrontBits, hcode, List.take_append_of_le_length]
      rw [length_code, List.length_take, Nat.min_eq_left (Nat.le_of_lt hinput)]
      exact hbegin
    rw [hbits, ← hbuffer, hor, htake, ← List.append_assoc, List.take_append_drop,
      List.append_assoc, List.take_left']
    rw [hlen, Nat.mul_succ]
  · have hdrop : 2 * (4 * calcUpCps bpn i) ≤
        ((code bpn (input.take (i + 1))).drop (8 * calcBegin bpn i)).length := by
      rw [List.length_drop, hlen]
      omega
    rw [lowBits_shiftLeft_twice _ (by omega), hor, List.drop_append_of_le_length hdrop,
      List.drop_drop, List.append_assoc, ← List.replicate_add]
    congr 2
    · omega
    · rw [Nat.mul_succ]
      omega
  · rw [hframe _ hblock, hinv.frame]

theorem packLoop_inv {output₀ : Bytes} (h : Supported bpn) (hinput : blockSize bpn ≤ input.length)
    (houtput : blockBytes bpn ≤ output₀.length) (rounds : Nat) {i flushBuffer : Nat}
    {output : Bytes} (hi : i + rounds = blockSize bpn)
    (hinv : PackInv bpn input output₀ i flushBuffer output) :
    ∃ flushBuffer' output', packLoop bpn input rounds i flushBuffer output =
        .ok (flushBuffer', output') ∧
      PackInv bpn input output₀ (blockSize bpn) flushBuffer' output' := by
  induction rounds generalizing i flushBuffer output with
  | zero =>
    obtain rfl : i = blockSize bpn := hi
    exact ⟨flushBuffer, output, rfl, hinv⟩
  | succ rounds ih =>
    obtain ⟨flushBuffer₁, output₁, hstep, hinv₁⟩ :=
      packStep_inv h (by omega) (by omega) houtput hinv
    obtain ⟨flushBuffer₂, output₂, hloop, hinv₂⟩ := ih (by omega) hinv₁
    refine ⟨flushBuffer₂, output₂, ?_, hinv₂⟩
    rw [packLoop, hstep, ok_bind]
    exact hloop

theorem pack_spec (input : List Nat) (output : Bytes) (h : Supported bpn)
    (hinput : blockSize bpn ≤ input.length) (houtput : blockBytes bpn ≤ output.length) :
    ∃ output', pack bpn input output = .ok output' ∧ output'.length = output.length ∧
      bits (output'.take (blockBytes bpn)) = code bpn (input.take (blockSize bpn)) ∧
      output'.drop (blockBytes bpn) = output.drop (blockBytes bpn) := by
  obtain ⟨flushBuffer, output', hloop, hinv⟩ := packLoop_inv h hinput houtput (blockSize bpn)
    (Nat.zero_add _) (packInv_zero bpn input output h)
  refine ⟨output', by rw [pack, hloop]; rfl, hinv.length, ?_, hinv.frame⟩
  have hblock := blockBits_eq bpn
  rw [blockBits] at hblock
  rw [bits_take, ← hinv.written, blockSize_eq h, hblock]

/-! ## Blocks behind each other -/

theorem packCount_spec (h : Supported bpn) (blocks : Nat) (input : List Nat) (output : Bytes)
    (hinput : blocks * blockSize bpn ≤ input.length)
    (houtput : blocks * blockBytes bpn ≤ output.length) :
    ∃ packed, packCount bpn blocks input output =
        .ok (packed, output.drop (blocks * blockBytes bpn)) ∧
      bits packed = code bpn (input.take (blocks * blockSize bpn)) := by
  induction blocks generalizing input output with
  | zero => exact ⟨[], by simp [packCount], by simp⟩
  | succ blocks ih =>
    rw [Nat.succ_mul] at hinput houtput
    obtain ⟨output', hpack, hlength, hbits, hframe⟩ :=
      pack_spec input output h (by omega) (by omega)
    obtain ⟨packed, hrest, hcode⟩ := ih (input.drop (blockSize bpn))
      (output'.drop (blockBytes bpn)) (by rw [List.length_drop]; omega)
      (by rw [List.length_drop]; omega)
    refine ⟨output'.take (blockBytes bpn) ++ packed, ?_, ?_⟩
    · rw [packCount, hpack, ok_bind, hrest, ok_bind, hframe, List.drop_drop, Nat.succ_mul,
        Nat.add_comm (blocks * blockBytes bpn)]
      rfl
    · rw [bits_append, hbits, hcode, ← code_append, ← List.take_add, Nat.succ_mul,
        Nat.add_comm (blocks * blockSize bpn)]

theorem unpackCount_spec (h : Supported bpn) (blocks : Nat) (input : Bytes)
    (hinput : blocks * blockBytes bpn ≤ input.length) :
    ∃ vs, unpackCount bpn blocks input = .ok (vs, input.drop (blocks * blockBytes bpn)) ∧
      vs.length = blocks * blockSize bpn ∧ (∀ v ∈ vs, v < 2 ^ bpn) ∧
      code bpn vs = (bits input).take (8 * (blocks * blockBytes bpn)) := by
  induction blocks generalizing input with
  | zero => exact ⟨[], by simp [unpackCount], by simp, by simp, by simp⟩
  | succ blocks ih =>
    rw [Nat.succ_mul] at hinput
    obtain ⟨vs, hunpack, hlength, hall, hcode⟩ := unpack_spec input h (by omega)
    obtain ⟨rest, hrest, hlengthRest, hallRest, hcodeRest⟩ :=
      ih (input.drop (blockBytes bpn)) (by rw [List.length_drop]; omega)
    refine ⟨vs ++ rest, ?_, ?_, ?_, ?_⟩
    · rw [unpackCount, hunpack, ok_bind, hrest, ok_bind, List.drop_drop, Nat.succ_mul,
        Nat.add_comm (blocks * blockBytes bpn)]
      rfl
    · rw [List.length_append, hlength, hlengthRest, Nat.succ_mul, Nat.add_comm]
    · intro v hv
      rw [List.mem_append] at hv
      rcases hv with hv | hv
      · exact hall v hv
      · exact hallRest v hv
    · have hsum : 8 * ((blocks + 1) * blockBytes bpn) =
          8 * blockBytes bpn + 8 * (blocks * blockBytes bpn) := by
        rw [Nat.succ_mul blocks, Nat.mul_add, Nat.add_comm]
      rw [code_append, hcode, hcodeRest, bits_drop, hsum, List.take_add]

theorem count_div_mul_div (h : Supported bpn) (count : Nat) :
    count / blockSize bpn * blockSize bpn / blockSize bpn = count / blockSize bpn := by
  have hpos : 0 < blockSize bpn := by
    have hresidue := residue_add_le h 0
    have hbpn := pos_of_supported h
    rw [blockSize_eq h]
    omega
  exact Nat.mul_div_cancel _ hpos

theorem blocks_bits (h : Supported bpn) (blocks : Nat) :
    8 * (blocks * blockBytes bpn) = bpn * (blocks * blockSize bpn) := by
  have hblock := blockBits_eq bpn
  rw [blockBits] at hblock
  rw [Nat.mul_left_comm, ← hblock, blockSize_eq h, Nat.mul_left_comm]

theorem packBlocks_spec {bpn count : Nat} {src : List Nat} {dest : Bytes} (h : Supported bpn)
    (hcount : count ≤ src.length)
    (hdest : count / blockSize bpn * blockBytes bpn ≤ dest.length) :
    ∃ packed, packBlocks bpn src dest count =
        .ok (packed, dest.drop (count / blockSize bpn * blockBytes bpn),
          src.drop (count / blockSize bpn * blockSize bpn),
          count - count / blockSize bpn * blockSize bpn) ∧
      bits packed = code bpn (src.take (count / blockSize bpn * blockSize bpn)) := by
  have hle := Nat.div_mul_le_self count (blockSize bpn)
  obtain ⟨packed, hpack, hbits⟩ := packCount_spec h (count / blockSize bpn) src dest
    (by omega) hdest
  refine ⟨packed, ?_, hbits⟩
  simp only [packBlocks, count_div_mul_div h, hpack, ok_bind]
  rfl

theorem unpackBlocks_spec (count : Nat) (src : Bytes) (h : Supported bpn)
    (hsrc : count / blockSize bpn * blockBytes bpn ≤ src.length) :
    ∃ vs, unpackBlocks bpn src count =
        .ok (vs, src.drop (count / blockSize bpn * blockBytes bpn),
          count - count / blockSize bpn * blockSize bpn) ∧
      vs.length = count / blockSize bpn * blockSize bpn ∧ (∀ v ∈ vs, v < 2 ^ bpn) ∧
      code bpn vs = (bits src).take (bpn * (count / blockSize bpn * blockSize bpn)) := by
  obtain ⟨vs, hunpack, hlength, hall, hcode⟩ := unpackCount_spec h (count / blockSize bpn) src hsrc
  refine ⟨vs, ?_, hlength, hall, ?_⟩
  · simp only [unpackBlocks, count_div_mul_div h, hunpack, ok_bind]
    rfl
  · rw [hcode, blocks_bits h]

end Sserialize.Bitpacking
