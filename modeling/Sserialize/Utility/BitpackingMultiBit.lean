import Sserialize.Utility.Bitpacking
import Sserialize.Iterator.MultiBit

namespace Sserialize.Bitpacking

open BitString

/-- What `MultiBitBackInserter` leaves in an array that holds `data` already. -/
def insertAll (bpn : Nat) (data : Bytes) (vs : List Nat) : Bytes :=
  ((MultiBitBackInserter.new data).pushBackRange bpn vs).flush.data

def readAll (digits bpn : Nat) : Nat → MultiBitIterator → Except Fault (List Nat)
  | 0, _ => .ok []
  | n + 1, it => do
    let v ← it.get digits bpn
    let vs ← readAll digits bpn n (it.add bpn)
    return v :: vs

/-- The iterator behind `k` numbers for every `k` of the list, one step for each. -/
def advance (bpn : Nat) (it : MultiBitIterator) (steps : List Nat) : MultiBitIterator :=
  steps.foldl (fun it k => it.add (k * bpn)) it

variable {bpn : Nat}

theorem bits_insertAll (data : Bytes) (vs : List Nat) (hbpn : bpn ≤ 64) :
    ∃ pad < 8, bits (insertAll bpn data vs) =
      bits data ++ code bpn vs ++ List.replicate pad false :=
  MultiBitBackInserter.bits_flush
    (MultiBitBackInserter.inserted_pushBackRange vs (MultiBitBackInserter.inserted_new data) hbpn)

theorem eq_of_bits_pad {data other : Bytes} {stream : List Bool} {pad pad' : Nat}
    (hpad : pad < 8) (hpad' : pad' < 8)
    (hdata : bits data = stream ++ List.replicate pad false)
    (hother : bits other = stream ++ List.replicate pad' false) : data = other := by
  have hlen := congrArg List.length hdata
  have hlen' := congrArg List.length hother
  rw [length_bits, List.length_append, List.length_replicate] at hlen hlen'
  obtain rfl : pad = pad' := by omega
  exact bits_injective (hdata.trans hother.symm)

variable {vs : List Nat}

theorem insertAll_packBlocks {bpn count : Nat} {dest : Bytes} (front : Bytes) (h : Supported bpn)
    (hcount : count ≤ vs.length) (hdest : count / blockSize bpn * blockBytes bpn ≤ dest.length) :
    ∃ packed dest' rest remaining,
      packBlocks bpn vs dest count = .ok (packed, dest', rest, remaining) ∧
      insertAll bpn (front ++ packed) rest = insertAll bpn front vs := by
  obtain ⟨packed, hpack, hbits⟩ := packBlocks_spec h hcount hdest
  refine ⟨packed, _, _, _, hpack, ?_⟩
  have hbpn : bpn ≤ 64 := by
    unfold Supported at h
    omega
  obtain ⟨pad, hpad, hmixed⟩ := bits_insertAll (front ++ packed)
    (vs.drop (count / blockSize bpn * blockSize bpn)) hbpn
  obtain ⟨pad', hpad', hsingle⟩ := bits_insertAll front vs hbpn
  refine eq_of_bits_pad hpad hpad' ?_ hsingle
  rw [hmixed, bits_append, hbits, List.append_assoc (bits front), ← code_append,
    List.take_append_drop]

def Layout (bpn : Nat) (vs : List Nat) (data : Bytes) : Prop :=
  ∃ rest, bits data = code bpn vs ++ rest

theorem layout_insertAll (bpn : Nat) (vs : List Nat) (tail : Bytes) (hbpn : bpn ≤ 64) :
    Layout bpn vs (insertAll bpn [] vs ++ tail) := by
  obtain ⟨pad, -, hbits⟩ := bits_insertAll [] vs hbpn
  refine ⟨List.replicate pad false ++ bits tail, ?_⟩
  rw [bits_append, hbits, bits_nil, List.nil_append, List.append_assoc]

variable {data : Bytes}

theorem Layout.length_le (h : Layout bpn vs data) : bpn * vs.length ≤ 8 * data.length := by
  obtain ⟨rest, hbits⟩ := h
  have hlen := congrArg List.length hbits
  rw [length_bits, List.length_append, length_code] at hlen
  omega

theorem Layout.drop_blocks (h : Layout bpn vs data) (hbpn : Supported bpn) (blocks : Nat)
    (hblocks : blocks * blockSize bpn ≤ vs.length) :
    Layout bpn (vs.drop (blocks * blockSize bpn)) (data.drop (blocks * blockBytes bpn)) := by
  obtain ⟨rest, hbits⟩ := h
  refine ⟨rest, ?_⟩
  rw [bits_drop, hbits, blocks_bits hbpn, List.drop_append_of_le_length, drop_code _ _ hblocks]
  rw [length_code]
  exact Nat.mul_le_mul_left _ hblocks

theorem unpackBlocks_layout {bpn count : Nat} (h : Layout bpn vs data) (hbpn : Supported bpn)
    (hvs : ∀ v ∈ vs, v < 2 ^ bpn) (hcount : count ≤ vs.length) :
    unpackBlocks bpn data count =
      .ok (vs.take (count / blockSize bpn * blockSize bpn),
        data.drop (count / blockSize bpn * blockBytes bpn),
        count - count / blockSize bpn * blockSize bpn) := by
  have hle := Nat.div_mul_le_self count (blockSize bpn)
  have hsize := h.length_le
  have hblocks := blocks_bits hbpn (count / blockSize bpn)
  have hmul : bpn * (count / blockSize bpn * blockSize bpn) ≤ bpn * vs.length :=
    Nat.mul_le_mul_left _ (by omega)
  obtain ⟨ws, hunpack, hlen, hws, hcode⟩ := unpackBlocks_spec count data hbpn (by omega)
  obtain ⟨rest, hbits⟩ := h
  have heq : ws = vs.take (count / blockSize bpn * blockSize bpn) := by
    refine code_injective (b := bpn) ?_ hws (fun v hv => hvs v (List.mem_of_mem_take hv)) ?_
    · rw [hlen, List.length_take, Nat.min_eq_left (by omega)]
    · rw [hcode, hbits, List.take_append_of_le_length (by rwa [length_code]),
        take_code _ _ (by omega)]
  rw [hunpack, heq]

theorem get_layout {bpn n : Nat} (it : MultiBitIterator) (i : Nat) (h : Layout bpn vs it.data)
    (hpos : 0 < bpn) (hvs : ∀ v ∈ vs, v < 2 ^ bpn) (hn : 2 ≤ n) (hbpn : bpn ≤ 8 * n)
    (hoff : it.bitOffset < 8) (hit : it.position = bpn * i) (hi : i < vs.length) :
    it.get (8 * n) bpn = .ok vs[i] := by
  have hsize := h.length_le
  have hend : bpn * i + bpn ≤ bpn * vs.length := by
    have hmul : bpn * (i + 1) ≤ bpn * vs.length := Nat.mul_le_mul_left _ hi
    rwa [Nat.mul_succ] at hmul
  have hptr : it.getPtr < it.data.length := by
    rw [MultiBitIterator.position] at hit
    omega
  obtain ⟨v, hget, hv, hbits⟩ :=
    MultiBitIterator.get_spec it hoff hn hbpn hptr (by omega)
  obtain ⟨rest, hcode⟩ := h
  rw [hit, hcode, slice_code rest hi] at hbits
  rw [hget, lowBits_injective hv (hvs _ (List.getElem_mem hi)) hbits]

theorem advance_spec (bpn : Nat) (it : MultiBitIterator) (steps : List Nat)
    (hoff : it.bitOffset < 8) (hsteps : ∀ k ∈ steps, k * bpn < 2 ^ 31)
    (hdata : it.position + bpn * steps.sum ≤ 8 * it.data.length) :
    (advance bpn it steps).data = it.data ∧ (advance bpn it steps).bitOffset < 8 ∧
      (advance bpn it steps).position = it.position + bpn * steps.sum := by
  induction steps generalizing it with
  | nil => exact ⟨rfl, hoff, rfl⟩
  | cons k steps ih =>
    rw [List.forall_mem_cons] at hsteps
    rw [List.sum_cons, Nat.mul_add, Nat.mul_comm bpn k] at hdata ⊢
    obtain ⟨hdata', hoff', hpos'⟩ :=
      MultiBitIterator.add_spec it (k * bpn) hoff (by omega) (by omega)
    obtain ⟨hdata'', hoff'', hpos''⟩ := ih _ hoff' hsteps.2 (by rw [hpos', hdata']; omega)
    refine ⟨hdata''.trans hdata', hoff'', ?_⟩
    rw [hpos'] at hpos''
    rw [← Nat.add_assoc]
    exact hpos''

theorem readAll_layout {bpn n : Nat} (hpos : 0 < bpn) (hvs : ∀ v ∈ vs, v < 2 ^ bpn) (hn : 2 ≤ n)
    (hbpn : bpn ≤ 8 * n) (hsmall : bpn ≤ 64) (rounds i : Nat) (it : MultiBitIterator)
    (h : Layout bpn vs it.data) (hoff : it.bitOffset < 8) (hit : it.position = bpn * i)
    (hi : i + rounds = vs.length) : readAll (8 * n) bpn rounds it = .ok (vs.drop i) := by
  induction rounds generalizing i it with
  | zero => rw [readAll, List.drop_eq_nil_of_le (by omega)]
  | succ rounds ih =>
    have hsize := h.length_le
    have hlt : i < vs.length := by omega
    have hend : bpn * i + bpn ≤ bpn * vs.length := by
      have hmul : bpn * (i + 1) ≤ bpn * vs.length := Nat.mul_le_mul_left _ hlt
      rwa [Nat.mul_succ] at hmul
    obtain ⟨hdata', hoff', hpos'⟩ :=
      MultiBitIterator.add_spec it bpn hoff (by omega) (by omega)
    have hrest := ih (i + 1) (it.add bpn) (by rwa [hdata']) hoff'
      (by rw [hpos', hit, Nat.mul_succ]) (by omega)
    rw [readAll, get_layout it i h hpos hvs hn hbpn hoff hit hlt, ok_bind, hrest,
      List.drop_eq_getElem_cons hlt]
    rfl

/-- Writing: whatever number of values goes through `pack_blocks`, the bytes are the ones that the
inserter writes alone. -/
def WriteSpec (bpn : Nat) (vs : List Nat) : Prop :=
  ∀ (front dest : Bytes) (count : Nat), count ≤ vs.length →
    count / blockSize bpn * blockBytes bpn ≤ dest.length →
    ∃ packed dest' rest remaining,
      packBlocks bpn vs dest count = .ok (packed, dest', rest, remaining) ∧
      insertAll bpn (front ++ packed) rest = insertAll bpn front vs

/-- Reading: from any block on, `unpack_blocks` returns the values of the blocks, and the iterator
returns any value, wherever its steps have led it. -/
def ReadSpec (bpn : Nat) (vs : List Nat) (data : Bytes) : Prop :=
  ∀ blocks, blocks * blockSize bpn ≤ vs.length →
    (∀ count ≤ vs.length - blocks * blockSize bpn,
      unpackBlocks bpn (data.drop (blocks * blockBytes bpn)) count =
        .ok ((vs.drop (blocks * blockSize bpn)).take (count / blockSize bpn * blockSize bpn),
          data.drop (blocks * blockBytes bpn + count / blockSize bpn * blockBytes bpn),
          count % blockSize bpn)) ∧
    ∀ digits ∈ [16, 32, 64], bpn ≤ digits → ∀ steps : List Nat, (∀ k ∈ steps, k * bpn < 2 ^ 31) →
      ∀ hi : blocks * blockSize bpn + steps.sum < vs.length,
        (advance bpn (.new (data.drop (blocks * blockBytes bpn))) steps).get digits bpn =
          .ok vs[blocks * blockSize bpn + steps.sum]

def SplitSpec (bpn : Nat) (vs : List Nat) (data : Bytes) : Prop :=
  ∀ count ≤ vs.length, ∀ digits ∈ [16, 32, 64], bpn ≤ digits →
    (do
      let (front, rest, _) ← unpackBlocks bpn data count
      let back ← readAll digits bpn (vs.length - front.length) (.new rest)
      return front ++ back) = .ok vs

theorem readSpec_layout (h : Layout bpn vs data) (hbpn : Supported bpn)
    (hvs : ∀ v ∈ vs, v < 2 ^ bpn) : ReadSpec bpn vs data := by
  intro blocks hblocks
  have hdrop := h.drop_blocks hbpn blocks hblocks
  have hvsDrop : ∀ v ∈ vs.drop (blocks * blockSize bpn), v < 2 ^ bpn :=
    fun v hv => hvs v (List.mem_of_mem_drop hv)
  refine ⟨?_, ?_⟩
  · intro count hcount
    have hmod : count - count / blockSize bpn * blockSize bpn = count % blockSize bpn := by
      have hdiv := Nat.div_add_mod count (blockSize bpn)
      rw [Nat.mul_comm] at hdiv
      omega
    rw [unpackBlocks_layout hdrop hbpn hvsDrop (by rwa [List.length_drop]), List.drop_drop, hmod]
  · intro digits hdigits hle steps hsteps hi
    have hsize := hdrop.length_le
    rw [List.length_drop] at hsize
    have hend : bpn * steps.sum ≤ bpn * (vs.length - blocks * blockSize bpn) :=
      Nat.mul_le_mul_left _ (by omega)
    have hstart : (MultiBitIterator.new (data.drop (blocks * blockBytes bpn))).position = 0 := rfl
    obtain ⟨hdata', hoff', hpos'⟩ := advance_spec bpn
      (.new (data.drop (blocks * blockBytes bpn))) steps (Nat.zero_lt_succ 7) hsteps
      (by
        rw [hstart, Nat.zero_add]
        exact Nat.le_trans hend hsize)
    obtain ⟨n, hn, rfl⟩ : ∃ n, 2 ≤ n ∧ digits = 8 * n := by
      simp only [List.mem_cons, List.not_mem_nil, or_false] at hdigits
      exact ⟨digits / 8, by omega, by omega⟩
    have hget := get_layout (advance bpn _ steps) steps.sum
      (by rw [hdata']; exact hdrop) (pos_of_supported hbpn) hvsDrop hn hle hoff'
      (by rw [hpos', hstart, Nat.zero_add]) (by rw [List.length_drop]; omega)
    rw [hget, List.getElem_drop]

theorem splitSpec_layout (h : Layout bpn vs data) (hbpn : Supported bpn)
    (hvs : ∀ v ∈ vs, v < 2 ^ bpn) : SplitSpec bpn vs data := by
  intro count hcount digits hdigits hle
  have hfloor := Nat.div_mul_le_self count (blockSize bpn)
  have hdrop := h.drop_blocks hbpn (count / blockSize bpn) (by omega)
  obtain ⟨n, hn, rfl⟩ : ∃ n, 2 ≤ n ∧ digits = 8 * n := by
    simp only [List.mem_cons, List.not_mem_nil, or_false] at hdigits
    exact ⟨digits / 8, by omega, by omega⟩
  have hsmall : bpn ≤ 64 := by
    unfold Supported at hbpn
    omega
  have hread := readAll_layout (pos_of_supported hbpn)
    (fun v hv => hvs v (List.mem_of_mem_drop hv)) hn hle hsmall
    (vs.length - count / blockSize bpn * blockSize bpn) 0
    (.new (data.drop (count / blockSize bpn * blockBytes bpn))) hdrop (Nat.zero_lt_succ 7) rfl
    (by rw [Nat.zero_add, List.length_drop])
  have hlen : (vs.take (count / blockSize bpn * blockSize bpn)).length =
      count / blockSize bpn * blockSize bpn := by
    rw [List.length_take, Nat.min_eq_left (by omega)]
  rw [unpackBlocks_layout h hbpn hvs hcount, ok_bind]
  dsimp only
  rw [hlen, hread, ok_bind, List.drop_zero, List.take_append_drop]
  rfl

/-- Every width up to 32 and every list: blocks and single numbers have the same layout. -/
theorem bitpacking_multiBit (bpn : Nat) (hbpn : 1 ≤ bpn ∧ bpn ≤ 32) (vs : List Nat)
    (hvs : ∀ v ∈ vs, v < 2 ^ bpn) (tail : Bytes) :
    WriteSpec bpn vs ∧ ReadSpec bpn vs (insertAll bpn [] vs ++ tail) ∧
      SplitSpec bpn vs (insertAll bpn [] vs ++ tail) := by
  have hsupported : Supported bpn := by
    unfold Supported
    omega
  have hlayout := layout_insertAll bpn vs tail (by omega)
  refine ⟨?_, readSpec_layout hlayout hsupported hvs, splitSpec_layout hlayout hsupported hvs⟩
  intro front dest count hcount hdest
  exact insertAll_packBlocks front hsupported hcount hdest

theorem bitpacking_multiBit_five :
    WriteSpec 5 [3, 31, 0] ∧ ReadSpec 5 [3, 31, 0] (insertAll 5 [] [3, 31, 0] ++ []) ∧
      SplitSpec 5 [3, 31, 0] (insertAll 5 [] [3, 31, 0] ++ []) :=
  bitpacking_multiBit 5 (by decide) [3, 31, 0] (by decide) []

end Sserialize.Bitpacking
