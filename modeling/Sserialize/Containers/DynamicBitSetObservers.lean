import Mathlib.Data.Set.Card
import Sserialize.Containers.DynamicBitSet
import Sserialize.Library.SetBits
import Sserialize.Storage.FixedWidth

namespace Sserialize.DynamicBitSet

open BitString SetBits

structure IdIterator where
  off : Nat
  curId : Nat
  d : Nat
  remainingBits : Nat
  deriving Repr, DecidableEq

namespace IdIterator

def moveInByte : Nat → IdIterator → Bool × IdIterator
  | 0, it => (false, it)
  | rounds + 1, it =>
    if it.remainingBits ≠ 0 ∧ it.d ≠ 0 then
      if it.d &&& 1 ≠ 0 then (true, it)
      else
        moveInByte rounds
          { it with d := it.d >>> 1, remainingBits := it.remainingBits - 1, curId := it.curId + 1 }
    else (false, it)

def skipBytes (data : Bytes) : Nat → IdIterator → IdIterator
  | 0, it => it
  | rounds + 1, it =>
    if it.off < data.length then
      let it := { it with d := (data.getD it.off 0).toNat }
      if it.d ≠ 0 then it
      else skipBytes data rounds { it with off := it.off + 1, curId := it.curId + 8 }
    else it

def moveToNextSetBit (data : Bytes) (it : IdIterator) : IdIterator :=
  match moveInByte it.remainingBits it with
  | (true, it) => it
  | (false, it) =>
    let it := { it with curId := it.curId + it.remainingBits, off := it.off + 1, remainingBits := 8 }
    let it := skipBytes data (data.length - it.off) it
    if it.off ≥ data.length then { it with remainingBits := 0 }
    else (moveInByte it.remainingBits it).2

def new (data : Bytes) (offset : Nat) : IdIterator :=
  let it : IdIterator := { off := offset, curId := offset * 8, d := 0, remainingBits := 0 }
  if offset < data.length then
    moveToNextSetBit data { it with d := (data.getD offset 0).toNat, remainingBits := 8 }
  else it

def next (data : Bytes) (it : IdIterator) : IdIterator :=
  if it.off ≥ data.length then it
  else
    moveToNextSetBit data
      { it with remainingBits := it.remainingBits - 1, d := it.d >>> 1, curId := it.curId + 1 }

end IdIterator

def cbegin (b : DynamicBitSet) : IdIterator := .new b.data 0

def cend (b : DynamicBitSet) : IdIterator := .new b.data b.data.length

/-- The ids from an iterator to `cend()`; `none` is a walk that has not ended. -/
def iterate (b : DynamicBitSet) : Nat → IdIterator → Option (List Nat)
  | 0, _ => none
  | fuel + 1, it =>
    if it = b.cend then some [] else (iterate b fuel (it.next b.data)).map (it.curId :: ·)

/-- The loop of `putInto` over the bits of a byte. -/
def putByte : Nat → Nat → Nat → List Nat
  | 0, _, _ => []
  | rounds + 1, curId, d =>
    if d ≠ 0 then
      if d &&& 1 ≠ 0 then curId :: putByte rounds (curId + 1) (d >>> 1)
      else putByte rounds (curId + 1) (d >>> 1)
    else []

def putBytes : Nat → Bytes → List Nat
  | _, [] => []
  | id, d :: data => putByte 8 id d.toNat ++ putBytes (id + 8) data

def putInto (b : DynamicBitSet) : List Nat := putBytes 0 b.data

/-- `msb(uint8_t)`. -/
def msbByte : Nat → Nat → Nat → Nat
  | 0, _, r => r
  | rounds + 1, num, r => if num >>> 1 ≠ 0 then msbByte rounds (num >>> 1) (r + 1) else r

def msb8 (d : UInt8) : Nat := msbByte 8 d.toNat 0

def smallestLoop : Nat → Bytes → Nat
  | id, [] => id
  | id, d :: data => if d ≠ 0 then id + msb8 d else smallestLoop (id + 8) data

def smallestEntry (b : DynamicBitSet) : Nat := smallestLoop 0 b.data

/-- Subtraction of `uint64_t` values. -/
def sub64 (m n : Nat) : Nat := (2 ^ 64 - n + m) % 2 ^ 64

def largestLoop (data : Bytes) : Nat → Nat → Nat
  | 0, id => id
  | i + 1, id =>
    let d := data.getD i 0
    if d ≠ 0 then sub64 id (8 - msb8 d) else largestLoop data i (sub64 id 8)

def largestEntry (b : DynamicBitSet) : Nat :=
  if b.data.length = 0 then 0 else largestLoop b.data b.data.length (b.data.length * 8 - 1)

def upperBoundLoop (data : Bytes) : Nat → Nat
  | 0 => 0
  | i + 1 => if data.getD i 0 ≠ 0 then 8 * (i + 1) else upperBoundLoop data i

def upperBound (b : DynamicBitSet) : Nat :=
  if b.data.length = 0 then 0 else upperBoundLoop b.data b.data.length

/-- `popCount` of a number with `digits` bits. -/
def popCount (digits n : Nat) : Nat := (lowBits digits n).count true

def sizeBytes : Nat → Bytes → Nat
  | resSize, [] => resSize
  | resSize, d :: data => sizeBytes (u32 (resSize + popCount 8 d.toNat)) data

def sizeBlocks : Nat → Bytes → Nat
  | resSize, a :: b :: c :: d :: data =>
    sizeBlocks (u32 (resSize + popCount 32 (beValue [a, b, c, d]))) data
  | resSize, data => sizeBytes resSize data

/-- `size`, which counts with 32 bits. -/
def size (b : DynamicBitSet) : Nat := sizeBlocks 0 b.data

def equal (b other : DynamicBitSet) : Bool :=
  (List.zip b.data other.data).all (fun p => p.1 = p.2) &&
    (b.data.drop (min b.data.length other.data.length)).all (· = 0) &&
      (other.data.drop b.data.length).all (· = 0)

def ids (b : DynamicBitSet) : List Nat := positions 0 (byteBits b.data)

variable {b : DynamicBitSet}

theorem mem_ids {pos : Nat} : pos ∈ b.ids ↔ b.isSet pos = true := by
  rw [ids, mem_positions, isSet_eq, Nat.sub_zero, getD_byteBits]
  exact and_iff_right (Nat.zero_le pos)

theorem pairwise_ids (b : DynamicBitSet) : b.ids.Pairwise (· < ·) := (from_positions 0 _).1

theorem positions_cons (base : Nat) (d : UInt8) (data : Bytes) :
    positions base (byteBits (d :: data)) =
      positions base (lowFirst 8 d.toNat) ++ positions (base + 8) (byteBits data) := by
  rw [byteBits_cons, positions_append, length_lowFirst]

theorem positions_zero (base k : Nat) : positions base (lowFirst k 0) = [] := by
  rw [lowFirst_zero, positions_replicate_false]

variable {data : Bytes}

theorem positions_drop {off : Nat} (h : off < data.length) (base : Nat) :
    positions base (byteBits (data.drop off)) =
      positions base (lowFirst 8 (data.getD off 0).toNat) ++
        positions (base + 8) (byteBits (data.drop (off + 1))) := by
  rw [List.drop_eq_getElem_cons h, positions_cons, List.getD_eq_getElem _ _ h]

namespace IdIterator

variable {data : Bytes} {it : IdIterator}

/-- The bits that are left belong to the byte at `off`. -/
structure InByte (it : IdIterator) : Prop where
  lt : it.d < 2 ^ it.remainingBits
  le : it.remainingBits ≤ 8
  end_eq : it.curId + it.remainingBits = 8 * (it.off + 1)

def inByte (it : IdIterator) : List Nat := positions it.curId (lowFirst it.remainingBits it.d)

def behind (data : Bytes) (off : Nat) : List Nat := positions (8 * off) (byteBits (data.drop off))

def Ahead (data : Bytes) (it : IdIterator) (ids : List Nat) : Prop :=
  (it = ⟨data.length, data.length * 8, 0, 0⟩ ∧ ids = []) ∨
    (it.InByte ∧ it.off < data.length ∧ it.d &&& 1 ≠ 0 ∧ ids = it.inByte ++ behind data (it.off + 1))

theorem moveInByte_of_zero (rounds : Nat) (h : it.d = 0) : moveInByte rounds it = (false, it) := by
  cases rounds with
  | zero => rfl
  | succ rounds => exact if_neg fun hboth => hboth.2 h

theorem moveInByte_of_ne {rounds : Nat} (h : it.InByte) (hd : it.d ≠ 0)
    (hrounds : it.remainingBits ≤ rounds) :
    ∃ it', moveInByte rounds it = (true, it') ∧ it'.InByte ∧ it'.off = it.off ∧ it'.d &&& 1 ≠ 0 ∧
      it'.inByte = it.inByte := by
  have hsome : it.remainingBits ≠ 0 := by
    intro hzero
    have hlt := h.lt
    rw [hzero] at hlt
    omega
  induction rounds generalizing it with
  | zero => omega
  | succ rounds ih =>
    rw [moveInByte, if_pos ⟨hsome, hd⟩]
    by_cases hodd : it.d &&& 1 ≠ 0
    · rw [if_pos hodd]
      exact ⟨it, rfl, h, rfl, hodd, rfl⟩
    · have heven : it.d &&& 1 = 0 := not_not.mp hodd
      have hmod : it.d % 2 = 0 := by rwa [← Nat.and_one_is_mod]
      obtain ⟨k, hk⟩ := Nat.exists_eq_succ_of_ne_zero hsome
      have hhalf : it.d >>> 1 = it.d / 2 := Nat.shiftRight_eq_div_pow it.d 1
      have hlt := h.lt
      have hle := h.le
      have hend := h.end_eq
      rw [hk, Nat.pow_succ] at hlt
      rw [if_neg hodd]
      let it₁ : IdIterator :=
        { it with d := it.d >>> 1, remainingBits := it.remainingBits - 1, curId := it.curId + 1 }
      have hpred : it₁.remainingBits = k := by
        change it.remainingBits - 1 = k
        omega
      have hin : it₁.inByte = it.inByte := by
        rw [inByte, inByte, hk, positions_lowFirst_even _ _ heven, hpred]
      have hd₁ : it₁.d = it.d / 2 := hhalf
      have hfields : it₁.InByte := by
        refine ⟨?_, ?_, ?_⟩
        · rw [hpred, hd₁]
          omega
        · omega
        · change it.curId + 1 + (it.remainingBits - 1) = 8 * (it.off + 1)
          omega
      have hne : it₁.d ≠ 0 := by
        rw [hd₁]
        omega
      have hmore : it₁.remainingBits ≠ 0 := by
        intro hzero
        have hlt₁ := hfields.lt
        rw [hzero] at hlt₁
        omega
      have hleft : it₁.remainingBits ≤ rounds := by omega
      rw [← hin]
      exact ih hfields hne hleft hmore

theorem skipBytes_spec (data : Bytes) {rounds off : Nat} (hrounds : data.length - off ≤ rounds)
    (hoff : off ≤ data.length) :
    ∃ off' d', skipBytes data rounds ⟨off, 8 * off, 0, 8⟩ = ⟨off', 8 * off', d', 8⟩ ∧
      ((off' < data.length ∧ d' ≠ 0 ∧ d' < 2 ^ 8 ∧
          behind data off = positions (8 * off') (lowFirst 8 d') ++ behind data (off' + 1)) ∨
        (off' = data.length ∧ d' = 0 ∧ behind data off = [])) := by
  induction rounds generalizing off with
  | zero =>
    have hend : off = data.length := by omega
    refine ⟨off, 0, rfl, .inr ⟨hend, rfl, ?_⟩⟩
    rw [behind, hend, List.drop_length]
    rfl
  | succ rounds ih =>
    rw [skipBytes]
    by_cases hlt : off < data.length
    · have hsplit : behind data off = positions (8 * off) (lowFirst 8 (data.getD off 0).toNat) ++
          behind data (off + 1) := positions_drop hlt _
      simp only [if_pos hlt]
      by_cases hd : (data.getD off 0).toNat ≠ 0
      · rw [if_pos hd]
        exact ⟨off, _, rfl, .inl ⟨hlt, hd, UInt8.toNat_lt _, hsplit⟩⟩
      · have hzero : (data.getD off 0).toNat = 0 := not_not.mp hd
        rw [if_neg hd, hzero]
        rw [hzero, positions_zero, List.nil_append] at hsplit
        rw [hsplit]
        exact ih (by omega) hlt
    · have hend : off = data.length := by omega
      rw [if_neg hlt]
      refine ⟨off, 0, rfl, .inr ⟨hend, rfl, ?_⟩⟩
      rw [behind, hend, List.drop_length]
      rfl

theorem moveToNextSetBit_spec (h : it.InByte) (hoff : it.off < data.length) :
    Ahead data (moveToNextSetBit data it) (it.inByte ++ behind data (it.off + 1)) := by
  by_cases hd : it.d = 0
  · have hempty : it.inByte = [] := by rw [inByte, hd, positions_zero]
    obtain ⟨off', d', hskip, hfound⟩ :=
      skipBytes_spec data (Nat.le_refl (data.length - (it.off + 1))) hoff
    have hmove : moveToNextSetBit data it =
        if off' ≥ data.length then ⟨off', 8 * off', d', 0⟩
        else (moveInByte 8 ⟨off', 8 * off', d', 8⟩).2 := by
      rw [moveToNextSetBit, moveInByte_of_zero _ hd]
      simp only [h.end_eq, hd, hskip]
    rw [hempty, List.nil_append, hmove]
    rcases hfound with ⟨hlt, hne, hbyte, hbehind⟩ | ⟨rfl, rfl, hbehind⟩
    · have hbyteIn : InByte ⟨off', 8 * off', d', 8⟩ := ⟨hbyte, Nat.le_refl 8, rfl⟩
      obtain ⟨it', hfirst, hin', hoff', hodd, hids⟩ :=
        moveInByte_of_ne hbyteIn hne (Nat.le_refl 8)
      have hsame : it'.off = off' := hoff'
      rw [if_neg (Nat.not_le_of_lt hlt), hfirst, hbehind]
      refine .inr ⟨hin', by rwa [hsame], hodd, ?_⟩
      rw [hids, hsame]
      rfl
    · rw [if_pos (Nat.le_refl _), hbehind, Nat.mul_comm]
      exact .inl ⟨rfl, rfl⟩
  · obtain ⟨it', hfirst, hin', hoff', hodd, hids⟩ := moveInByte_of_ne h hd (Nat.le_refl _)
    rw [moveToNextSetBit, hfirst, ← hids, ← hoff']
    exact .inr ⟨hin', by rwa [hoff'], hodd, rfl⟩

theorem new_spec (data : Bytes) : Ahead data (new data 0) (behind data 0) := by
  rw [new]
  by_cases hpos : 0 < data.length
  · have hsplit : behind data 0 = positions 0 (lowFirst 8 (data.getD 0 0).toNat) ++ behind data 1 :=
      positions_drop hpos 0
    have hfirst : InByte ⟨0, 0 * 8, (data.getD 0 0).toNat, 8⟩ :=
      ⟨UInt8.toNat_lt _, Nat.le_refl 8, rfl⟩
    rw [if_pos hpos, hsplit]
    exact moveToNextSetBit_spec hfirst hpos
  · rw [if_neg hpos]
    obtain rfl : data = [] := List.length_eq_zero_iff.mp (Nat.eq_zero_of_not_pos hpos)
    exact .inl ⟨rfl, rfl⟩

theorem new_end (data : Bytes) : new data data.length = ⟨data.length, data.length * 8, 0, 0⟩ := by
  rw [new, if_neg (Nat.lt_irrefl _)]

theorem Ahead.cases {ids : List Nat} (h : Ahead data it ids) :
    (it = new data data.length ∧ ids = []) ∨
      (it ≠ new data data.length ∧ ∃ rest, ids = it.curId :: rest ∧ Ahead data (it.next data) rest) := by
  rw [new_end]
  rcases h with hend | ⟨hin, hoff, hodd, rfl⟩
  · exact .inl hend
  · have hsome : it.remainingBits ≠ 0 := by
      intro hzero
      have hlt := hin.lt
      rw [hzero] at hlt
      have hd : it.d = 0 := by omega
      rw [hd] at hodd
      exact hodd rfl
    obtain ⟨k, hk⟩ := Nat.exists_eq_succ_of_ne_zero hsome
    have hlt := hin.lt
    have hle := hin.le
    have hend := hin.end_eq
    refine .inr ⟨?_, positions (it.curId + 1) (lowFirst k (it.d >>> 1)) ++ behind data (it.off + 1),
      ?_, ?_⟩
    · intro heq
      rw [heq] at hoff
      exact Nat.lt_irrefl _ hoff
    · rw [inByte, hk, positions_lowFirst_odd _ _ hodd]
      rfl
    · let it₁ : IdIterator :=
        { it with remainingBits := it.remainingBits - 1, d := it.d >>> 1, curId := it.curId + 1 }
      have hpred : it₁.remainingBits = k := by
        change it.remainingBits - 1 = k
        omega
      have hhalf : it₁.d = it.d / 2 := Nat.shiftRight_eq_div_pow it.d 1
      have hfields : it₁.InByte := by
        refine ⟨?_, by omega, ?_⟩
        · rw [hpred, hhalf]
          rw [hk, Nat.pow_succ] at hlt
          omega
        · change it.curId + 1 + (it.remainingBits - 1) = 8 * (it.off + 1)
          omega
      have hnext := moveToNextSetBit_spec hfields hoff
      rw [next, if_neg (Nat.not_le_of_lt hoff)]
      rw [inByte, hpred] at hnext
      exact hnext

end IdIterator

theorem iterate_of_ahead (b : DynamicBitSet) {it : IdIterator} {ids : List Nat}
    (h : it.Ahead b.data ids) {fuel : Nat} (hfuel : ids.length < fuel) :
    b.iterate fuel it = some ids := by
  induction ids generalizing it fuel with
  | nil =>
    obtain ⟨fuel, rfl⟩ := Nat.exists_eq_succ_of_ne_zero (Nat.ne_of_gt hfuel)
    rcases h.cases with ⟨hend, -⟩ | ⟨-, rest, hids, -⟩
    · exact if_pos hend
    · cases hids
  | cons id ids ih =>
    obtain ⟨fuel, rfl⟩ := Nat.exists_eq_succ_of_ne_zero (Nat.ne_of_gt (Nat.zero_lt_of_lt hfuel))
    rcases h.cases with ⟨-, hids⟩ | ⟨hne, rest, hids, hnext⟩
    · cases hids
    · obtain ⟨rfl, rfl⟩ := List.cons_eq_cons.mp hids
      have hmore : it ≠ b.cend := hne
      rw [iterate, if_neg hmore, ih hnext (by simpa using hfuel)]
      rfl

theorem iterate_cbegin (b : DynamicBitSet) {fuel : Nat} (hfuel : b.ids.length < fuel) :
    b.iterate fuel b.cbegin = some b.ids :=
  iterate_of_ahead b (IdIterator.new_spec b.data) hfuel

theorem putByte_eq (rounds curId d : Nat) :
    putByte rounds curId d = positions curId (lowFirst rounds d) := by
  induction rounds generalizing curId d with
  | zero => rfl
  | succ rounds ih =>
    rw [putByte]
    by_cases hd : d ≠ 0
    · rw [if_pos hd]
      by_cases hodd : d &&& 1 ≠ 0
      · rw [if_pos hodd, ih, positions_lowFirst_odd _ _ hodd]
      · rw [if_neg hodd, ih, positions_lowFirst_even _ _ (not_not.mp hodd)]
    · rw [if_neg hd, not_not.mp hd, positions_zero]

theorem putBytes_eq (id : Nat) (data : Bytes) : putBytes id data = positions id (byteBits data) := by
  induction data generalizing id with
  | nil => rfl
  | cons d data ih => rw [putBytes, putByte_eq, ih, positions_cons]

theorem putInto_eq (b : DynamicBitSet) : b.putInto = b.ids := putBytes_eq 0 b.data

theorem sizeBytes_eq {resSize : Nat} (h : resSize < 2 ^ 32) (data : Bytes) :
    sizeBytes resSize data = u32 (resSize + (bits data).count true) := by
  induction data generalizing resSize with
  | nil => exact (Nat.mod_eq_of_lt h).symm
  | cons d data ih =>
    have hlt : u32 (resSize + popCount 8 d.toNat) < 2 ^ 32 := Nat.mod_lt _ (Nat.two_pow_pos 32)
    rw [sizeBytes, ih hlt, bits_cons, List.count_append, ← Nat.add_assoc]
    exact Nat.mod_add_mod _ _ _

theorem sizeBlocks_eq {resSize : Nat} (h : resSize < 2 ^ 32) (data : Bytes) :
    sizeBlocks resSize data = u32 (resSize + (bits data).count true) := by
  induction resSize, data using sizeBlocks.induct with
  | case1 resSize a b c d data ih =>
    have hlt : u32 (resSize + popCount 32 (beValue [a, b, c, d])) < 2 ^ 32 :=
      Nat.mod_lt _ (Nat.two_pow_pos 32)
    have hblock : popCount 32 (beValue [a, b, c, d]) = (bits [a, b, c, d]).count true :=
      congrArg (List.count true) (lowBits_beValue [a, b, c, d])
    have hsplit : bits (a :: b :: c :: d :: data) = bits [a, b, c, d] ++ bits data :=
      bits_append [a, b, c, d] data
    rw [sizeBlocks, ih hlt, hblock, hsplit, List.count_append, ← Nat.add_assoc]
    exact Nat.mod_add_mod _ _ _
  | case2 resSize data hshort =>
    rw [sizeBlocks]
    · exact sizeBytes_eq h data
    · exact hshort

theorem size_eq (b : DynamicBitSet) : b.size = u32 b.ids.length := by
  rw [size, sizeBlocks_eq (Nat.two_pow_pos 32), Nat.zero_add, ids, length_positions, count_byteBits]

theorem getLast?_positions_lowFirst {rounds num r : Nat} (hpos : num ≠ 0) (hlt : num < 2 ^ rounds) :
    (positions r (lowFirst rounds num)).getLast? = some (msbByte rounds num r) := by
  induction rounds generalizing num r with
  | zero => omega
  | succ rounds ih =>
    have hhalf : num >>> 1 = num / 2 := Nat.shiftRight_eq_div_pow num 1
    rw [Nat.pow_succ] at hlt
    rw [msbByte]
    by_cases hmore : num >>> 1 ≠ 0
    · have hrest := ih (r := r + 1) hmore (by rw [hhalf]; omega)
      rw [if_pos hmore, ← hrest]
      by_cases hodd : num &&& 1 ≠ 0
      · have hne : positions (r + 1) (lowFirst rounds (num >>> 1)) ≠ [] := by
          intro hnil
          rw [hnil] at hrest
          cases hrest
        rw [positions_lowFirst_odd _ _ hodd, ← List.singleton_append, List.getLast?_append_of_ne_nil _ hne]
      · rw [positions_lowFirst_even _ _ (not_not.mp hodd)]
    · have hone : num = 1 := by omega
      rw [if_neg hmore, hone, positions_lowFirst_odd _ _ Nat.one_ne_zero]
      have hzero : 1 >>> 1 = 0 := rfl
      rw [hzero, positions_zero]
      rfl

theorem msbByte_add (rounds num r c : Nat) : msbByte rounds num (r + c) = r + msbByte rounds num c := by
  induction rounds generalizing num c with
  | zero => rfl
  | succ rounds ih =>
    rw [msbByte, msbByte, Nat.add_assoc, ih]
    split
    · rfl
    · rfl

theorem getLast?_byte (base : Nat) {d : UInt8} (h : d ≠ 0) :
    (positions base (lowFirst 8 d.toNat)).getLast? = some (base + msb8 d) := by
  have hpos : d.toNat ≠ 0 := by
    intro hzero
    exact h (UInt8.toNat_inj.mp hzero)
  rw [getLast?_positions_lowFirst hpos d.toNat_lt, msb8, ← msbByte_add, Nat.add_zero]

theorem msb8_lt {d : UInt8} (h : d ≠ 0) : msb8 d < 8 := by
  have hmem := List.mem_of_getLast? (getLast?_byte 0 h)
  rw [mem_positions, getD_lowFirst, Nat.zero_add, Nat.sub_zero, Bool.and_eq_true] at hmem
  exact of_decide_eq_true hmem.2.1

def firstByte (b : DynamicBitSet) : Option UInt8 := b.data.find? (· ≠ 0)

theorem smallestLoop_spec (id : Nat) {d : UInt8} (h : data.find? (· ≠ 0) = some d) :
    ∃ base rest, smallestLoop id data = base + msb8 d ∧ d ≠ 0 ∧
      positions id (byteBits data) = positions base (lowFirst 8 d.toNat) ++ rest := by
  induction data generalizing id with
  | nil => cases h
  | cons c data ih =>
    rw [smallestLoop, positions_cons]
    by_cases hc : c ≠ 0
    · rw [List.find?_cons_of_pos (by simpa using hc)] at h
      cases h
      exact ⟨id, _, if_pos hc, hc, rfl⟩
    · rw [List.find?_cons_of_neg (by simpa using hc)] at h
      rw [if_neg hc, not_not.mp hc]
      obtain ⟨base, rest, hloop, hd, hids⟩ := ih (id + 8) h
      refine ⟨base, rest, hloop, hd, ?_⟩
      rw [hids]
      exact congrArg (· ++ _) (positions_zero id 8)

theorem firstByte_eq_none (h : b.firstByte = none) : b.ids = [] := by
  have hall : ∀ d ∈ b.data, d = 0 := by simpa [firstByte] using h
  rw [List.eq_nil_iff_forall_not_mem]
  intro pos hpos
  have hset := mem_ids.mp hpos
  rw [isSet_eq, bit] at hset
  have hzero : b.data.getD (pos / 8) 0 = 0 := by
    rcases Nat.lt_or_ge (pos / 8) b.data.length with hlt | hge
    · rw [List.getD_eq_getElem _ _ hlt]
      exact hall _ (List.getElem_mem hlt)
    · exact List.getD_eq_default _ _ hge
  rw [hzero] at hset
  simp at hset

theorem smallestEntry_mem (h : b.ids ≠ []) :
    ∃ d first rest, b.firstByte = some d ∧ b.ids = first ++ rest ∧ first.length = popCount 8 d.toNat ∧
      first.getLast? = some b.smallestEntry := by
  cases hfirst : b.firstByte with
  | none => exact absurd (firstByte_eq_none hfirst) h
  | some d =>
    obtain ⟨base, rest, hloop, hd, hids⟩ := smallestLoop_spec 0 hfirst
    refine ⟨d, _, rest, rfl, hids, ?_, ?_⟩
    · rw [length_positions, popCount, lowBits_eq_reverse, List.count_reverse]
    · rw [getLast?_byte base hd, smallestEntry, hloop]

theorem largestLoop_spec {i id m : Nat} (hi : i ≤ data.length)
    (hid : (id + 1) % 2 ^ 64 = 8 * i % 2 ^ 64)
    (hlast : (positions 0 (byteBits (data.take i))).getLast? = some m) :
    (largestLoop data i id + 1) % 2 ^ 64 = m % 2 ^ 64 := by
  induction i generalizing id with
  | zero => cases hlast
  | succ i ih =>
    have hbyte : data.take (i + 1) = data.take i ++ [data.getD i 0] := by
      rw [List.take_succ_eq_append_getElem hi, List.getD_eq_getElem _ _ hi]
    have hlen : (byteBits (data.take i)).length = 8 * i := by
      rw [length_byteBits, List.length_take]
      omega
    have hsplit : positions 0 (byteBits (data.take (i + 1))) = positions 0 (byteBits (data.take i)) ++
        positions (8 * i) (lowFirst 8 (data.getD i 0).toNat) := by
      rw [hbyte, byteBits, List.flatMap_append, positions_append, ← byteBits, hlen, Nat.zero_add]
      simp
    rw [hsplit] at hlast
    rw [largestLoop]
    by_cases hd : data.getD i 0 ≠ 0
    · have hbyteLast := getLast?_byte (8 * i) hd
      rw [List.getLast?_append, hbyteLast] at hlast
      obtain rfl : 8 * i + msb8 (data.getD i 0) = m := Option.some.inj hlast
      have hmsb := msb8_lt hd
      simp only [if_pos hd, sub64]
      omega
    · rw [not_not.mp hd, UInt8.toNat_zero, positions_zero, List.append_nil] at hlast
      have hid' : (sub64 id 8 + 1) % 2 ^ 64 = 8 * i % 2 ^ 64 := by
        rw [sub64]
        omega
      simp only [if_neg hd]
      exact ih (Nat.le_of_succ_le hi) hid' hlast

theorem largestEntry_succ {m : Nat} (h : b.ids.getLast? = some m) :
    (b.largestEntry + 1) % 2 ^ 64 = m % 2 ^ 64 := by
  have hpos : b.data.length ≠ 0 := by
    intro hzero
    rw [ids, List.length_eq_zero_iff.mp hzero] at h
    cases h
  have hid : (b.data.length * 8 - 1 + 1) % 2 ^ 64 = 8 * b.data.length % 2 ^ 64 := by
    rw [Nat.sub_add_cancel (by omega), Nat.mul_comm]
  rw [largestEntry, if_neg hpos]
  refine largestLoop_spec (Nat.le_refl _) hid ?_
  rwa [List.take_length]

theorem lt_upperBoundLoop {i pos : Nat} (hpos : pos < 8 * i) (hset : bit data pos = true) :
    pos < upperBoundLoop data i := by
  induction i with
  | zero => omega
  | succ i ih =>
    rw [upperBoundLoop]
    by_cases hd : data.getD i 0 ≠ 0
    · rwa [if_pos hd]
    · rw [if_neg hd]
      refine ih ?_
      by_contra hge
      have hbyte : pos / 8 = i := by omega
      rw [bit, hbyte, not_not.mp hd] at hset
      simp at hset

theorem lt_upperBound {pos : Nat} (h : b.isSet pos = true) : pos < b.upperBound := by
  rw [isSet_eq] at h
  have hlt : pos < 8 * b.data.length := by
    by_contra hge
    rw [bit_of_length_le (by omega)] at h
    cases h
  have hpos : b.data.length ≠ 0 := by omega
  rw [upperBound, if_neg hpos]
  exact lt_upperBoundLoop hlt h

theorem all_zero_iff (data : Bytes) : data.all (· = 0) = true ↔ ∀ i, data.getD i 0 = 0 := by
  rw [List.all_eq_true]
  constructor
  · intro h i
    rcases Nat.lt_or_ge i data.length with hlt | hge
    · rw [List.getD_eq_getElem _ _ hlt]
      exact of_decide_eq_true (h _ (List.getElem_mem hlt))
    · exact List.getD_eq_default _ _ hge
  · intro h d hd
    obtain ⟨i, hi, rfl⟩ := List.getElem_of_mem hd
    have hzero := h i
    rw [List.getD_eq_getElem _ _ hi] at hzero
    exact decide_eq_true hzero

theorem zip_all_iff (xs ys : Bytes) :
    ((List.zip xs ys).all (fun p => p.1 = p.2) && (xs.drop ys.length).all (· = 0) &&
      (ys.drop xs.length).all (· = 0)) = true ↔ ∀ i, xs.getD i 0 = ys.getD i 0 := by
  induction xs generalizing ys with
  | nil =>
    have hswap : (∀ i, ys.getD i 0 = 0) ↔ ∀ i, ([] : Bytes).getD i 0 = ys.getD i 0 :=
      forall_congr' fun i => eq_comm
    rw [← hswap, ← all_zero_iff]
    simp
  | cons x xs ih =>
    cases ys with
    | nil =>
      rw [List.zip_nil_right, List.drop_nil]
      simpa using all_zero_iff (x :: xs)
    | cons y ys =>
      have hhead : (∀ i, (x :: xs).getD i 0 = (y :: ys).getD i 0) ↔
          x = y ∧ ∀ i, xs.getD i 0 = ys.getD i 0 := by
        constructor
        · intro h
          exact ⟨h 0, fun i => h (i + 1)⟩
        · rintro ⟨hxy, h⟩ i
          cases i with
          | zero => exact hxy
          | succ i => exact h i
      rw [hhead, ← ih, List.zip_cons_cons, List.all_cons, List.length_cons, List.length_cons,
        List.drop_succ_cons, List.drop_succ_cons]
      simp [and_assoc]

theorem isSet_congr_iff (b other : DynamicBitSet) :
    (∀ pos, b.isSet pos = other.isSet pos) ↔ ∀ i, b.data.getD i 0 = other.data.getD i 0 := by
  constructor
  · intro h i
    refine UInt8.toNat_inj.mp (eq_of_testBit (UInt8.toNat_lt _) (UInt8.toNat_lt _) fun j hj => ?_)
    have hbit := h (8 * i + j)
    have hdiv : (8 * i + j) / 8 = i := by omega
    have hmod : (8 * i + j) % 8 = j := by omega
    rwa [isSet_eq, isSet_eq, bit, bit, hdiv, hmod] at hbit
  · intro h pos
    rw [isSet_eq, isSet_eq, bit, bit, h]

theorem equal_iff (b other : DynamicBitSet) :
    b.equal other = true ↔ ∀ pos, b.isSet pos = other.isSet pos := by
  rw [equal, drop_min, zip_all_iff, isSet_congr_iff]

end Sserialize.DynamicBitSet
