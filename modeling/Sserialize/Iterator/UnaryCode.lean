import Sserialize.Library.BitString
import Sserialize.Storage.Bytes

/-!
# `UnaryCodeCreator` and `UnaryCodeIterator`

A number is coded as so many clear bits and a set one, in chunks of eight bits, the highest bit
first.
-/

namespace Sserialize

open BitString

def chunkBits : Nat := 8

def chunkMaxBit : Nat := 1 <<< (chunkBits - 1)

/-! ## Writing -/

structure UnaryCodeCreator where
  d : Bytes
  lastChunk : Nat
  inChunkBits : Nat
  deriving Repr, DecidableEq

namespace UnaryCodeCreator

def new (d : Bytes) : UnaryCodeCreator := { d := d, lastChunk := 0, inChunkBits := chunkBits }

/-- The loop of `put` over the chunks without a set bit. -/
def putChunks (lastChunk : Nat) : Nat → Nat → Bytes → Nat × Bytes
  | 0, v, d => (v, d)
  | rounds + 1, v, d =>
    if v ≥ chunkBits then putChunks lastChunk rounds (v - chunkBits) (d ++ [byte lastChunk])
    else (v, d)

/-- The end of `put`, where the value fits into the chunk. -/
def putStopBit (c : UnaryCodeCreator) (v : Nat) : UnaryCodeCreator :=
  { c with
    lastChunk := c.lastChunk ||| 1 <<< (c.inChunkBits - (v + 1))
    inChunkBits := c.inChunkBits - (v + 1) }

def put (c : UnaryCodeCreator) (v : Nat) : UnaryCodeCreator :=
  if v ≥ c.inChunkBits then
    let d := c.d ++ [byte c.lastChunk]
    let v := v - c.inChunkBits
    let (v, d) := putChunks 0 v v d
    putStopBit { d := d, lastChunk := 0, inChunkBits := chunkBits } v
  else putStopBit c v

def flush (c : UnaryCodeCreator) : UnaryCodeCreator :=
  if c.lastChunk ≠ 0 then { c with d := c.d ++ [byte c.lastChunk] } else c

def written (c : UnaryCodeCreator) : List Bool :=
  bits c.d ++ lowBits (chunkBits - c.inChunkBits) (c.lastChunk >>> c.inChunkBits)

structure Free (c : UnaryCodeCreator) : Prop where
  bits_le : c.inChunkBits ≤ chunkBits
  lt : c.lastChunk < 2 ^ chunkBits
  clear : ∀ i < c.inChunkBits, c.lastChunk.testBit i = false
  stop : c.inChunkBits < chunkBits → c.lastChunk ≠ 0

theorem free_new (d : Bytes) : (new d).Free :=
  ⟨Nat.le_refl _, Nat.two_pow_pos _, fun _ _ => Nat.zero_testBit _,
    fun h => absurd h (Nat.lt_irrefl _)⟩

theorem written_new (d : Bytes) : (new d).written = bits d := by
  simp [written, new, lowBits]

theorem lowBits_toNat_byte {n : Nat} (hn : n < 2 ^ 8) : lowBits 8 (byte n).toNat = lowBits 8 n := by
  rw [byte, UInt8.toNat_ofNat', Nat.mod_eq_of_lt hn]

variable {c : UnaryCodeCreator}

theorem lowBits_lastChunk (h : c.Free) :
    lowBits chunkBits c.lastChunk =
      lowBits (chunkBits - c.inChunkBits) (c.lastChunk >>> c.inChunkBits) ++
        List.replicate c.inChunkBits false := by
  have hsplit : chunkBits = (chunkBits - c.inChunkBits) + c.inChunkBits :=
    (Nat.sub_add_cancel h.bits_le).symm
  have hfree : lowBits c.inChunkBits c.lastChunk = List.replicate c.inChunkBits false := by
    rw [← lowBits_zero]
    refine lowBits_congr fun i hi => ?_
    rw [h.clear i hi, Nat.zero_testBit]
  rw [← hfree, ← lowBits_add, ← hsplit]

theorem bits_put_chunk (h : c.Free) :
    bits (c.d ++ [byte c.lastChunk]) = c.written ++ List.replicate c.inChunkBits false := by
  rw [bits_append, bits_cons, bits_nil, List.append_nil, lowBits_toNat_byte h.lt, written,
    List.append_assoc, ← lowBits_lastChunk h]
  rfl

theorem putChunks_spec (rounds : Nat) {v : Nat} {d : Bytes} (hrounds : v < chunkBits * (rounds + 1)) :
    ∃ v' d', putChunks 0 rounds v d = (v', d') ∧ v' < chunkBits ∧
      bits d' ++ List.replicate v' false = bits d ++ List.replicate v false := by
  induction rounds generalizing v d with
  | zero => exact ⟨v, d, rfl, by omega, rfl⟩
  | succ rounds ih =>
    unfold putChunks
    by_cases hmore : v ≥ chunkBits
    · obtain ⟨v', d', hloop, hlt, hbits⟩ := ih (v := v - chunkBits) (d := d ++ [byte 0]) (by
        rw [Nat.mul_succ] at hrounds
        omega)
      have hzero : bits [byte 0] = List.replicate chunkBits false := bits_replicate_zero 1
      have hsplit : chunkBits + (v - chunkBits) = v := by omega
      rw [if_pos hmore, hloop]
      refine ⟨v', d', rfl, hlt, ?_⟩
      rw [hbits, bits_append, hzero, List.append_assoc, ← List.replicate_add, hsplit]
    · rw [if_neg hmore]
      exact ⟨v, d, rfl, by omega, rfl⟩

theorem putStopBit_spec (h : c.Free) {v : Nat} (hv : v < c.inChunkBits) :
    (c.putStopBit v).Free ∧
      (c.putStopBit v).written = c.written ++ (List.replicate v false ++ [true]) := by
  obtain ⟨rest, hrest⟩ : ∃ rest, c.inChunkBits = rest + (v + 1) :=
    ⟨c.inChunkBits - (v + 1), by omega⟩
  have hleft : c.inChunkBits - (v + 1) = rest := by omega
  have hle := h.bits_le
  have hpow : (1 : Nat) <<< rest = 2 ^ rest := by rw [Nat.shiftLeft_eq, Nat.one_mul]
  have hbit : ∀ i, (c.lastChunk ||| 2 ^ rest).testBit i =
      (c.lastChunk.testBit i || decide (rest = i)) := by
    intro i
    rw [Nat.testBit_or, Nat.testBit_two_pow]
  have hstop : (c.lastChunk ||| 2 ^ rest) ≠ 0 := by
    intro hzero
    have hset := hbit rest
    rw [hzero, Nat.zero_testBit] at hset
    simp at hset
  constructor
  · unfold putStopBit
    rw [hleft, hpow]
    refine ⟨by simp only; omega, ?_, ?_, fun _ => hstop⟩
    · exact Nat.or_lt_two_pow h.lt (Nat.pow_lt_pow_right (by decide) (by omega))
    · intro i hi
      simp only at hi ⊢
      have hne : ¬ rest = i := by omega
      rw [hbit, h.clear i (by omega)]
      simp [hne]
  · have hused : chunkBits - rest = (chunkBits - c.inChunkBits) + (v + 1) := by omega
    have hshift : (c.lastChunk ||| 2 ^ rest) >>> rest >>> (v + 1) =
        c.lastChunk >>> c.inChunkBits := by
      apply Nat.eq_of_testBit_eq
      intro i
      have hpos : rest + (v + 1 + i) = c.inChunkBits + i := by omega
      have hne : ¬ rest = c.inChunkBits + i := by omega
      rw [Nat.testBit_shiftRight, Nat.testBit_shiftRight, hbit, Nat.testBit_shiftRight, hpos,
        decide_eq_false hne, Bool.or_false]
    have hnew : lowBits (v + 1) ((c.lastChunk ||| 2 ^ rest) >>> rest) =
        List.replicate v false ++ [true] := by
      rw [lowBits_add, lowBits, lowBits, Nat.testBit_shiftRight, hbit]
      have hzero : lowBits v ((c.lastChunk ||| 2 ^ rest) >>> rest >>> 1) = lowBits v 0 := by
        refine lowBits_congr fun i hi => ?_
        have hne : ¬ rest = rest + (1 + i) := by omega
        rw [Nat.testBit_shiftRight, Nat.testBit_shiftRight, hbit, h.clear _ (by omega),
          Nat.zero_testBit, decide_eq_false hne, Bool.or_false]
      rw [hzero, lowBits_zero]
      simp
    unfold written putStopBit
    simp only [hleft, hpow]
    rw [hused, lowBits_add, hshift, hnew, List.append_assoc]

theorem put_spec (h : c.Free) (v : Nat) :
    (c.put v).Free ∧ (c.put v).written = c.written ++ (List.replicate v false ++ [true]) := by
  unfold put
  by_cases hnext : v ≥ c.inChunkBits
  · obtain ⟨v', d', hloop, hlt, hbits⟩ := putChunks_spec (v - c.inChunkBits)
      (v := v - c.inChunkBits) (d := c.d ++ [byte c.lastChunk])
      (by unfold chunkBits; omega)
    simp only [if_pos hnext, hloop]
    have hfree : (new d').Free := free_new d'
    obtain ⟨hput, hwritten⟩ := putStopBit_spec hfree (v := v') hlt
    refine ⟨hput, ?_⟩
    have hsplit : c.inChunkBits + (v - c.inChunkBits) = v := by omega
    have hfront : bits d' ++ List.replicate v' false = c.written ++ List.replicate v false := by
      rw [hbits, bits_put_chunk h, List.append_assoc, ← List.replicate_add, hsplit]
    rw [new] at hwritten
    rw [hwritten, ← List.append_assoc, ← List.append_assoc, ← hfront]
    congr 2
    exact written_new d'
  · rw [if_neg hnext]
    exact putStopBit_spec h (by omega)

theorem foldl_put_spec (h : c.Free) (vs : List Nat) :
    (vs.foldl put c).Free ∧ (vs.foldl put c).written = c.written ++ unary vs := by
  induction vs generalizing c with
  | nil => exact ⟨h, (List.append_nil _).symm⟩
  | cons v vs ih =>
    obtain ⟨hput, hwritten⟩ := put_spec h v
    obtain ⟨hall, hrest⟩ := ih hput
    refine ⟨hall, ?_⟩
    rw [List.foldl_cons, hrest, hwritten, unary_cons]
    simp

theorem flush_spec (h : c.Free) :
    ∃ k < chunkBits, bits c.flush.d = c.written ++ List.replicate k false := by
  unfold flush
  by_cases hzero : c.lastChunk ≠ 0
  · refine ⟨c.inChunkBits, ?_, ?_⟩
    · rcases Nat.lt_or_ge c.inChunkBits chunkBits with hlt | hge
      · exact hlt
      · refine absurd (eq_zero_of_lowBits h.lt ?_) hzero
        have hall := lowBits_lastChunk h
        have hfull : c.inChunkBits = chunkBits := Nat.le_antisymm h.bits_le hge
        rw [hfull, Nat.sub_self] at hall
        exact hall
    · rw [if_pos hzero]
      exact bits_put_chunk h
  · have hfull : chunkBits - c.inChunkBits = 0 := by
      by_contra hne
      exact hzero (h.stop (by omega))
    refine ⟨0, by decide, ?_⟩
    rw [if_neg hzero, written, hfull]
    simp [lowBits]

end UnaryCodeCreator

/-! ## Reading -/

structure UnaryCodeIterator where
  d : Bytes
  pos : Nat
  last : Nat
  lastChunk : Nat
  chunkBitPtr : Nat
  deriving Repr, DecidableEq

namespace UnaryCodeIterator

def scanChunk (lastChunk : Nat) : Nat → Nat → Nat → Bool × Nat × Nat
  | 0, chunkBitPtr, last => (false, chunkBitPtr, last)
  | rounds + 1, chunkBitPtr, last =>
    if chunkBitPtr ≠ 0 then
      if lastChunk &&& chunkBitPtr ≠ 0 then (true, chunkBitPtr >>> 1, last)
      else scanChunk lastChunk rounds (chunkBitPtr >>> 1) (u32 (last + 1))
    else (false, chunkBitPtr, last)

def loadNextChunk (it : UnaryCodeIterator) : UnaryCodeIterator :=
  { it with
    lastChunk := (it.d.getD it.pos 0).toNat
    chunkBitPtr := chunkMaxBit
    pos := it.pos + 1 }

def loadChunks : Nat → UnaryCodeIterator → UnaryCodeIterator
  | 0, it => it
  | rounds + 1, it =>
    if it.pos < it.d.length then
      let it := it.loadNextChunk
      if it.lastChunk ≠ 0 then it
      else loadChunks rounds { it with last := u32 (it.last + chunkBits) }
    else it

def nextChunks (it : UnaryCodeIterator) : UnaryCodeIterator :=
  let it := loadChunks (it.d.length - it.pos) it
  let (_, chunkBitPtr, last) := scanChunk it.lastChunk chunkBits it.chunkBitPtr it.last
  { it with chunkBitPtr := chunkBitPtr, last := last }

def next (it : UnaryCodeIterator) : UnaryCodeIterator :=
  if it.pos ≥ it.d.length ∧ it.chunkBitPtr = 0 then it
  else if it.chunkBitPtr ≠ chunkMaxBit then
    let (isStopBit, chunkBitPtr, last) := scanChunk it.lastChunk chunkBits it.chunkBitPtr 0
    let it := { it with chunkBitPtr := chunkBitPtr, last := last }
    if isStopBit then it else it.nextChunks
  else nextChunks { it with last := 0 }

def new : UnaryCodeIterator := { d := [], pos := 0, last := 0, lastChunk := 0, chunkBitPtr := 0 }

def ofData (d : Bytes) : UnaryCodeIterator :=
  next { d := d, pos := 0, last := 0, lastChunk := 0, chunkBitPtr := 0 }

def Ahead (it : UnaryCodeIterator) (bs : List Bool) : Prop :=
  ∃ k < chunkBits, it.chunkBitPtr = 2 ^ k / 2 ∧
    bs = lowBits k it.lastChunk ++ bits (it.d.drop it.pos)

theorem scanChunk_spec (chunk last : Nat) {k rounds v : Nat} {rest bs : List Bool}
    (hrounds : k ≤ rounds)
    (hcode : lowBits k chunk ++ rest = List.replicate v false ++ true :: bs) :
    (∃ k' < k,
      scanChunk chunk rounds (2 ^ k / 2) (u32 last) = (true, 2 ^ k' / 2, u32 (last + v)) ∧
      bs = lowBits k' chunk ++ rest) ∨
    (k ≤ v ∧ lowBits k chunk = List.replicate k false ∧
      scanChunk chunk rounds (2 ^ k / 2) (u32 last) = (false, 0, u32 (last + k)) ∧
      rest = List.replicate (v - k) false ++ true :: bs) := by
  induction k generalizing rounds v last with
  | zero =>
    refine .inr ⟨Nat.zero_le _, rfl, ?_, hcode⟩
    cases rounds <;> rfl
  | succ k ih =>
    obtain ⟨rounds, rfl⟩ : ∃ r, rounds = r + 1 := ⟨rounds - 1, by omega⟩
    have hptr : 2 ^ (k + 1) / 2 = 2 ^ k := by
      rw [Nat.pow_succ, Nat.mul_div_cancel _ (by decide)]
    have hne : (2 : Nat) ^ k ≠ 0 := (Nat.two_pow_pos k).ne'
    have hshift : (2 : Nat) ^ k >>> 1 = 2 ^ k / 2 := Nat.shiftRight_eq_div_pow _ 1
    rw [lowBits, List.cons_append] at hcode
    unfold scanChunk
    rw [hptr, if_pos hne, hshift, Nat.and_two_pow]
    cases v with
    | zero =>
      rw [List.replicate_zero, List.nil_append, List.cons.injEq] at hcode
      refine .inl ⟨k, Nat.lt_succ_self k, ?_, hcode.2.symm⟩
      rw [hcode.1]
      simp
    | succ v =>
      rw [List.replicate_succ, List.cons_append, List.cons.injEq] at hcode
      obtain ⟨hbit, hcode⟩ := hcode
      have hlast : last + 1 + v = last + (v + 1) := by omega
      have hlast' : last + 1 + k = last + (k + 1) := by omega
      rw [hbit, if_neg (by simp), u32_add_u32, lowBits, hbit]
      rcases ih (last + 1) (show k ≤ rounds by omega) hcode with
        ⟨k', hk', hscan, hbs⟩ | ⟨hle, hzero, hscan, hrest⟩
      · rw [hlast] at hscan
        exact .inl ⟨k', by omega, hscan, hbs⟩
      · rw [hlast'] at hscan
        refine .inr ⟨by omega, by rw [hzero, List.replicate_succ], hscan, ?_⟩
        rw [hrest]
        congr 2
        omega

theorem bits_drop {d : Bytes} {pos : Nat} (hpos : pos < d.length) :
    bits (d.drop pos) = lowBits 8 (d.getD pos 0).toNat ++ bits (d.drop (pos + 1)) := by
  rw [List.drop_eq_getElem_cons hpos, bits_cons]
  simp [List.getD, hpos]

variable {bs : List Bool}

theorem loadChunks_spec (rounds : Nat) (it : UnaryCodeIterator) {last v : Nat}
    (hrounds : it.d.length - it.pos ≤ rounds) (hlast : it.last = u32 last)
    (hcode : bits (it.d.drop it.pos) = List.replicate v false ++ true :: bs) :
    ∃ it' skipped, loadChunks rounds it = it' ∧ it'.d = it.d ∧ skipped ≤ v ∧
      it'.last = u32 (last + skipped) ∧ it'.chunkBitPtr = 2 ^ chunkBits / 2 ∧
      it'.lastChunk ≠ 0 ∧ it'.lastChunk < 2 ^ chunkBits ∧
      lowBits chunkBits it'.lastChunk ++ bits (it'.d.drop it'.pos) =
        List.replicate (v - skipped) false ++ true :: bs := by
  have hpos : it.pos < it.d.length := by
    by_contra hend
    rw [List.drop_eq_nil_of_le (by omega)] at hcode
    simp at hcode
  induction rounds generalizing it last v with
  | zero => omega
  | succ rounds ih =>
    unfold loadChunks
    simp only [if_pos hpos]
    rw [bits_drop hpos] at hcode
    by_cases hchunk : it.loadNextChunk.lastChunk ≠ 0
    · rw [if_pos hchunk]
      exact ⟨_, 0, rfl, rfl, Nat.zero_le v, hlast, rfl, hchunk, UInt8.toNat_lt _, hcode⟩
    · have hzero : (it.d.getD it.pos 0).toNat = 0 := not_not.mp hchunk
      rw [hzero, lowBits_zero] at hcode
      obtain ⟨hle, hrest⟩ := replicate_append_code hcode
      have hnext : u32 (it.loadNextChunk.last + chunkBits) = u32 (last + 8) := by
        have hsame : it.loadNextChunk.last = it.last := rfl
        rw [hsame, hlast, u32_add_u32]
        rfl
      have hmore : it.pos + 1 < it.d.length := by
        by_contra hend
        rw [List.drop_eq_nil_of_le (by omega)] at hrest
        simp at hrest
      obtain ⟨it', skipped, hload, hd, hskip, hlast', hptr, hne, hlt, hcode'⟩ :=
        ih { it.loadNextChunk with last := u32 (it.loadNextChunk.last + chunkBits) }
          (show it.d.length - (it.pos + 1) ≤ rounds by omega) hnext hrest hmore
      rw [if_neg hchunk]
      have hsum : v - 8 - skipped = v - (skipped + 8) := by omega
      have hadd : last + 8 + skipped = last + (skipped + 8) := by omega
      rw [hsum] at hcode'
      rw [hadd] at hlast'
      exact ⟨it', skipped + 8, hload, hd, by omega, hlast', hptr, hne, hlt, hcode'⟩

theorem nextChunks_spec (it : UnaryCodeIterator) {last v : Nat} (hlast : it.last = u32 last)
    (hcode : bits (it.d.drop it.pos) = List.replicate v false ++ true :: bs) :
    it.nextChunks.last = u32 (last + v) ∧ it.nextChunks.Ahead bs := by
  obtain ⟨it', skipped, hload, -, hskip, hlast', hptr, hne, hlt, hcode'⟩ :=
    loadChunks_spec (it.d.length - it.pos) it (Nat.le_refl _) hlast hcode
  rcases scanChunk_spec it'.lastChunk (last + skipped) (Nat.le_refl chunkBits) hcode' with
    ⟨k, hk, hscan, hbs⟩ | ⟨-, hzero, -⟩
  · have hsum : last + skipped + (v - skipped) = last + v := by omega
    rw [hsum] at hscan
    unfold nextChunks
    simp only [hload, hptr, hlast', hscan, true_and]
    exact ⟨k, hk, rfl, hbs⟩
  · exact absurd (eq_zero_of_lowBits hlt hzero) hne

theorem next_spec {it : UnaryCodeIterator} {v : Nat}
    (h : it.Ahead (List.replicate v false ++ true :: bs)) :
    it.next.last = u32 v ∧ it.next.Ahead bs := by
  obtain ⟨k, hk, hptr, hcode⟩ := h
  have hptr_ne : it.chunkBitPtr ≠ chunkMaxBit := by
    have hall : ∀ k < chunkBits, 2 ^ k / 2 ≠ chunkMaxBit := by decide
    rw [hptr]
    exact hall k hk
  have hmore : ¬ (it.pos ≥ it.d.length ∧ it.chunkBitPtr = 0) := by
    rintro ⟨hend, hnone⟩
    have hk0 : k = 0 := by
      have hall : ∀ k < chunkBits, 2 ^ k / 2 = 0 → k = 0 := by decide
      exact hall k hk (by rw [← hptr, hnone])
    rw [hk0, List.drop_eq_nil_of_le hend] at hcode
    simp [lowBits] at hcode
  have hzero : u32 0 = 0 := rfl
  unfold next
  rw [if_neg hmore, if_pos hptr_ne, hptr]
  rcases scanChunk_spec it.lastChunk 0 (Nat.le_of_lt hk) hcode.symm with
    ⟨k', hk', hscan, hbs⟩ | ⟨hle, -, hscan, hrest⟩
  · rw [hzero, Nat.zero_add] at hscan
    simp only [hscan, if_true, true_and]
    exact ⟨k', by omega, rfl, hbs⟩
  · rw [hzero, Nat.zero_add] at hscan
    simp only [hscan]
    have hspec := nextChunks_spec { it with chunkBitPtr := 0, last := u32 k } rfl hrest
    have hsum : k + (v - k) = v := by omega
    rw [hsum] at hspec
    exact hspec

theorem ofData_spec {d : Bytes} {v : Nat} (h : bits d = List.replicate v false ++ true :: bs) :
    (ofData d).last = u32 v ∧ (ofData d).Ahead bs := by
  apply next_spec
  exact ⟨0, by decide, rfl, by rw [← h]; rfl⟩

/-- The next `n` numbers, which the caller counts. -/
def read : Nat → UnaryCodeIterator → List Nat
  | 0, _ => []
  | n + 1, it => it.last :: read n it.next

theorem read_of_ahead {it : UnaryCodeIterator} {v : Nat} {vs : List Nat} (hv : v < 2 ^ 32)
    (hvs : ∀ w ∈ vs, w < 2 ^ 32) (hlast : it.last = u32 v) (h : it.Ahead (unary vs ++ bs)) :
    it.read (vs.length + 1) = v :: vs := by
  induction vs generalizing it v with
  | nil => rw [List.length_nil, read, read, hlast, u32_of_lt hv]
  | cons w vs ih =>
    rw [unary_cons, List.append_assoc, List.cons_append] at h
    obtain ⟨hnext, hahead⟩ := next_spec h
    have hrest := ih (hvs w List.mem_cons_self) (fun x hx => hvs x (List.mem_cons_of_mem w hx))
      hnext hahead
    rw [List.length_cons, read, hlast, u32_of_lt hv, hrest]

theorem read_ofData {d : Bytes} {vs : List Nat} (hvs : ∀ v ∈ vs, v < 2 ^ 32)
    (h : bits d = unary vs ++ bs) : (ofData d).read vs.length = vs := by
  cases vs with
  | nil => rfl
  | cons v vs =>
    rw [unary_cons, List.append_assoc, List.cons_append] at h
    obtain ⟨hlast, hahead⟩ := ofData_spec h
    exact read_of_ahead (hvs v List.mem_cons_self)
      (fun w hw => hvs w (List.mem_cons_of_mem v hw)) hlast hahead

end UnaryCodeIterator

/-! ## Reading what was written -/

namespace UnaryCodeCreator

def destroy (c : UnaryCodeCreator) : Bytes := c.flush.d

/-- The numbers are read back from the flushed bytes, and behind `flush` nothing more is written. -/
structure RoundTrips (d : Bytes) (vs : List Nat) : Prop where
  reads : (UnaryCodeIterator.ofData ((vs.foldl put (new d)).flush.d.drop d.length)).read vs.length = vs
  flush_flush : (vs.foldl put (new d)).flush.flush.d = (vs.foldl put (new d)).flush.d
  flush_destroy : (vs.foldl put (new d)).flush.destroy = (vs.foldl put (new d)).flush.d

theorem read_flush {vs : List Nat} (d : Bytes) (hvs : ∀ v ∈ vs, v < 2 ^ 32) :
    (UnaryCodeIterator.ofData ((vs.foldl put (new d)).flush.d.drop d.length)).read vs.length = vs := by
  obtain ⟨hfree, hwritten⟩ := foldl_put_spec (free_new d) vs
  obtain ⟨k, -, hflush⟩ := flush_spec hfree
  have hbits : bits ((vs.foldl put (new d)).flush.d.drop d.length) =
      unary vs ++ List.replicate k false := by
    rw [← drop_bits, hflush, hwritten, written_new, List.append_assoc,
      List.drop_left' (length_bits d)]
  exact UnaryCodeIterator.read_ofData hvs hbits

theorem flush_flush_iff (c : UnaryCodeCreator) : c.flush.flush.d = c.flush.d ↔ c.lastChunk = 0 := by
  constructor
  · intro h
    by_contra hne
    have hlength := congrArg List.length h
    rw [flush, flush, if_pos hne, if_pos hne, List.length_append] at hlength
    simp at hlength
  · intro hzero
    have hkeep : c.flush = c := by
      rw [flush, if_neg (not_not.mpr hzero)]
    rw [hkeep, hkeep]

theorem putStopBit_ne_zero (c : UnaryCodeCreator) (v : Nat) : (c.putStopBit v).lastChunk ≠ 0 := by
  intro hzero
  have hstop := (Nat.or_eq_zero_iff.mp hzero).2
  rw [Nat.shiftLeft_eq, Nat.one_mul] at hstop
  exact (Nat.two_pow_pos _).ne' hstop

theorem put_ne_zero (c : UnaryCodeCreator) (v : Nat) : (c.put v).lastChunk ≠ 0 := by
  rw [put]
  split
  · exact putStopBit_ne_zero _ _
  · exact putStopBit_ne_zero c v

theorem lastChunk_foldl_put (d : Bytes) (vs : List Nat) :
    (vs.foldl put (new d)).lastChunk = 0 ↔ vs = [] := by
  rcases List.eq_nil_or_concat vs with rfl | ⟨front, v, rfl⟩
  · exact iff_of_true rfl rfl
  · rw [List.concat_eq_append, List.foldl_append]
    exact iff_of_false (put_ne_zero _ v) (List.append_ne_nil_of_right_ne_nil front (List.cons_ne_nil v []))

theorem unaryCode_roundTrips_iff (d : Bytes) (vs : List Nat) (hvs : ∀ v ∈ vs, v < 2 ^ 32) :
    RoundTrips d vs ↔ vs = [] := by
  rw [← lastChunk_foldl_put d vs, ← flush_flush_iff]
  constructor
  · exact RoundTrips.flush_flush
  · intro h
    exact ⟨read_flush d hvs, h, h⟩

theorem unaryCode_roundTrips_iff_two : RoundTrips [7] [3, 20] ↔ [3, 20] = [] :=
  unaryCode_roundTrips_iff [7] [3, 20] (by decide)

/-- The number zero is one set bit. -/
theorem unaryCode_not_roundTrips :
    ¬ ∀ (d : Bytes) (vs : List Nat), (∀ v ∈ vs, v < 2 ^ 32) → RoundTrips d vs := by
  intro h
  have hflush := (h [] [0] (by decide)).flush_flush
  revert hflush
  decide

end UnaryCodeCreator

end Sserialize
