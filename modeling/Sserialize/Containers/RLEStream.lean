import Mathlib.Data.List.Infix
import Sserialize.Storage.PackUnpack

/-!
# `RLEStream`

A sequence of 32 bit values as differences, and as a count with one difference where a difference
repeats. The low two bits of a word say which of them it is.
-/

namespace Sserialize

namespace RLEStream

/-! ## `RLEStream::Creator` -/

/-- What is written since the beginning of the stream, and what is not flushed. -/
structure Creator where
  dest : Bytes
  prevId : Nat
  rleDiff : Int
  rleCount : Nat
  deriving Repr, DecidableEq

def Creator.new : Creator := ⟨[], 0, 0, 0⟩

/-- `narrow_check<int32_t>`. -/
def narrowCheckInt32 (value : Int) : Except Fault Int :=
  if value < -2 ^ 31 ∨ 2 ^ 31 - 1 < value then .error .typeOverflow else .ok value

/-- `std::abs` of an `int32_t`. -/
def absInt32 (value : Int) : Except Fault Nat :=
  if value = -2 ^ 31 then .error .undefinedBehaviour else .ok value.natAbs

def flushed (prevId : Nat) (rleDiff : Int) (rleCount : Nat) : Except Fault Bytes :=
  if rleCount = 1 then do
    let absDiff ← absInt32 rleDiff
    if absDiff < prevId then
      if rleDiff < 0 then return putVlPackedUint64 ((-rleDiff).toNat <<< 2 ||| 0x1)
      else return putVlPackedUint64 (rleDiff.toNat <<< 2 ||| 0x0)
    else return putVlPackedUint64 (prevId <<< 2 ||| 0x2)
  else if 1 < rleCount then
    .ok (putVlPackedUint64 (u32 (rleCount <<< 2) ||| 0x3) ++ putVlPackedInt32 rleDiff)
  else .ok []

def Creator.flush (c : Creator) : Except Fault Creator := do
  let bytes ← flushed c.prevId c.rleDiff c.rleCount
  return { c with dest := c.dest ++ bytes, rleDiff := 0, rleCount := 0 }

def Creator.put (c : Creator) (value : Nat) : Except Fault Creator := do
  let myDiff ← narrowCheckInt32 (value - c.prevId)
  if myDiff = c.rleDiff then
    return { c with rleCount := u32 (c.rleCount + 1), prevId := value }
  else do
    let c ← c.flush
    return { c with rleCount := 1, rleDiff := myDiff, prevId := value }

def Creator.checkpoint (c : Creator) (value : Nat) : Except Fault Creator := do
  let c ← c.flush
  return { c with dest := c.dest ++ putVlPackedUint64 (value <<< 2 ||| 0x2), prevId := value }

def Creator.putAll (c : Creator) : List Nat → Except Fault Creator
  | [] => .ok c
  | value :: values => do
    let c ← c.put value
    c.putAll values

/-! ## `RLEStream` -/

end RLEStream

/-- `d` is what is behind the get pointer. -/
structure RLEStream where
  d : Bytes
  curRleCount : Nat
  curRleDiff : Int
  curId : Nat
  deriving Repr, DecidableEq

namespace RLEStream

/-- `getVlPackedUint64` with the end of the data caught. -/
def nextWord (d : Bytes) : Except Fault (Nat × Bytes) :=
  match consumeVlPackedUint64 d with
  | .error .outOfBounds => .ok (0, d)
  | result => result

def advanceRle (s : RLEStream) : RLEStream :=
  { s with
    curRleCount := sub32 s.curRleCount 1
    curId :=
      if s.curRleDiff < 0 then sub32 s.curId (-s.curRleDiff).toNat
      else u32 (s.curId + s.curRleDiff.toNat) }

def next (s : RLEStream) : Except Fault RLEStream :=
  if s.curRleCount = 0 then do
    let (curWord, d) ← nextWord s.d
    let tmp := curWord &&& 0x3
    let curWord := curWord >>> 2
    if tmp = 0x0 then return { s with d, curId := u32 (s.curId + curWord) }
    else if tmp = 0x1 then return { s with d, curId := sub32 s.curId (u32 curWord) }
    else if tmp = 0x2 then return { s with d, curId := u32 curWord }
    else do
      let (curRleDiff, d) ← consumeVlPackedInt32 d
      return advanceRle { s with d, curRleCount := u32 curWord, curRleDiff }
  else .ok (advanceRle s)

def new (data : Bytes) : Except Fault RLEStream := next ⟨data, 0, 0, 0⟩

end RLEStream

end Sserialize

/-!
## What an `RLEStream` reads

A stream yields the values that were put into its creator if every difference fits an `int32_t` and
no difference repeats so often that its count does not fit the word.
-/

namespace Sserialize.RLEStream

/-- The differences that the creator computes, for values behind `prev`. -/
def differences : Nat → List Nat → List Int
  | _, [] => []
  | prev, value :: values => ((value : Int) - prev) :: differences value values

theorem getLastD_append (prev : Nat) (l m : List Nat) :
    (l ++ m).getLastD prev = m.getLastD (l.getLastD prev) := by
  induction l generalizing prev with
  | nil => rfl
  | cons value l ih => rw [List.cons_append, List.getLastD_cons, ih, List.getLastD_cons]

theorem differences_append (prev : Nat) (l m : List Nat) :
    differences prev (l ++ m) = differences prev l ++ differences (l.getLastD prev) m := by
  induction l generalizing prev with
  | nil => rfl
  | cons value l ih =>
    rw [List.cons_append, differences, ih, differences, List.cons_append, List.getLastD_cons]

/-- `2 ^ 30` is the first count that the word of a run cannot hold. -/
structure Encodable (values : List Nat) : Prop where
  lt : ∀ value ∈ values, value < 2 ^ 32
  fits : ∀ d ∈ differences 0 values, -2 ^ 31 < d ∧ d < 2 ^ 31
  runs : ∀ d, ¬ List.replicate (2 ^ 30) d <:+: differences 0 values

theorem Encodable.front {values rest : List Nat} (h : Encodable (values ++ rest)) :
    Encodable values := by
  have hdiff := differences_append 0 values rest
  refine ⟨fun value hvalue => h.lt value (List.mem_append_left _ hvalue), fun d hd => ?_, ?_⟩
  · apply h.fits
    rw [hdiff]
    exact List.mem_append_left _ hd
  · intro d hrun
    apply h.runs d
    rw [hdiff]
    exact hrun.trans (List.prefix_append _ _).isInfix

theorem length_differences (prev : Nat) (values : List Nat) :
    (differences prev values).length = values.length := by
  induction values generalizing prev with
  | nil => rfl
  | cons value values ih => rw [differences, List.length_cons, ih, List.length_cons]

theorem differences_fit {prev : Nat} {values : List Nat} (hprev : prev < 2 ^ 31)
    (hvalues : ∀ value ∈ values, value < 2 ^ 31) :
    ∀ d ∈ differences prev values, -2 ^ 31 < d ∧ d < 2 ^ 31 := by
  induction values generalizing prev with
  | nil => exact nofun
  | cons value values ih =>
    have hvalue := hvalues value List.mem_cons_self
    intro d hd
    rcases List.mem_cons.mp hd with rfl | hd
    · omega
    · exact ih hvalue (fun x hx => hvalues x (List.mem_cons_of_mem _ hx)) d hd

theorem encodable_of_lt {values : List Nat} (hvalues : ∀ value ∈ values, value < 2 ^ 31)
    (hlen : values.length < 2 ^ 30) : Encodable values where
  lt := fun value hvalue => Nat.lt_trans (hvalues value hvalue) (by decide)
  fits := differences_fit (by decide) hvalues
  runs := by
    intro d hrun
    have hle := hrun.length_le
    rw [List.length_replicate, length_differences] at hle
    omega

/-! ## Reading -/

def Reads : RLEStream → List Nat → RLEStream → Prop
  | s, [], s' => s = s'
  | s, value :: values, s' => ∃ t, next s = .ok t ∧ t.curId = value ∧ Reads t values s'

theorem Reads.append {s t u : RLEStream} {xs ys : List Nat} (hxs : Reads s xs t)
    (hys : Reads t ys u) : Reads s (xs ++ ys) u := by
  induction xs generalizing s with
  | nil =>
    cases hxs
    exact hys
  | cons x xs ih =>
    obtain ⟨s', hnext, hid, hrest⟩ := hxs
    exact ⟨s', hnext, hid, ih hrest⟩

/-- The bytes yield the values behind `prev`, and nothing behind them is read. -/
def Decodes (bytes : Bytes) (prev : Nat) (values : List Nat) : Prop :=
  ∀ rest d, ∃ d', Reads ⟨bytes ++ rest, 0, d, prev⟩ values ⟨rest, 0, d', values.getLastD prev⟩

theorem decodes_nil (prev : Nat) : Decodes [] prev [] := fun _ d => ⟨d, rfl⟩

theorem Decodes.append {bytes bytes' : Bytes} {prev : Nat} {xs ys : List Nat}
    (hxs : Decodes bytes prev xs) (hys : Decodes bytes' (xs.getLastD prev) ys) :
    Decodes (bytes ++ bytes') prev (xs ++ ys) := by
  intro rest d
  obtain ⟨d', hread⟩ := hxs (bytes' ++ rest) d
  obtain ⟨d'', hread'⟩ := hys rest d'
  refine ⟨d'', ?_⟩
  rw [List.append_assoc, getLastD_append]
  exact hread.append hread'

/-! ## The words -/

theorem word_low (n : Nat) {k : Nat} (hk : k < 4) : (n <<< 2 ||| k) &&& 0x3 = k := by
  rw [← Nat.shiftLeft_add_eq_or_of_lt (i := 2) hk, Nat.shiftLeft_eq,
    Nat.and_two_pow_sub_one_eq_mod _ 2]
  omega

theorem word_high (n : Nat) {k : Nat} (hk : k < 4) : (n <<< 2 ||| k) >>> 2 = n := by
  rw [← Nat.shiftLeft_add_eq_or_of_lt (i := 2) hk, Nat.shiftLeft_eq, Nat.shiftRight_eq_div_pow]
  omega

theorem word_lt {n k : Nat} (hn : n < 2 ^ 32) (hk : k < 4) : n <<< 2 ||| k < 2 ^ 64 := by
  rw [← Nat.shiftLeft_add_eq_or_of_lt (i := 2) hk, Nat.shiftLeft_eq]
  omega

theorem nextWord_append {word : Nat} (hword : word < 2 ^ 64) (rest : Bytes) :
    nextWord (putVlPackedUint64 word ++ rest) = .ok (word, rest) := by
  rw [nextWord, consumeVlPackedUint64_append hword]

theorem decodes_word {n k prev value : Nat} (hn : n < 2 ^ 32) (hk : k < 3)
    (hvalue : value =
      if k = 0 then u32 (prev + n) else if k = 1 then sub32 prev (u32 n) else u32 n) :
    Decodes (putVlPackedUint64 (n <<< 2 ||| k)) prev [value] := by
  intro rest d
  have hword := nextWord_append (word_lt hn (show k < 4 by omega)) rest
  refine ⟨d, ⟨rest, 0, d, value⟩, ?_, rfl, rfl⟩
  rw [next, if_pos rfl]
  simp only [hword, ok_bind, word_low n (show k < 4 by omega), word_high n (show k < 4 by omega)]
  rw [hvalue]
  by_cases hzero : k = 0
  · rw [if_pos hzero, if_pos hzero]
    rfl
  · rw [if_neg hzero, if_neg hzero]
    by_cases hone : k = 1
    · rw [if_pos hone, if_pos hone]
      rfl
    · rw [if_neg hone, if_neg hone, if_pos (show k = 2 by omega)]
      rfl

/-! ## Runs -/

theorem advanceRle_eq {rest : Bytes} {n prev value : Nat} {d : Int} (hn : n + 1 < 2 ^ 32)
    (hprev : prev < 2 ^ 32) (hvalue : value < 2 ^ 32) (hd : (value : Int) - prev = d) :
    advanceRle ⟨rest, n + 1, d, prev⟩ = ⟨rest, n, d, value⟩ := by
  have hcount : sub32 (n + 1) 1 = n := sub32_of_le (Nat.succ_le_succ (Nat.zero_le n)) hn
  have hid : (if d < 0 then sub32 prev (-d).toNat else u32 (prev + d.toNat)) = value := by
    by_cases hneg : d < 0
    · rw [if_pos hneg, sub32_of_le (by omega) hprev]
      omega
    · rw [if_neg hneg, u32_of_lt (by omega)]
      omega
  unfold advanceRle
  simp only [hcount, hid]

theorem reads_run (rest : Bytes) {d : Int} {n prev : Nat} {values : List Nat} (hn : n < 2 ^ 32)
    (hprev : prev < 2 ^ 32) (hvalues : ∀ value ∈ values, value < 2 ^ 32)
    (hdiff : differences prev values = List.replicate n d) :
    Reads ⟨rest, n, d, prev⟩ values ⟨rest, 0, d, values.getLastD prev⟩ := by
  induction values generalizing n prev with
  | nil =>
    have hzero : n = 0 := by simpa [differences] using hdiff.symm
    rw [hzero]
    rfl
  | cons value values ih =>
    cases n with
    | zero => cases hdiff
    | succ n =>
      obtain ⟨hhead, htail⟩ := List.cons_eq_cons.mp (hdiff.trans List.replicate_succ)
      have hvalue := hvalues value List.mem_cons_self
      refine ⟨⟨rest, n, d, value⟩, ?_, rfl, ?_⟩
      · rw [next, if_neg (Nat.succ_ne_zero n), advanceRle_eq hn hprev hvalue hhead]
      · rw [List.getLastD_cons]
        exact ih (by omega) hvalue (fun x hx => hvalues x (List.mem_cons_of_mem _ hx)) htail

theorem next_run {n prev : Nat} {d d' : Int} (hpos : 0 < n) (hn : n < 2 ^ 30)
    (hlow : -2 ^ 31 < d) (hhigh : d < 2 ^ 31) (rest : Bytes) :
    next ⟨putVlPackedUint64 (u32 (n <<< 2) ||| 0x3) ++ putVlPackedInt32 d ++ rest, 0, d', prev⟩ =
      next ⟨rest, n, d, prev⟩ := by
  have hshift : u32 (n <<< 2) = n <<< 2 := by
    rw [Nat.shiftLeft_eq]
    exact u32_of_lt (by omega)
  have hthree : (3 : Nat) < 4 := by decide
  have hword := nextWord_append (word_lt (show n < 2 ^ 32 by omega) hthree)
    (putVlPackedInt32 d ++ rest)
  rw [hshift, next, if_pos rfl, next, if_neg (Nat.pos_iff_ne_zero.mp hpos)]
  simp only [List.append_assoc, hword, ok_bind, word_low n hthree, word_high n hthree,
    consumeVlPackedInt32_append hlow hhigh, u32_of_lt (show n < 2 ^ 32 by omega)]
  rfl

/-! ## What is flushed -/

theorem decodes_flushed {prev n : Nat} {d : Int} {values : List Nat} (hn : n < 2 ^ 30)
    (hprev : prev < 2 ^ 32) (hvalues : ∀ value ∈ values, value < 2 ^ 32)
    (hdiff : differences prev values = List.replicate n d)
    (hd : n ≠ 0 → -2 ^ 31 < d ∧ d < 2 ^ 31) :
    ∃ bytes, flushed (values.getLastD prev) d n = .ok bytes ∧ Decodes bytes prev values := by
  rcases Nat.lt_trichotomy n 1 with hzero | rfl | hmore
  · obtain rfl : n = 0 := by omega
    obtain rfl : values = [] := by
      cases values with
      | nil => rfl
      | cons value values => cases hdiff
    exact ⟨[], rfl, decodes_nil prev⟩
  · obtain ⟨hlow, hhigh⟩ := hd Nat.one_ne_zero
    obtain ⟨value, rfl⟩ : ∃ value, values = [value] := by
      match values, hdiff with
      | [value], _ => exact ⟨value, rfl⟩
    have hvalue := hvalues value List.mem_cons_self
    have hone : (value : Int) - prev = d := (List.cons_eq_cons.mp hdiff).1
    have habs : absInt32 d = .ok d.natAbs := if_neg (by omega)
    change ∃ bytes, flushed value d 1 = .ok bytes ∧ _
    rw [flushed, if_pos rfl, habs, ok_bind]
    by_cases hsmall : d.natAbs < value
    · rw [if_pos hsmall]
      by_cases hneg : d < 0
      · rw [if_pos hneg]
        refine ⟨_, rfl, decodes_word (by omega) (by decide) ?_⟩
        rw [if_neg Nat.one_ne_zero, if_pos rfl, u32_of_lt (by omega), sub32_of_le (by omega) hprev]
        omega
      · rw [if_neg hneg]
        refine ⟨_, rfl, decodes_word (by omega) (by decide) ?_⟩
        rw [if_pos rfl, u32_of_lt (by omega)]
        omega
    · rw [if_neg hsmall]
      refine ⟨_, rfl, decodes_word hvalue (by decide) ?_⟩
      exact (u32_of_lt hvalue).symm
  · obtain ⟨hlow, hhigh⟩ := hd (by omega)
    rw [flushed, if_neg (by omega), if_pos hmore]
    refine ⟨_, rfl, fun rest d' => ⟨d, ?_⟩⟩
    have hrun := reads_run rest (by omega) hprev hvalues hdiff
    cases values with
    | nil =>
      have hnone : 0 = n := by simpa [differences] using congrArg List.length hdiff
      omega
    | cons value values =>
      obtain ⟨t, hnext, hid, hread⟩ := hrun
      exact ⟨t, (next_run (by omega) hn hlow hhigh rest).trans hnext, hid, hread⟩

/-! ## The creator -/

/-- The values of `done` are in the stream, those of `pending` are the run. -/
structure Creator.Holds (c : Creator) (done pending : List Nat) : Prop where
  decodes : Decodes c.dest 0 done
  run : differences (done.getLastD 0) pending = List.replicate c.rleCount c.rleDiff
  prevId : c.prevId = pending.getLastD (done.getLastD 0)

theorem Creator.new_holds : Creator.new.Holds [] [] := ⟨decodes_nil 0, rfl, rfl⟩

theorem Creator.new_put_error {value : Nat} (h : 2 ^ 31 ≤ value) :
    Creator.new.put value = .error .typeOverflow := by
  have hnarrow : narrowCheckInt32 ((value : Int) - (0 : Nat)) = .error .typeOverflow :=
    if_pos (Or.inr (by omega))
  change (narrowCheckInt32 ((value : Int) - (0 : Nat)) >>= _) = _
  rw [hnarrow]
  rfl

theorem Encodable.pending {done pending : List Nat} {n : Nat} {d : Int}
    (h : Encodable (done ++ pending))
    (hrun : differences (done.getLastD 0) pending = List.replicate n d) :
    n < 2 ^ 30 ∧ (n ≠ 0 → -2 ^ 31 < d ∧ d < 2 ^ 31) := by
  have hdiff := differences_append 0 done pending
  rw [hrun] at hdiff
  constructor
  · by_contra hmany
    apply h.runs d
    rw [hdiff]
    refine ⟨differences 0 done, List.replicate (n - 2 ^ 30) d, ?_⟩
    rw [List.append_assoc, ← List.replicate_add, Nat.add_sub_cancel' (not_lt.mp hmany)]
  · intro hne
    apply h.fits
    rw [hdiff]
    exact List.mem_append_right _ (List.mem_replicate.mpr ⟨hne, rfl⟩)

/-- What the run needs to be written: its count fits the word, and its difference has an absolute
value. -/
structure Creator.Writable (c : Creator) (values : List Nat) : Prop where
  lt : ∀ value ∈ values, value < 2 ^ 32
  count : c.rleCount < 2 ^ 30
  diff : c.rleCount ≠ 0 → -2 ^ 31 < c.rleDiff ∧ c.rleDiff < 2 ^ 31

theorem Creator.Holds.writable {c : Creator} {done pending : List Nat} (h : c.Holds done pending)
    (henc : Encodable (done ++ pending)) : c.Writable (done ++ pending) :=
  ⟨henc.lt, (henc.pending h.run).1, (henc.pending h.run).2⟩

theorem Creator.Holds.flush {c : Creator} {done pending : List Nat} (h : c.Holds done pending)
    (hw : c.Writable (done ++ pending)) :
    ∃ c', c.flush = .ok c' ∧ c'.rleCount = 0 ∧ c'.prevId = c.prevId ∧
      c'.Holds (done ++ pending) [] := by
  have hlast : done.getLastD 0 < 2 ^ 32 :=
    List.forall_mem_cons.mpr ⟨by decide, fun x hx => hw.lt x (List.mem_append_left _ hx)⟩ _
      List.getLastD_mem_cons
  obtain ⟨bytes, hbytes, hdecodes⟩ := decodes_flushed hw.count hlast
    (fun x hx => hw.lt x (List.mem_append_right _ hx)) h.run hw.diff
  refine ⟨{ c with dest := c.dest ++ bytes, rleDiff := 0, rleCount := 0 }, ?_, rfl, rfl,
    h.decodes.append hdecodes, rfl, ?_⟩
  · rw [Creator.flush, h.prevId, hbytes]
    rfl
  · rw [getLastD_append]
    exact h.prevId

theorem Creator.Holds.put {c : Creator} {done pending : List Nat} {value : Nat}
    (h : c.Holds done pending) (hw : c.Writable (done ++ pending))
    (hlow : -2 ^ 31 < (value : Int) - c.prevId) (hhigh : (value : Int) - c.prevId < 2 ^ 31) :
    ∃ c', c.put value = .ok c' ∧ c'.rleDiff = (value : Int) - c.prevId ∧
      (c'.Holds done (pending ++ [value]) ∨ c'.Holds (done ++ pending) [value]) := by
  have hnarrow : narrowCheckInt32 ((value : Int) - c.prevId) = .ok ((value : Int) - c.prevId) :=
    if_neg (by omega)
  have hlast : (done ++ pending).getLastD 0 = c.prevId := by rw [getLastD_append, h.prevId]
  rw [Creator.put, hnarrow, ok_bind]
  by_cases hsame : (value : Int) - c.prevId = c.rleDiff
  · have hrun : differences (done.getLastD 0) (pending ++ [value]) =
        List.replicate (c.rleCount + 1) c.rleDiff := by
      rw [differences_append, h.run, ← h.prevId, List.replicate_succ', differences, hsame]
      rfl
    have hcount : u32 (c.rleCount + 1) = c.rleCount + 1 :=
      u32_of_lt (Nat.lt_of_lt_of_le (Nat.succ_lt_succ hw.count) (by decide))
    rw [if_pos hsame, hcount]
    refine ⟨_, rfl, hsame.symm, .inl ⟨h.decodes, hrun, ?_⟩⟩
    rw [getLastD_append]
    rfl
  · obtain ⟨c', hflush, -, -, hholds⟩ := h.flush hw
    rw [if_neg hsame, hflush, ok_bind]
    refine ⟨_, rfl, rfl, .inr ⟨hholds.decodes, ?_, rfl⟩⟩
    rw [hlast]
    rfl

theorem Creator.Holds.putAll {c : Creator} {done pending values : List Nat}
    (h : c.Holds done pending) (henc : Encodable (done ++ pending ++ values)) :
    ∃ c' done' pending', c.putAll values = .ok c' ∧ c'.Holds done' pending' ∧
      done' ++ pending' = done ++ pending ++ values := by
  induction values generalizing c done pending with
  | nil => exact ⟨c, done, pending, rfl, h, (List.append_nil _).symm⟩
  | cons value values ih =>
    have hcons : done ++ pending ++ value :: values = done ++ pending ++ [value] ++ values := by
      simp
    have hlast : (done ++ pending).getLastD 0 = c.prevId := by rw [getLastD_append, h.prevId]
    have hfits : -2 ^ 31 < (value : Int) - c.prevId ∧ (value : Int) - c.prevId < 2 ^ 31 := by
      apply henc.fits
      rw [differences_append, hlast]
      exact List.mem_append_right _ List.mem_cons_self
    obtain ⟨c', hput, -, hholds⟩ := h.put (h.writable henc.front) hfits.1 hfits.2
    rw [Creator.putAll, hput, ok_bind]
    rw [hcons] at henc ⊢
    rcases hholds with hholds | hholds
    · rw [List.append_assoc done] at henc ⊢
      exact ih hholds henc
    · exact ih hholds henc

theorem decodes_putAll {values : List Nat} (henc : Encodable values) :
    ∃ c c', Creator.new.putAll values = .ok c ∧ c.flush = .ok c' ∧ c'.rleCount = 0 ∧
      Decodes c'.dest 0 values := by
  obtain ⟨c, done, pending, hputAll, hholds, heq⟩ := Creator.new_holds.putAll henc
  obtain rfl : done ++ pending = values := heq
  obtain ⟨c', hflush, hcount, -, hflushed⟩ := hholds.flush (hholds.writable henc)
  exact ⟨c, c', hputAll, hflush, hcount, hflushed.decodes⟩

theorem Creator.flush_of_zero {c : Creator} (h : c.rleCount = 0) :
    ∃ c', c.flush = .ok c' ∧ c'.dest = c.dest := by
  refine ⟨{ c with dest := c.dest ++ [], rleDiff := 0, rleCount := 0 }, ?_, List.append_nil _⟩
  rw [Creator.flush, flushed, h]
  rfl

theorem next_end (d : Int) (id : Nat) : next ⟨[], 0, d, id⟩ = .ok ⟨[], 0, d, u32 id⟩ := rfl

end Sserialize.RLEStream
