import Sserialize.Library.Splice
import Sserialize.Storage.UByteArrayAdapterRegion

/-!
# `UByteArrayAdapter::fill`

On contiguous storage the range is set at once. Elsewhere a buffer is written again and again until
the end of the adapter is reached, whatever the length was.
-/

namespace Sserialize.UByteArrayAdapter.Region

open Splice

def put (a : Region) (pos : Nat) (data : Bytes) : Region :=
  { a with
    storage := splice a.storage pos data
    fits := a.fits.trans (length_le_length_splice a.storage pos data) }

/-- An adapter of all bytes of its storage. -/
def whole (data : Bytes) : Region := ⟨data, 0, data.length, 0, 0, by simp⟩

def rangeCheck (a : Region) (pos length : Nat) : Except Fault Unit :=
  if a.len < pos + length then .error .outOfBounds else .ok ()

def putData (a : Region) (pos : Nat) (data : Bytes) : Except Fault Region :=
  if data.length = 0 then .ok a
  else do
    a.rangeCheck pos data.length
    return a.put (a.offSet + pos) data

/-- The loop over `i` for storage that is not contiguous, with a bound for its rounds. -/
def fillLoop (value : UInt8) (bufLen : Nat) : Nat → Nat → Region → Option (Except Fault Region)
  | 0, _, _ => none
  | fuel + 1, i, a =>
    if i < a.len then
      match a.putData i (List.replicate (min (a.len - i) bufLen) value) with
      | .error e => some (.error e)
      | .ok a => fillLoop value bufLen fuel (i + bufLen) a
    else some (.ok a)

/-- `operator[]` checks the first position before `memset` gets its address. -/
def fill (contiguous : Bool) (fuel : Nat) (value : UInt8) (begin length : Nat) (a : Region) :
    Option (Except Fault Region) :=
  if begin > a.len then some (.ok a)
  else if contiguous then
    some do
      a.rangeCheck begin 1
      return a.put (a.offSet + begin) (List.replicate (min length (a.len - begin)) value)
  else
    let bufLen := min length (4 * 1024 * 1024)
    fillLoop value bufLen fuel begin a

/-! ## What the property asks for -/

/-- The bytes in `[begin, begin + length)` have the value, all others are those of before. -/
structure FilledTo (a : Region) (value : UInt8) (begin length : Nat) (r : Region) : Prop where
  storage : ∀ i, r.storage[i]? =
    if a.offSet + begin ≤ i ∧ i < a.offSet + begin + length then some value else a.storage[i]?
  offSet : r.offSet = a.offSet
  len : r.len = a.len
  getPtr : r.getPtr = a.getPtr
  putPtr : r.putPtr = a.putPtr

def FillsExactly (a : Region) (contiguous : Bool) (value : UInt8) (begin length : Nat) : Prop :=
  ∃ fuel r, a.fill contiguous fuel value begin length = some (.ok r) ∧
    a.FilledTo value begin length r

/-- On contiguous storage the range has to start in front of the end. Elsewhere the bytes behind the
range have the value already, and an empty range starts at the end. -/
def FillsWhen (a : Region) (contiguous : Bool) (value : UInt8) (begin length : Nat) : Prop :=
  if contiguous then begin < a.len
  else begin = a.len ∨
    0 < length ∧ ∀ i, begin + length ≤ i → i < a.len → a.bytes[i]? = some value

/-! ## The bytes that are written -/

variable {a : Region} {value : UInt8} {begin length : Nat}

@[simp] theorem put_len (a : Region) (pos : Nat) (data : Bytes) : (a.put pos data).len = a.len := rfl

@[simp] theorem put_offSet (a : Region) (pos : Nat) (data : Bytes) :
    (a.put pos data).offSet = a.offSet := rfl

@[simp] theorem put_nil (a : Region) (pos : Nat) : a.put pos [] = a := by
  apply ext <;> simp [put]

theorem put_put (a : Region) {pos : Nat} (hpos : pos ≤ a.len) (data data' : Bytes) :
    (a.put (a.offSet + pos) data).put (a.offSet + (pos + data.length)) data' =
      a.put (a.offSet + pos) (data ++ data') := by
  have hfits := a.fits
  apply ext
  · rw [← Nat.add_assoc]
    exact splice_splice (by omega) data'
  all_goals rfl

theorem putData_of_le {pos : Nat} {data : Bytes} (h : pos + data.length ≤ a.len) :
    a.putData pos data = .ok (a.put (a.offSet + pos) data) := by
  rw [putData]
  split
  next hempty =>
    rw [List.eq_nil_of_length_eq_zero hempty, put_nil]
  next =>
    rw [rangeCheck, if_neg (by omega)]
    rfl

theorem filledTo_put_iff (h : begin + length ≤ a.len) (n : Nat) (hn : begin + n ≤ a.len)
    (hle : length ≤ n) :
    a.FilledTo value begin length (a.put (a.offSet + begin) (List.replicate n value)) ↔
      ∀ i, begin + length ≤ i → i < begin + n → a.bytes[i]? = some value := by
  have hfits := a.fits
  have hget : ∀ i, (splice a.storage (a.offSet + begin) (List.replicate n value))[i]? =
      if a.offSet + begin ≤ i ∧ i < a.offSet + begin + n then some value else a.storage[i]? := by
    intro i
    rw [getElem?_splice (by omega), List.length_replicate]
    split
    next hin => rw [List.getElem?_replicate, if_pos (by omega)]
    next => rfl
  have hbytes : ∀ i, i < a.len → a.bytes[i]? = a.storage[a.offSet + i]? := by
    intro i hi
    rw [bytes, List.getElem?_take_of_lt hi, List.getElem?_drop]
  constructor
  · intro hfilled i hi hin
    have hstorage := hfilled.storage (a.offSet + i)
    rw [if_neg (by omega)] at hstorage
    rw [hbytes i (by omega), ← hstorage]
    exact (hget _).trans (if_pos (by omega))
  · intro hvalue
    refine ⟨?_, rfl, rfl, rfl, rfl⟩
    intro i
    refine (hget i).trans ?_
    by_cases hin : a.offSet + begin ≤ i ∧ i < a.offSet + begin + n
    · rw [if_pos hin]
      split
      next => rfl
      next hout =>
        have hi := hvalue (i - a.offSet) (by omega) (by omega)
        rw [hbytes _ (by omega), Nat.add_sub_of_le (by omega)] at hi
        exact hi.symm
    · rw [if_neg hin, if_neg (by omega)]

/-! ## The loop -/

theorem fillLoop_succ (bufLen fuel i : Nat) (a : Region) :
    fillLoop value bufLen (fuel + 1) i a =
      if i < a.len then
        match a.putData i (List.replicate (min (a.len - i) bufLen) value) with
        | .error e => some (.error e)
        | .ok a => fillLoop value bufLen fuel (i + bufLen) a
      else some (.ok a) := rfl

theorem fillLoop_step {i : Nat} (hi : i < a.len) (bufLen fuel : Nat) :
    fillLoop value bufLen (fuel + 1) i a =
      fillLoop value bufLen fuel (i + bufLen)
        (a.put (a.offSet + i) (List.replicate (min (a.len - i) bufLen) value)) := by
  rw [fillLoop_succ, if_pos hi, putData_of_le (by rw [List.length_replicate]; omega)]

theorem fillLoop_end {i : Nat} (hi : a.len ≤ i) (bufLen fuel : Nat) :
    fillLoop value bufLen (fuel + 1) i a = some (.ok a) := by
  rw [fillLoop_succ, if_neg (by omega)]

theorem fillLoop_zero {i : Nat} (hi : i < a.len) (fuel : Nat) :
    fillLoop value 0 fuel i a = none := by
  induction fuel with
  | zero => rfl
  | succ fuel ih =>
    rw [fillLoop_step hi, Nat.min_zero, List.replicate_zero, put_nil]
    exact ih

theorem put_replicate_round {bufLen i : Nat} (hmore : i + bufLen ≤ a.len) :
    (a.put (a.offSet + i) (List.replicate bufLen value)).put (a.offSet + (i + bufLen))
        (List.replicate (a.len - (i + bufLen)) value) =
      a.put (a.offSet + i) (List.replicate (a.len - i) value) := by
  have hi : i ≤ a.len := by omega
  have hput := put_put a hi (List.replicate bufLen value)
    (List.replicate (a.len - (i + bufLen)) value)
  have hrest : bufLen + (a.len - (i + bufLen)) = a.len - i := by omega
  rw [List.length_replicate, List.replicate_append_replicate, hrest] at hput
  exact hput

theorem fillLoop_eq_some {bufLen fuel i : Nat} {r : Except Fault Region} (hi : i ≤ a.len)
    (hr : fillLoop value bufLen fuel i a = some r) :
    r = .ok (a.put (a.offSet + i) (List.replicate (a.len - i) value)) := by
  induction fuel generalizing i a with
  | zero => cases hr
  | succ fuel ih =>
    rcases Nat.lt_or_ge i a.len with hlt | hge
    · rw [fillLoop_step hlt] at hr
      rcases Nat.le_total (i + bufLen) a.len with hmore | hlast
      · rw [Nat.min_eq_right (by omega)] at hr
        have hrest := ih (by rw [put_len]; exact hmore) hr
        rwa [put_len, put_offSet, put_replicate_round hmore] at hrest
      · rw [Nat.min_eq_left (by omega)] at hr
        cases fuel with
        | zero => cases hr
        | succ fuel =>
          rw [fillLoop_end (by rw [put_len]; exact hlast)] at hr
          exact (Option.some.inj hr).symm
    · rw [fillLoop_end hge] at hr
      rw [Nat.sub_eq_zero_of_le hge, List.replicate_zero, put_nil]
      exact (Option.some.inj hr).symm

theorem exists_fillLoop_eq_some {bufLen : Nat} (hbufLen : 0 < bufLen) {fuel i : Nat}
    (hfuel : a.len - i < fuel) : ∃ r, fillLoop value bufLen fuel i a = some r := by
  induction fuel generalizing i a with
  | zero => omega
  | succ fuel ih =>
    rcases Nat.lt_or_ge i a.len with hlt | hge
    · rw [fillLoop_step hlt]
      exact ih (by rw [put_len]; omega)
    · exact ⟨_, fillLoop_end hge bufLen fuel⟩

/-! ## `fill` -/

theorem fill_contiguous (hbegin : begin ≤ a.len) (fuel : Nat) :
    a.fill true fuel value begin length =
      if begin < a.len then
        some (.ok (a.put (a.offSet + begin) (List.replicate (min length (a.len - begin)) value)))
      else some (.error .outOfBounds) := by
  rw [fill, if_neg (by omega), if_pos rfl, rangeCheck]
  split
  next hend => rw [if_neg (by omega), error_bind]
  next hin =>
    rw [if_pos (by omega)]
    rfl

theorem fill_buffered (hbegin : begin ≤ a.len) (fuel : Nat) :
    a.fill false fuel value begin length =
      fillLoop value (min length (4 * 1024 * 1024)) fuel begin a := by
  rw [fill, if_neg (by omega), if_neg Bool.false_ne_true]

theorem fillsExactly_contiguous_iff (h : begin + length ≤ a.len) :
    a.FillsExactly true value begin length ↔ begin < a.len := by
  constructor
  · rintro ⟨fuel, r, hr, -⟩
    rw [fill_contiguous (by omega)] at hr
    by_contra hend
    rw [if_neg hend] at hr
    cases hr
  · intro hbegin
    refine ⟨0, _, (fill_contiguous hbegin.le 0).trans (if_pos hbegin), ?_⟩
    rw [Nat.min_eq_left (by omega), filledTo_put_iff h length h (Nat.le_refl _)]
    intro i hi hlt
    omega

theorem fillsExactly_buffered_end (hbegin : begin = a.len) :
    a.FillsExactly false value begin 0 := by
  refine ⟨1, a, ?_, ?_⟩
  · rw [fill_buffered hbegin.le]
    exact fillLoop_end hbegin.ge _ 0
  · have hfilled : a.FilledTo value begin 0 (a.put (a.offSet + begin) (List.replicate 0 value)) :=
      (filledTo_put_iff hbegin.le 0 hbegin.le (Nat.le_refl _)).mpr (by omega)
    rwa [List.replicate_zero, put_nil] at hfilled

theorem fillsExactly_buffered_iff (h : begin + length ≤ a.len) (hbegin : begin < a.len) :
    a.FillsExactly false value begin length ↔
      0 < length ∧ ∀ i, begin + length ≤ i → i < a.len → a.bytes[i]? = some value := by
  have hend : begin + (a.len - begin) = a.len := by omega
  constructor
  · rintro ⟨fuel, r, hr, hfilled⟩
    rw [fill_buffered hbegin.le] at hr
    have hpos : 0 < length := by
      rcases Nat.eq_zero_or_pos length with rfl | hpos
      · rw [Nat.zero_min, fillLoop_zero hbegin] at hr
        cases hr
      · exact hpos
    cases fillLoop_eq_some hbegin.le hr
    rw [filledTo_put_iff h _ hend.le (by omega), hend] at hfilled
    exact ⟨hpos, hfilled⟩
  · rintro ⟨hpos, hvalue⟩
    have hbufLen : 0 < min length (4 * 1024 * 1024) := by omega
    obtain ⟨r, hr⟩ : ∃ r, fillLoop value (min length (4 * 1024 * 1024)) (a.len - begin + 1) begin a =
        some r := exists_fillLoop_eq_some hbufLen (Nat.lt_succ_self _)
    have hresult := fillLoop_eq_some hbegin.le hr
    refine ⟨_, _, (fill_buffered hbegin.le _).trans (hr.trans (congrArg some hresult)), ?_⟩
    rwa [filledTo_put_iff h _ hend.le (by omega), hend]

/-- For a range inside the adapter. -/
theorem fillsExactly_iff (a : Region) (contiguous : Bool) (value : UInt8) (begin length : Nat)
    (h : begin + length ≤ a.len) :
    a.FillsExactly contiguous value begin length ↔ a.FillsWhen contiguous value begin length := by
  cases contiguous with
  | true =>
    rw [fillsExactly_contiguous_iff h, FillsWhen, if_pos rfl]
  | false =>
    rw [FillsWhen, if_neg Bool.false_ne_true]
    rcases Nat.lt_or_ge begin a.len with hbegin | hend
    · rw [fillsExactly_buffered_iff h hbegin, or_iff_right (Nat.ne_of_lt hbegin)]
    · have hlength : length = 0 := by omega
      have hbegin : begin = a.len := by omega
      rw [hlength]
      exact iff_of_true (fillsExactly_buffered_end hbegin) (.inl hbegin)

/-- Two bytes in the middle of five, with other bytes behind them. -/
theorem fillsExactly_middle :
    2 + 2 ≤ 5 ∧ (FillsExactly ⟨[1, 2, 3, 4, 5], 0, 5, 0, 0, by decide⟩ true 9 2 2 ↔
      FillsWhen ⟨[1, 2, 3, 4, 5], 0, 5, 0, 0, by decide⟩ true 9 2 2) :=
  ⟨by decide, fillsExactly_iff ⟨[1, 2, 3, 4, 5], 0, 5, 0, 0, by decide⟩ true 9 2 2 (by decide)⟩

/-- One byte in front of another one. -/
theorem not_fillsExactly : ¬ ∀ (a : Region) (contiguous : Bool) (value : UInt8)
    (begin length : Nat), begin + length ≤ a.len →
      a.FillsExactly contiguous value begin length := by
  intro h
  have hfills := h ⟨[1, 2], 0, 2, 0, 0, by decide⟩ false 9 0 1 (by decide)
  rw [fillsExactly_buffered_iff (by decide) (by decide)] at hfills
  have hbyte := hfills.2 1 (by decide) (by decide)
  revert hbyte
  decide

end Sserialize.UByteArrayAdapter.Region
