import Sserialize.Containers.CompactUintArray
import Sserialize.Library.SignedBisection

/-!
# The binary searches

`ItemIndexPrivate::find` and `CompactUintArray::findSorted` halve the range with signed positions.
They read through `at`, which may fault behind the end of the values, so that a search that gives a
result has read nothing there.
-/

namespace Sserialize

open SignedBisection

/-- A signed position as a `uint32_t` and as a `uint64_t`. -/
def castU32 (n : Int) : Nat := (n % 2 ^ 32).toNat

def castU64 (n : Int) : Nat := (n % 2 ^ 64).toNat

/-- A `uint64_t` as an `int64_t`. -/
def castI64 (n : Nat) : Int := if n < 2 ^ 63 then n else n - 2 ^ 64

theorem castU32_natCast {n : Nat} (h : n < 2 ^ 32) : castU32 n = n := by
  rw [castU32]
  omega

theorem castU64_natCast {n : Nat} (h : n < 2 ^ 64) : castU64 n = n := by
  rw [castU64]
  omega

theorem castI64_of_lt {n : Nat} (h : n < 2 ^ 63) : castI64 n = n := if_pos h

namespace ItemIndexPrivate

def npos : Nat := 2 ^ 32 - 1

/-- The loop and the comparison behind it. `mid` is computed from the bounds in front of the loop
and at the end of each round. -/
def findLoop (at' : Nat → Except Fault Nat) (id : Nat) (left right : Int) : Except Fault Nat :=
  let mid := (right - left).tdiv 2 + left
  if left < right then do
    let curId ← at' (castU32 mid)
    if curId = id then return castU32 mid
    else if curId < id then findLoop at' id (mid + 1) right
    else findLoop at' id left (mid - 1)
  else do
    let curId ← at' (castU32 mid)
    return if curId = id then castU32 mid else npos
termination_by (right - left).toNat
decreasing_by
  · have hmid : left ≤ middle left right := left_le_middle (by omega)
    rw [middle] at hmid
    omega
  · have hmid : middle left right < right := middle_lt_right (by omega)
    rw [middle] at hmid
    omega

def find (len : Nat) (at' : Nat → Except Fault Nat) (id : Nat) : Except Fault Nat :=
  if len = 0 then .ok npos else findLoop at' id 0 (len - 1 : Nat)

end ItemIndexPrivate

namespace CompactUintArray

def npos : Nat := 2 ^ 64 - 1

def findSortedLoop (at' : Nat → Except Fault Nat) (key : Nat) (left right : Int) (tk : Nat) :
    Except Fault Nat :=
  let mid := (right - left).tdiv 2 + left
  if left < right then
    if tk = key then .ok (castU64 mid)
    else if tk < key then do
      let tk ← at' (castU64 ((right - (mid + 1)).tdiv 2 + (mid + 1)))
      findSortedLoop at' key (mid + 1) right tk
    else do
      let tk ← at' (castU64 ((mid - 1 - left).tdiv 2 + left))
      findSortedLoop at' key left (mid - 1) tk
  else .ok (if tk = key then castU64 mid else npos)
termination_by (right - left).toNat
decreasing_by
  · have hmid : left ≤ middle left right := left_le_middle (by omega)
    rw [middle] at hmid
    omega
  · have hmid : middle left right < right := middle_lt_right (by omega)
    rw [middle] at hmid
    omega

def findSorted (at' : Nat → Except Fault Nat) (key len : Nat) : Except Fault Nat :=
  if len = 0 then .ok npos
  else do
    let left : Int := 0
    let right := castI64 (len - 1)
    let mid := (right - left).tdiv 2 + left
    let tk ← at' (castU64 mid)
    findSortedLoop at' key left right tk

end CompactUintArray

/-- `at` gives the values at the positions in front of the end. -/
def Serves (at' : Nat → Except Fault Nat) (values : List Nat) : Prop :=
  ∀ pos (h : pos < values.length), at' pos = .ok values[pos]

variable {at' : Nat → Except Fault Nat} {values : List Nat} {key : Nat} {left right : Int}

theorem Serves.at_middle (hserves : Serves at' values) {m : Nat} (hm : m < values.length)
    {pos : Nat} (hpos : pos = m) : at' pos = .ok values[m] := by
  rw [hpos]
  exact hserves m hm

/-! ## `ItemIndexPrivate::find` -/

namespace ItemIndexPrivate

theorem findLoop_eq {curId : Nat} (hread : at' (castU32 (middle left right)) = .ok curId) :
    findLoop at' key left right =
      if left < right then
        if curId = key then .ok (castU32 (middle left right))
        else if curId < key then findLoop at' key (middle left right + 1) right
        else findLoop at' key left (middle left right - 1)
      else .ok (if curId = key then castU32 (middle left right) else npos) := by
  rw [findLoop]
  rw [middle] at hread ⊢
  split
  · rw [hread, ok_bind]
    rfl
  · rw [hread, ok_bind]
    rfl

theorem findLoop_found (hserves : Serves at' values) (hsorted : values.Pairwise (· ≤ ·))
    (hlength : values.length < 2 ^ 32) (hwindow : Window values key left right) :
    ∃ r, findLoop at' key left right = .ok r ∧ Found values key npos r := by
  induction hwidth : (right - left).toNat using Nat.strong_induction_on generalizing left right with
  | _ width ih =>
    obtain ⟨m, hm, hmiddle⟩ := hwindow.exists_middle
    have hpos : castU32 (middle left right) = m := by
      rw [hmiddle, castU32_natCast (by omega)]
    rw [findLoop_eq (hserves.at_middle hm hpos), hpos]
    by_cases hlr : left < right
    · have hleft := left_le_middle hwindow.left_le
      have hright := middle_lt_right hlr
      rw [if_pos hlr]
      rcases Nat.lt_trichotomy values[m] key with hlt | heq | hgt
      · rw [if_neg (Nat.ne_of_lt hlt), if_pos hlt, hmiddle]
        exact ih _ (by omega) (hwindow.toRight hsorted hlr hm hmiddle hlt) rfl
      · rw [if_pos heq]
        exact ⟨m, rfl, .inl ⟨hm, heq⟩⟩
      · rw [if_neg (Nat.ne_of_gt hgt), if_neg (Nat.lt_asymm hgt), hmiddle]
        exact ih _ (by omega) (hwindow.toLeft hsorted hm hmiddle hgt) rfl
    · rw [if_neg hlr]
      refine ⟨_, rfl, ?_⟩
      by_cases heq : values[m] = key
      · rw [if_pos heq]
        exact .inl ⟨hm, heq⟩
      · rw [if_neg heq]
        exact .inr ⟨hwindow.not_mem hlr hm hmiddle heq, rfl⟩

theorem find_found (hserves : Serves at' values) (hsorted : values.Pairwise (· ≤ ·))
    (hlength : values.length < 2 ^ 32) :
    ∃ r, find values.length at' key = .ok r ∧ Found values key npos r := by
  rw [find]
  by_cases hempty : values.length = 0
  · rw [if_pos hempty, List.eq_nil_of_length_eq_zero hempty]
    exact ⟨npos, rfl, .inr ⟨List.not_mem_nil, rfl⟩⟩
  · have hlast : ((values.length - 1 : Nat) : Int) = values.length - 1 := by omega
    rw [if_neg hempty, hlast]
    exact findLoop_found hserves hsorted hlength (Window.whole (Nat.pos_of_ne_zero hempty))

end ItemIndexPrivate

/-! ## `CompactUintArray::findSorted` -/

namespace CompactUintArray

theorem findSortedLoop_eq (tk : Nat) :
    findSortedLoop at' key left right tk =
      if left < right then
        if tk = key then .ok (castU64 (middle left right))
        else if tk < key then do
          let tk ← at' (castU64 (middle (middle left right + 1) right))
          findSortedLoop at' key (middle left right + 1) right tk
        else do
          let tk ← at' (castU64 (middle left (middle left right - 1)))
          findSortedLoop at' key left (middle left right - 1) tk
      else .ok (if tk = key then castU64 (middle left right) else npos) := by
  rw [findSortedLoop]
  rfl

theorem exists_at_middle (hserves : Serves at' values) (hlength : values.length ≤ 2 ^ 63)
    (hwindow : Window values key left right) :
    ∃ (m : Nat) (hm : m < values.length), middle left right = m ∧
      castU64 (middle left right) = m ∧ at' (castU64 (middle left right)) = .ok values[m] := by
  obtain ⟨m, hm, hmiddle⟩ := hwindow.exists_middle
  have hpos : castU64 (middle left right) = m := by
    rw [hmiddle, castU64_natCast (by omega)]
  exact ⟨m, hm, hmiddle, hpos, hserves.at_middle hm hpos⟩

theorem findSortedLoop_found (hserves : Serves at' values) (hsorted : values.Pairwise (· ≤ ·))
    (hlength : values.length ≤ 2 ^ 63) (hwindow : Window values key left right) {tk : Nat}
    (htk : at' (castU64 (middle left right)) = .ok tk) :
    ∃ r, findSortedLoop at' key left right tk = .ok r ∧ Found values key npos r := by
  induction hwidth : (right - left).toNat using Nat.strong_induction_on
    generalizing left right tk with
  | _ width ih =>
    obtain ⟨m, hm, hmiddle, hpos, hread⟩ := exists_at_middle hserves hlength hwindow
    obtain rfl : values[m] = tk := Except.ok.inj (hread.symm.trans htk)
    rw [findSortedLoop_eq, hpos]
    by_cases hlr : left < right
    · have hleft := left_le_middle hwindow.left_le
      have hright := middle_lt_right hlr
      rw [if_pos hlr]
      rcases Nat.lt_trichotomy values[m] key with hlt | heq | hgt
      · rw [if_neg (Nat.ne_of_lt hlt), if_pos hlt, hmiddle]
        have hnext := hwindow.toRight hsorted hlr hm hmiddle hlt
        obtain ⟨m', hm', -, -, hread'⟩ := exists_at_middle hserves hlength hnext
        rw [hread', ok_bind]
        exact ih _ (by omega) hnext hread' rfl
      · rw [if_pos heq]
        exact ⟨m, rfl, .inl ⟨hm, heq⟩⟩
      · rw [if_neg (Nat.ne_of_gt hgt), if_neg (Nat.lt_asymm hgt), hmiddle]
        have hnext := hwindow.toLeft hsorted hm hmiddle hgt
        obtain ⟨m', hm', -, -, hread'⟩ := exists_at_middle hserves hlength hnext
        rw [hread', ok_bind]
        exact ih _ (by omega) hnext hread' rfl
    · rw [if_neg hlr]
      refine ⟨_, rfl, ?_⟩
      by_cases heq : values[m] = key
      · rw [if_pos heq]
        exact .inl ⟨hm, heq⟩
      · rw [if_neg heq]
        exact .inr ⟨hwindow.not_mem hlr hm hmiddle heq, rfl⟩

theorem findSorted_found (hserves : Serves at' values) (hsorted : values.Pairwise (· ≤ ·))
    (hlength : values.length ≤ 2 ^ 63) :
    ∃ r, findSorted at' key values.length = .ok r ∧ Found values key npos r := by
  rw [findSorted]
  by_cases hempty : values.length = 0
  · rw [if_pos hempty, List.eq_nil_of_length_eq_zero hempty]
    exact ⟨npos, rfl, .inr ⟨List.not_mem_nil, rfl⟩⟩
  · have hright : castI64 (values.length - 1) = values.length - 1 := by
      rw [castI64_of_lt (by omega)]
      omega
    have hwindow : Window values key 0 (values.length - 1) :=
      Window.whole (Nat.pos_of_ne_zero hempty)
    obtain ⟨m, hm, -, -, hread⟩ := exists_at_middle hserves hlength hwindow
    rw [middle] at hread
    rw [if_neg hempty]
    dsimp only
    rw [hright, hread, ok_bind]
    exact findSortedLoop_found hserves hsorted hlength hwindow hread

theorem findSorted_of_gt {len : Nat} (hlen : 2 ^ 63 < len) (hlt : len < 2 ^ 64) {e : Fault}
    (hend : ∀ pos, len ≤ pos → at' pos = .error e) : findSorted at' key len = .error e := by
  have hright : castI64 (len - 1) - 0 = -((2 ^ 64 - (len - 1) : Nat) : Int) := by
    rw [castI64, if_neg (by omega)]
    omega
  have hmid : (castI64 (len - 1) - 0).tdiv 2 = -((2 ^ 64 - (len - 1)) / 2 : Nat) := by
    rw [hright, Int.neg_tdiv]
    rfl
  have hpos : len ≤ castU64 (-((2 ^ 64 - (len - 1)) / 2 : Nat)) := by
    rw [castU64]
    omega
  rw [findSorted, if_neg (by omega)]
  dsimp only
  rw [hmid, Int.add_zero, hend _ hpos, error_bind]

theorem privAt_replicate_zero {n pos : Nat} (hpos : pos < 8 * n) :
    privAt (List.replicate n 0) 1 pos = .ok 0 := by
  have hend : pos * 1 + 1 ≤ 8 * (List.replicate n (0 : UInt8)).length := by
    rw [List.length_replicate]
    omega
  obtain ⟨v, hv, hlt, hbit⟩ := privAt_spec Nat.one_pos (by decide) hend
  have hzero : v.testBit 0 = false := by
    rw [hbit 0 Nat.one_pos]
    exact (BitString.bit_append_zeros [] n _).trans (BitString.bit_nil _)
  obtain rfl : v = 0 := by
    rw [Nat.testBit_zero, decide_eq_false_iff_not] at hzero
    omega
  exact hv

theorem privAt_of_le {data : Bytes} {pos : Nat} (hpos : 8 * data.length ≤ pos) :
    privAt data 1 pos = .error .outOfBounds := by
  have hbyte : byteAt data (pos * 1 / 8) = .error .outOfBounds := if_neg (by omega)
  rw [privAt, if_neg (by decide), varBitsAt, hbyte, error_bind]

end CompactUintArray

/-- Both searches, for an index or an array whose `at` gives the values. -/
theorem find_findSorted (at' : Nat → Except Fault Nat) (values : List Nat)
    (hserves : Serves at' values) (key : Nat) :
    (values.Pairwise (· < ·) → values.length < 2 ^ 32 →
      ItemIndexPrivate.find values.length at' key =
        .ok (if key ∈ values then values.idxOf key else ItemIndexPrivate.npos)) ∧
    (values.Pairwise (· ≤ ·) → values.length ≤ 2 ^ 63 →
      ∃ r, CompactUintArray.findSorted at' key values.length = .ok r ∧
        Found values key CompactUintArray.npos r) := by
  constructor
  · intro hsorted hlength
    obtain ⟨r, hr, hfound⟩ :=
      ItemIndexPrivate.find_found hserves (hsorted.imp Nat.le_of_lt) hlength
    rw [hr, hfound.eq_idxOf (hsorted.imp Nat.ne_of_lt)]
  · intro hsorted hlength
    exact CompactUintArray.findSorted_found hserves hsorted hlength

theorem serves_three : Serves (CompactUintArray.privAt [2, 3, 5] 8) [2, 3, 5]
  | 0, _ => rfl
  | 1, _ => rfl
  | 2, _ => rfl

/-- The bytes of an array of three entries. -/
theorem find_findSorted_three :
    Serves (CompactUintArray.privAt [2, 3, 5] 8) [2, 3, 5] ∧
      ItemIndexPrivate.find 3 (CompactUintArray.privAt [2, 3, 5] 8) 5 = .ok 2 ∧
      ∃ r, CompactUintArray.findSorted (CompactUintArray.privAt [2, 3, 5] 8) 5 3 = .ok r ∧
        Found [2, 3, 5] 5 CompactUintArray.npos r :=
  have h := find_findSorted (CompactUintArray.privAt [2, 3, 5] 8) [2, 3, 5] serves_three 5
  ⟨serves_three, h.1 (by decide) (by decide), h.2 (by decide) (by decide)⟩

/-- An array of 2 ^ 63 + 8 zeros of one bit. -/
theorem not_findSorted : ¬ ∀ (at' : Nat → Except Fault Nat) (values : List Nat) (key : Nat),
    Serves at' values → values.Pairwise (· ≤ ·) → values.length < 2 ^ 64 →
      ∃ r, CompactUintArray.findSorted at' key values.length = .ok r ∧
        Found values key CompactUintArray.npos r := by
  intro h
  have hlength : (List.replicate (2 ^ 63 + 8) 0).length = 2 ^ 63 + 8 := List.length_replicate
  have hbytes : (List.replicate (2 ^ 60 + 1) (0 : UInt8)).length = 2 ^ 60 + 1 :=
    List.length_replicate
  obtain ⟨r, hr, -⟩ := h (CompactUintArray.privAt (List.replicate (2 ^ 60 + 1) 0) 1)
    (List.replicate (2 ^ 63 + 8) 0) 0 (by
      intro pos hpos
      rw [hlength] at hpos
      rw [List.getElem_replicate]
      exact CompactUintArray.privAt_replicate_zero (by omega))
    (List.pairwise_replicate.mpr (.inr (Nat.le_refl 0))) (by rw [hlength]; decide)
  rw [hlength, CompactUintArray.findSorted_of_gt (by decide) (by decide) (fun pos hpos =>
    CompactUintArray.privAt_of_le (by rw [hbytes]; omega))] at hr
  cases hr

end Sserialize
