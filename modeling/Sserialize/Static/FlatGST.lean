import Sserialize.ItemIndex.ItemIndexFactory
import Sserialize.ItemIndex.ItemIndex
import Sserialize.Storage.FixedWidth

/-!
# `FlatGST`

A sorted table of strings that is searched by bisection. The comparison with a 16 bit prefix length
hands a variable without a value to the comparison that begins at a given position.
-/

namespace Sserialize

def calcLcp : Bytes → Bytes → Nat
  | a :: strA, b :: strB => if a ≠ b then 0 else calcLcp strA strB + 1
  | _, _ => 0

/-- The loop of `compare`, from the position `lcp` on: the result, and the position at its end. -/
def compareLoop (strA strB : Bytes) : Nat → Nat → Int × Nat
  | 0, lcp =>
    (if strA.length < strB.length then -1 else if strA.length = strB.length then 0 else 1, lcp)
  | rounds + 1, lcp =>
    if strA.getD lcp 0 < strB.getD lcp 0 then (-1, lcp)
    else if strA.getD lcp 0 > strB.getD lcp 0 then (1, lcp)
    else compareLoop strA strB rounds (lcp + 1)

def compare (strA strB : Bytes) (lcp : Nat) : Int × Nat :=
  compareLoop strA strB (min strA.length strB.length - lcp) lcp

/-- The value of a variable that was not given one. -/
def uninitialized : Except Fault Nat := .error .undefinedBehaviour

/-- `compare` with an `lcp` of 16 bits, which is only written to. -/
def compare16 (strA strB : Bytes) (_lcp : Nat) : Except Fault (Int × Nat) := do
  let tmpLcp ← uninitialized
  let (ret, tmpLcp) := compare strA strB tmpLcp
  if tmpLcp < 2 ^ 16 then return (ret, tmpLcp) else .error .typeOverflow

namespace FlatGST

structure StringEntry where
  strId : Nat
  strBegin : UInt16
  strLen : UInt16

structure IndexEntry where
  mergeIndex : Bool
  exactPtr : Nat
  prefixPtr : Nat
  suffixPtr : Nat
  suffixPrefixPtr : Nat

end FlatGST

structure FlatGST where
  stable : List Bytes
  strEntries : List FlatGST.StringEntry
  indexEntries : List FlatGST.IndexEntry
  idxStore : ItemIndexStore

namespace FlatGST

def qtExact : Nat := 1

def qtPrefix : Nat := 2

def qtSuffix : Nat := 4

def qtSubstring : Nat := 8

def qtCaseInsensitive : Nat := 16

def has (qt flag : Nat) : Bool := qt &&& flag ≠ 0

variable (gst : FlatGST)

def fgstStringAt (pos : Nat) : Except Fault Bytes := do
  let e ← MMVector.at gst.strEntries pos
  let strData ← MMVector.at gst.stable e.strId
  return UByteArrayAdapter.part strData e.strBegin.toNat e.strLen.toNat

/-- What the search knows: the bounds, the last middle, the common prefixes and the last result. -/
structure Search where
  left : Nat
  right : Nat
  mid : Nat
  lLcp : Nat
  rLcp : Nat
  mLcp : Nat
  cmp : Int

/-- The loop of `lowerBound`, whose interval shrinks in each round. -/
def lowerBoundLoop (str : Bytes) : Nat → Search → Except Fault Search
  | 0, s => .ok s
  | rounds + 1, s =>
    if s.right - s.left > 1 then do
      let mid := (s.right - s.left) / 2 + s.left
      let strMid ← gst.fgstStringAt mid
      let (cmp, mLcp) ← compare16 strMid str s.mLcp
      if cmp = -1 then
        lowerBoundLoop str rounds { s with
          left := mid, mid := mid, cmp := cmp, lLcp := mLcp, mLcp := min mLcp s.rLcp }
      else if cmp = 1 then
        lowerBoundLoop str rounds { s with
          right := mid, mid := mid, cmp := cmp, rLcp := mLcp, mLcp := min s.lLcp mLcp }
      else return { s with mid := mid, cmp := cmp, mLcp := mLcp }
    else .ok s

/-- The element next to the last middle, if it has the whole string in front. -/
def lowerBoundSide (str : Bytes) (s : Search) : Except Fault Search :=
  if s.cmp = 0 then .ok s
  else
    let side := if s.lLcp = str.length then some (s.left, s.lLcp)
      else if s.rLcp = str.length then some (s.right, s.rLcp) else none
    match side with
    | none => .ok s
    | some (mid, lcp) => do
      let strMid ← gst.fgstStringAt mid
      let (_, mLcp) ← compare16 strMid str lcp
      return { s with mid := mid, mLcp := mLcp }

def lowerBound (str : Bytes) (qt : Nat) : Except Fault Int :=
  if gst.strEntries.length = 0 then .ok (-1)
  else do
    let left := 0
    let right := gst.strEntries.length - 1
    let mid := (right - left) / 2 + left
    let strLeft ← gst.fgstStringAt left
    let lLcp := calcLcp strLeft str % 2 ^ 16
    if lLcp = str.length then return 0
    else
      let strRight ← gst.fgstStringAt right
      let rLcp := calcLcp strRight str % 2 ^ 16
      let strMid ← gst.fgstStringAt mid
      let (cmp, mLcp) ← compare16 strMid str 0
      let s ← gst.lowerBoundLoop str right ⟨left, right, mid, lLcp, rLcp, mLcp, cmp⟩
      let s ← gst.lowerBoundSide str s
      let strMid ← gst.fgstStringAt s.mid
      if s.mLcp = str.length ∧
          (has qt qtPrefix ∨ has qt qtSubstring ∨ strMid.length = str.length) then
        if s.mid < 2 ^ 31 then return s.mid else .error .typeOverflow
      else return -1

variable (unicodeToLower : Bytes → Bytes)

def searched (str : Bytes) (qtype : Nat) : Bytes :=
  if has qtype qtCaseInsensitive then unicodeToLower str else str

def getStringEntryPos (str : Bytes) (qtype : Nat) : Except Fault Int :=
  gst.lowerBound (searched unicodeToLower str qtype) qtype

def indexFromEntry (e : IndexEntry) (qtype : Nat) : ItemIndex :=
  let indexFromId := gst.idxStore.at
  let unite := ItemIndex.apply .unite
  if has qtype qtExact then indexFromId e.exactPtr
  else if has qtype qtSuffix then
    if e.mergeIndex then unite (indexFromId e.exactPtr) (indexFromId e.suffixPtr)
    else indexFromId e.suffixPtr
  else if has qtype qtPrefix then
    if e.mergeIndex then unite (indexFromId e.exactPtr) (indexFromId e.prefixPtr)
    else indexFromId e.prefixPtr
  else if has qtype qtSubstring then
    if e.mergeIndex then
      unite (unite (indexFromId e.exactPtr) (indexFromId e.suffixPtr))
        (unite (indexFromId e.prefixPtr) (indexFromId e.suffixPrefixPtr))
    else indexFromId e.suffixPrefixPtr
  else ItemIndex.empty

def indexFromPosition (pos qtype : Nat) : Except Fault ItemIndex :=
  if pos < gst.strEntries.length then do
    let e ← MMVector.at gst.indexEntries pos
    return gst.indexFromEntry e qtype
  else .ok ItemIndex.empty

def complete (str : Bytes) (qtype : Nat) : Except Fault ItemIndex := do
  let pos ← gst.getStringEntryPos unicodeToLower str qtype
  if pos > 0 then gst.indexFromPosition pos.toNat qtype
  else return ItemIndex.empty

/-! ## What is asked for -/

/-- The position of the string, or else of the first string that it begins. -/
def position (strs : List Bytes) (str : Bytes) (qt : Nat) : Option Nat :=
  match strs.findIdx? (· = str) with
  | some pos => some pos
  | none =>
    if has qt qtPrefix ∨ has qt qtSubstring then strs.findIdx? (str.isPrefixOf ·) else none

/-- The entries are sorted and distinct. -/
structure Holds (strs : List Bytes) : Prop where
  size : gst.strEntries.length = strs.length
  strings : ∀ i, ∀ h : i < strs.length, gst.fgstStringAt i = .ok strs[i]
  sorted : strs.Pairwise (· < ·)

def found : Option Nat → Int
  | some pos => pos
  | none => -1

def storedAt (qt : Nat) : Option Nat → Except Fault ItemIndex
  | some pos => gst.indexFromPosition pos qt
  | none => .ok ItemIndex.empty

/-- `lowerBound` finds the position, and `complete` the index that is stored there. -/
structure Right (strs : List Bytes) (str : Bytes) (qt : Nat) : Prop where
  lowerBound : gst.lowerBound str qt = .ok (found (position strs str qt))
  complete : gst.complete unicodeToLower str qt =
    gst.storedAt qt (position strs (searched unicodeToLower str qt) qt)

def Answers (first str : Bytes) (qt : Nat) : Prop :=
  str <+: first ∧ (first = str ∨ has qt qtPrefix ∨ has qt qtSubstring)

/-! ## When the query is answered -/

theorem calcLcp_le (strA strB : Bytes) : calcLcp strA strB ≤ strA.length := by
  fun_induction calcLcp strA strB with
  | case1 | case3 => exact Nat.zero_le _
  | case2 _ strA _ strB _ ih => exact Nat.succ_le_succ ih

theorem calcLcp_eq_length_iff (strA strB : Bytes) :
    calcLcp strA strB = strB.length ↔ strB <+: strA := by
  fun_induction calcLcp strA strB with
  | case1 a strA b strB hne => simp [List.cons_prefix_cons, Ne.symm hne]
  | case2 a strA b strB heq ih =>
    rw [List.length_cons, Nat.add_right_cancel_iff, ih, List.cons_prefix_cons, not_not.mp heq]
    simp
  | case3 strA strB hnot =>
    cases strB with
    | nil => simp
    | cons b strB =>
      cases strA with
      | nil => simp
      | cons a strA => exact absurd rfl (hnot a strA b strB rfl)

variable {gst} {unicodeToLower} {strs rest : List Bytes} {first str : Bytes} {qt : Nat}

theorem length_fgstStringAt_lt {pos : Nat} (h : gst.fgstStringAt pos = .ok str) :
    str.length < 2 ^ 16 := by
  obtain ⟨e, -, h⟩ := bind_eq_ok h
  obtain ⟨strData, -, h⟩ := bind_eq_ok h
  obtain rfl := Except.ok.inj h
  have hlen := e.strLen.toNat_lt
  rw [UByteArrayAdapter.part, List.length_take]
  omega

theorem lowerBound_nil (h : gst.Holds []) : gst.lowerBound str qt = .ok (-1) := by
  rw [lowerBound, h.size]
  rfl

theorem lowerBound_cons (h : gst.Holds (first :: rest)) :
    gst.lowerBound str qt = if str <+: first then .ok 0 else .error .undefinedBehaviour := by
  have hsize : gst.strEntries.length = rest.length + 1 := h.size
  have hfirst : gst.fgstStringAt 0 = .ok first := h.strings 0 (Nat.succ_pos _)
  have hlcp : calcLcp first str % 2 ^ 16 = calcLcp first str :=
    Nat.mod_eq_of_lt ((calcLcp_le first str).trans_lt (length_fgstStringAt_lt hfirst))
  have hright : rest.length < (first :: rest).length := Nat.lt_succ_self _
  have hmid : (rest.length - 0) / 2 + 0 < (first :: rest).length := by
    rw [List.length_cons]
    omega
  rw [lowerBound, hsize, if_neg (Nat.succ_ne_zero _), Nat.add_sub_cancel]
  dsimp only
  rw [hfirst, ok_bind, hlcp, h.strings _ hright, h.strings _ hmid]
  by_cases hpre : str <+: first
  · rw [if_pos hpre, if_pos ((calcLcp_eq_length_iff first str).mpr hpre)]
    rfl
  · rw [if_neg hpre, if_neg (mt (calcLcp_eq_length_iff first str).mp hpre)]
    rfl

theorem position_cons (hsorted : (first :: rest).Pairwise (· < ·)) (hpre : str <+: first) :
    position (first :: rest) str qt =
      if first = str ∨ has qt qtPrefix ∨ has qt qtSubstring then some 0 else none := by
  rw [position, List.findIdx?_cons]
  by_cases hfirst : first = str
  · simp [hfirst]
  · have hnone : rest.findIdx? (· = str) = none := by
      rw [List.findIdx?_eq_none_iff]
      intro y hy
      have hlt : first < y := List.rel_of_pairwise_cons hsorted hy
      apply decide_eq_false
      rintro rfl
      exact hpre.le hlt
    simp [hfirst, hnone, List.findIdx?_cons, hpre]

theorem lowerBound_cons_iff (h : gst.Holds (first :: rest)) :
    gst.lowerBound str qt = .ok (found (position (first :: rest) str qt)) ↔
      Answers first str qt := by
  rw [lowerBound_cons h]
  by_cases hpre : str <+: first
  · rw [if_pos hpre, position_cons h.sorted hpre]
    by_cases hanswer : first = str ∨ has qt qtPrefix ∨ has qt qtSubstring
    · rw [if_pos hanswer]
      exact ⟨fun _ => ⟨hpre, hanswer⟩, fun _ => rfl⟩
    · rw [if_neg hanswer]
      refine ⟨fun heq => ?_, fun hright => absurd hright.2 hanswer⟩
      cases Except.ok.inj heq
  · rw [if_neg hpre]
    refine ⟨fun heq => ?_, fun hright => absurd hright.1 hpre⟩
    cases heq

theorem storedAt_ne_undefined (gst : FlatGST) (qt : Nat) (pos : Option Nat) :
    gst.storedAt qt pos ≠ .error .undefinedBehaviour := by
  cases pos with
  | none => simp [storedAt]
  | some pos =>
    rw [storedAt, indexFromPosition, MMVector.at]
    split
    · split <;> simp
    · simp

theorem complete_cons_iff (h : gst.Holds (first :: rest)) :
    gst.complete unicodeToLower str qt =
        gst.storedAt qt (position (first :: rest) (searched unicodeToLower str qt) qt) ↔
      searched unicodeToLower str qt <+: first ∧
        (Answers first (searched unicodeToLower str qt) qt →
          gst.indexFromPosition 0 qt = .ok ItemIndex.empty) := by
  rw [complete, getStringEntryPos, lowerBound_cons h]
  generalize searched unicodeToLower str qt = lower
  by_cases hpre : lower <+: first
  · rw [if_pos hpre, ok_bind, if_neg (by decide), position_cons h.sorted hpre]
    by_cases hanswer : first = lower ∨ has qt qtPrefix ∨ has qt qtSubstring
    · rw [if_pos hanswer]
      exact ⟨fun heq => ⟨hpre, fun _ => heq.symm⟩, fun hright => (hright.2 ⟨hpre, hanswer⟩).symm⟩
    · rw [if_neg hanswer]
      exact ⟨fun _ => ⟨hpre, fun hright => absurd hright.2 hanswer⟩, fun _ => rfl⟩
  · rw [if_neg hpre, error_bind]
    exact ⟨fun heq => absurd heq.symm (storedAt_ne_undefined _ _ _),
      fun hright => absurd hright.1 hpre⟩

/-- A query is answered if there are no entries, or if the first one answers it and no index is
stored there: any other query compares with a variable without a value. -/
theorem flatGST_right_iff (gst : FlatGST) (unicodeToLower : Bytes → Bytes) (strs : List Bytes)
    (h : gst.Holds strs) (str : Bytes) (qt : Nat) :
    gst.Right unicodeToLower strs str qt ↔
      strs = [] ∨ ∃ first rest, strs = first :: rest ∧ Answers first str qt ∧
        searched unicodeToLower str qt <+: first ∧
        (Answers first (searched unicodeToLower str qt) qt →
          gst.indexFromPosition 0 qt = .ok ItemIndex.empty) := by
  cases strs with
  | nil =>
    have hnone : ∀ str', position [] str' qt = none := fun str' => by simp [position]
    refine ⟨fun _ => .inl rfl, fun _ => ⟨?_, ?_⟩⟩
    · rw [hnone]
      exact lowerBound_nil h
    · rw [complete, getStringEntryPos, lowerBound_nil h, ok_bind, if_neg (by decide), hnone]
      rfl
  | cons first rest =>
    constructor
    · intro hright
      exact .inr ⟨first, rest, rfl, (lowerBound_cons_iff h).mp hright.lowerBound,
        (complete_cons_iff h).mp hright.complete⟩
    · rintro (hnil | ⟨first', rest', hcons, hanswer, hcomplete⟩)
      · cases hnil
      · cases hcons
        exact ⟨(lowerBound_cons_iff h).mpr hanswer, (complete_cons_iff h).mpr hcomplete⟩

def twoEntries : FlatGST where
  stable := [[97, 98]]
  strEntries := [⟨0, 0, 1⟩, ⟨0, 1, 1⟩]
  indexEntries := [⟨false, 0, 0, 0, 0⟩, ⟨false, 0, 0, 0, 0⟩]
  idxStore := ⟨[ItemIndex.empty]⟩

theorem holds_twoEntries : twoEntries.Holds [[97], [98]] where
  size := rfl
  strings := by decide
  sorted := by decide

theorem flatGST_right_iff_twoEntries :
    twoEntries.Right id [[97], [98]] [97] qtPrefix ↔
      [[97], [98]] = ([] : List Bytes) ∨ ∃ first rest, [[97], [98]] = first :: rest ∧
        Answers first [97] qtPrefix ∧ searched id [97] qtPrefix <+: first ∧
        (Answers first (searched id [97] qtPrefix) qtPrefix →
          twoEntries.indexFromPosition 0 qtPrefix = .ok ItemIndex.empty) :=
  flatGST_right_iff twoEntries id [[97], [98]] holds_twoEntries [97] qtPrefix

/-- The second entry is not found by its own string. -/
theorem not_right_twoEntries :
    twoEntries.Holds [[97], [98]] ∧ ¬ twoEntries.Right id [[97], [98]] [98] qtExact := by
  refine ⟨holds_twoEntries, fun hright => ?_⟩
  have hpre := ((lowerBound_cons_iff holds_twoEntries).mp hright.lowerBound).1
  revert hpre
  decide

end FlatGST

end Sserialize
