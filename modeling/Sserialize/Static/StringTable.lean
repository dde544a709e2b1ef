import Sserialize.Static.MapSet
import Sserialize.Strings.Utf8

/-!
# `SortedStringTable`

`find` compares the bytes of the strings. `range` compares their code points and throws on a string
that does not decode. The orders are the same for valid strings.
-/

namespace Sserialize

open SignedBisection

/-! ## Strings -/

def octets (str : Bytes) : List Nat := str.map UInt8.toNat

namespace Utf8

def peekNext (bytes : Bytes) : Except Fault Nat := do
  let (cp, _) ← next bytes
  return cp

def Valid (bytes : Bytes) : Prop := ∃ s, bytes = encode s

end Utf8

/-- The loop of `unicodeIsSmaller` over strings, whose lengths are compared at the end. -/
def unicodeIsSmallerStringLoop (aLength bLength : Nat) : Nat → Bytes → Bytes → Except Fault Bool
  | 0, _, _ => .ok (aLength < bLength)
  | rounds + 1, ait, bit =>
    if ait ≠ [] ∧ bit ≠ [] then do
      let acode ← Utf8.peekNext ait
      let bcode ← Utf8.peekNext bit
      if acode < bcode then .ok true
      else if bcode < acode then .ok false
      else do
        let (_, ait) ← Utf8.next ait
        let (_, bit) ← Utf8.next bit
        unicodeIsSmallerStringLoop aLength bLength rounds ait bit
    else .ok (aLength < bLength)

def unicodeIsSmallerString (a b : Bytes) : Except Fault Bool :=
  unicodeIsSmallerStringLoop a.length b.length a.length a b

def isPrefix (pre str : Bytes) : Bool :=
  if pre.length > str.length then false
  else (List.range pre.length).all fun i => pre[i]? = str[i]?

/-- `UByteArrayAdapter::getString(0)`. The sum of both lengths wraps around. -/
def getString (data : Bytes) : Except Fault Bytes :=
  if data.length < 1 then .error .outOfBounds
  else do
    let (strLen, len) ← upV 32 (data.take 5)
    if len < 0 then .error .outOfBounds
    else if u32 (len.toNat + strLen) > data.length then .error .outOfBounds
    else if len.toNat + strLen > data.length then .error .undefinedBehaviour
    else return (data.drop len.toNat).take strLen

def stringType : ValueType Bytes where
  fixedLength := none
  minLength := 0
  isIntegral := false
  serializationSupport := true
  serialize str := pVu32 str.length ++ str
  deserialize := getString
  get := getString

/-! ## The table -/

structure SortedStringTable where
  data : StaticArray
  deriving Repr, DecidableEq

namespace SortedStringTable

def npos : Nat := 2 ^ 64 - 1

variable (t : SortedStringTable)

def load (data : Bytes) : Except Fault SortedStringTable := do
  let array ← StaticArray.load stringType data
  return ⟨array⟩

def size : Nat := t.data.size

def «at» (pos : Nat) : Except Fault Bytes := t.data.at stringType pos

def compareWrapper (a b : Bytes) : Int :=
  if a = b then 0 else if octets a < octets b then -1 else 1

def binarySearchKeyInArray (key : Bytes) : Except Fault Nat :=
  if t.size = 0 then .ok npos
  else do
    let mid ← bisect (fun mid => t.at (castU64 mid)) (fun str => compareWrapper str key) 0
      (castI64 (t.size - 1))
    return (mid.map castU64).getD npos

def find (value : Bytes) : Except Fault Nat := do
  let tmp ← t.binarySearchKeyInArray value
  return if tmp < npos then tmp else npos

def boundLoop (passed : Nat → Except Fault Bool) (bound count : Nat) : Except Fault Nat :=
  if 0 < count then do
    let pass ← passed (bound + count / 2)
    if pass then boundLoop passed (bound + count / 2 + 1) (count - (count / 2 + 1))
    else boundLoop passed bound (count / 2)
  else .ok bound
termination_by count

def range (pre : Bytes) : Except Fault (Nat × Nat) := do
  let lb ← boundLoop (fun pos => do
    let str ← t.at pos
    unicodeIsSmallerString str pre) 0 t.size
  let ub ← boundLoop (fun pos => do
    let midstr ← t.at pos
    let smaller ← unicodeIsSmallerString midstr pre
    return smaller || isPrefix pre midstr) lb (t.size - lb)
  return (lb, ub)

structure Holds (strings : List Bytes) : Prop where
  size : t.size = strings.length
  reads : Provides t.at strings

/-- The strings are in the order of `std::string`. -/
def Sorted (strings : List Bytes) : Prop := (strings.map octets).Pairwise (· ≤ ·)

end SortedStringTable

/-! ## The order of the strings -/

theorem octets_injective : Function.Injective octets :=
  List.map_injective_iff.mpr fun _ _ h => UInt8.toNat_inj.mp h

theorem isPrefix_iff {pre str : Bytes} : isPrefix pre str = true ↔ pre <+: str := by
  rw [isPrefix, List.prefix_iff_getElem?]
  by_cases hlength : pre.length > str.length
  · rw [if_pos hlength]
    refine iff_of_false Bool.false_ne_true fun h => ?_
    have hlast := h (pre.length - 1) (by omega)
    rw [List.getElem?_eq_none (by omega)] at hlast
    cases hlast
  · rw [if_neg hlength, List.all_eq_true]
    constructor
    · intro h i hi
      have hi' := of_decide_eq_true (h i (List.mem_range.mpr hi))
      rw [← hi', List.getElem?_eq_getElem hi]
    · intro h i hi
      have hi' := List.mem_range.mp hi
      rw [decide_eq_true_eq, h i hi', List.getElem?_eq_getElem hi']

theorem prefix_of_between {pre rest str : List Nat} (hlow : ¬ str < pre)
    (hhigh : ¬ pre ++ rest < str) : pre <+: str := by
  induction pre generalizing str with
  | nil => exact List.nil_prefix
  | cons a pre ih =>
    cases str with
    | nil => exact absurd (List.nil_lt_cons a pre) hlow
    | cons b str =>
      rw [List.cons_append] at hhigh
      rw [List.cons_lt_cons_iff, not_or, not_and] at hlow hhigh
      obtain rfl : a = b := by omega
      exact (List.prefix_cons_inj a).mpr (ih (hlow.2 rfl) (hhigh.2 rfl))

theorem append_lt_append_iff (pre : List Nat) {str str' : List Nat} :
    pre ++ str < pre ++ str' ↔ str < str' := by
  induction pre with
  | nil => rfl
  | cons a pre ih =>
    rw [List.cons_append, List.cons_append, List.cons_lt_cons_self]
    exact ih

theorem octets_startsWith_iff {pre str : Bytes} : octets pre <+: octets str ↔ pre <+: str := by
  constructor
  · rintro ⟨rest, hrest⟩
    have htake : octets (str.take pre.length) = octets pre := by
      rw [octets, List.map_take]
      change (octets str).take pre.length = octets pre
      rw [← hrest]
      exact List.take_left' (List.length_map _)
    rw [← octets_injective htake]
    exact List.take_prefix _ _
  · rintro ⟨rest, rfl⟩
    rw [octets, octets, List.map_append]
    exact List.prefix_append _ _

namespace Utf8

theorem sequence_lt {cp cp' : Nat} (h : cp < cp') (rest rest' : List Nat) :
    sequence cp ++ rest < sequence cp' ++ rest' := by
  unfold sequence
  split_ifs <;> simp only [List.cons_append, List.cons_lt_cons_iff] <;> omega

theorem peekNext_of_next {bytes rest : Bytes} {cp : Nat} (h : next bytes = .ok (cp, rest)) :
    peekNext bytes = .ok cp := by
  rw [peekNext, h]
  rfl

end Utf8

/-! ## The comparison of strings -/

theorem decide_length_lt {aLength bLength : Nat} {ait bit : Bytes} (hend : ait = [] ∨ bit = [])
    (hlength : aLength + bit.length = bLength + ait.length) :
    decide (aLength < bLength) = decide (bit ≠ []) := by
  rw [decide_eq_decide, ne_eq, ← List.length_eq_zero_iff]
  rcases hend with rfl | rfl
  · rw [List.length_nil] at hlength
    omega
  · rw [List.length_nil] at hlength ⊢
    omega

/-- The same code points are in front of both rests, and so the rests differ in length as the
strings do. -/
theorem unicodeIsSmallerStringLoop_eq {aLength bLength rounds : Nat} {ait bit : Bytes}
    (hrounds : ait.length ≤ rounds) (hlength : aLength + bit.length = bLength + ait.length) :
    unicodeIsSmallerStringLoop aLength bLength rounds ait bit =
      unicodeIsSmallerLoop rounds ait bit := by
  induction rounds generalizing ait bit with
  | zero =>
    have hnil : ait = [] := List.eq_nil_of_length_eq_zero (Nat.le_zero.mp hrounds)
    rw [unicodeIsSmallerStringLoop, unicodeIsSmallerLoop, decide_length_lt (.inl hnil) hlength]
  | succ rounds ih =>
    rw [unicodeIsSmallerStringLoop, unicodeIsSmallerLoop]
    by_cases hne : ait ≠ [] ∧ bit ≠ []
    · rw [if_pos hne, if_pos hne]
      cases ha : Utf8.next ait with
      | error fault => rw [Utf8.peekNext, ha]; rfl
      | ok a =>
        obtain ⟨acode, ait'⟩ := a
        rw [Utf8.peekNext_of_next ha, ok_bind, ok_bind]
        cases hb : Utf8.next bit with
        | error fault => rw [Utf8.peekNext, hb]; rfl
        | ok b =>
          obtain ⟨bcode, bit'⟩ := b
          rw [Utf8.peekNext_of_next hb]
          simp only [ok_bind]
          by_cases hlt : acode < bcode
          · rw [if_pos hlt, if_pos hlt]
          · rw [if_neg hlt, if_neg hlt]
            by_cases hgt : bcode < acode
            · rw [if_pos hgt, if_pos hgt]
            · rw [if_neg hgt, if_neg hgt]
              obtain rfl : acode = bcode := by omega
              have hla := congrArg List.length (Utf8.next_ok ha)
              have hlb := congrArg List.length (Utf8.next_ok hb)
              have hshorter := Utf8.next_length ha
              rw [List.length_append, List.length_map, List.length_map] at hla hlb
              exact ih (by omega) (by omega)
    · rw [if_neg hne, if_neg hne]
      rw [not_and_or, not_not, not_not] at hne
      rw [decide_length_lt hne hlength]

theorem unicodeIsSmallerString_eq (a b : Bytes) :
    unicodeIsSmallerString a b = unicodeIsSmaller a b :=
  unicodeIsSmallerStringLoop_eq (Nat.le_refl _) (Nat.add_comm _ _)

theorem unicodeIsSmallerLoop_octets {rounds : Nat} {a b : Bytes} {r : Bool}
    (hrounds : a.length ≤ rounds) (h : unicodeIsSmallerLoop rounds a b = .ok r) :
    r = decide (octets a < octets b) := by
  have hend : ∀ a b : Bytes, a = [] ∨ b = [] → decide (b ≠ []) = decide (octets a < octets b) := by
    intro a b hnil
    rw [decide_eq_decide]
    rcases hnil with rfl | rfl
    · cases b with
      | nil => exact iff_of_false (fun hne => hne rfl) (List.not_lt_nil _)
      | cons c b => exact iff_of_true (List.cons_ne_nil c b) (List.nil_lt_cons _ _)
    · exact iff_of_false (fun hne => hne rfl) (List.not_lt_nil _)
  induction rounds generalizing a b with
  | zero =>
    have hnil : a = [] := List.eq_nil_of_length_eq_zero (Nat.le_zero.mp hrounds)
    rw [← hend a b (.inl hnil)]
    exact (Except.ok.inj h).symm
  | succ rounds ih =>
    rw [unicodeIsSmallerLoop] at h
    by_cases hne : a ≠ [] ∧ b ≠ []
    · rw [if_pos hne] at h
      obtain ⟨⟨aCode, a'⟩, ha, h⟩ := bind_eq_ok h
      obtain ⟨⟨bCode, b'⟩, hb, h⟩ := bind_eq_ok h
      have hoctetsA : octets a = Utf8.sequence aCode ++ octets a' := Utf8.next_ok ha
      have hoctetsB : octets b = Utf8.sequence bCode ++ octets b' := Utf8.next_ok hb
      have hshorter := Utf8.next_length ha
      rw [hoctetsA, hoctetsB]
      dsimp only at h
      rcases Nat.lt_trichotomy aCode bCode with hlt | rfl | hgt
      · rw [if_pos hlt] at h
        rw [decide_eq_true (Utf8.sequence_lt hlt _ _)]
        exact (Except.ok.inj h).symm
      · rw [if_neg (Nat.lt_irrefl _), if_neg (Nat.lt_irrefl _)] at h
        rw [ih (by omega) h, decide_eq_decide]
        exact (append_lt_append_iff _).symm
      · rw [if_neg (by omega), if_pos hgt] at h
        rw [decide_eq_false (Utf8.sequence_lt hgt _ _).not_gt]
        exact (Except.ok.inj h).symm
    · rw [if_neg hne] at h
      rw [not_and_or, not_not, not_not] at hne
      rw [← hend a b hne]
      exact (Except.ok.inj h).symm

theorem unicodeIsSmallerString_octets {a b : Bytes} {r : Bool}
    (h : unicodeIsSmallerString a b = .ok r) : r = decide (octets a < octets b) := by
  rw [unicodeIsSmallerString_eq] at h
  exact unicodeIsSmallerLoop_octets (Nat.le_refl _) h

theorem unicodeIsSmallerString_valid {a b : Bytes} (ha : Utf8.Valid a) (hb : Utf8.Valid b) :
    ∃ r, unicodeIsSmallerString a b = .ok r := by
  obtain ⟨s, rfl⟩ := ha
  obtain ⟨s', rfl⟩ := hb
  exact ⟨_, (unicodeIsSmallerString_eq _ _).trans (unicodeIsSmaller_encode s s')⟩

namespace SortedStringTable

variable {t : SortedStringTable} {strings : List Bytes}

/-! ## `find` -/

theorem compares (key : Bytes) :
    Compares (fun str => compareWrapper str key) octets (octets key) where
  eq_iff str := by
    rw [compareWrapper, octets_injective.eq_iff]
    by_cases heq : str = key
    · rw [if_pos heq]
      exact iff_of_true rfl heq
    · rw [if_neg heq]
      refine iff_of_false ?_ heq
      split <;> decide
  lt_iff str := by
    rw [compareWrapper]
    by_cases heq : str = key
    · rw [if_pos heq, heq]
      exact iff_of_false (by decide) (lt_irrefl _)
    · rw [if_neg heq]
      by_cases hlt : octets str < octets key
      · rw [if_pos hlt]
        exact iff_of_true (by decide) hlt
      · rw [if_neg hlt]
        exact iff_of_false (by decide) hlt

theorem Holds.length_lt (h : t.Holds strings) {data : Bytes} (hload : load data = .ok t) :
    strings.length < 2 ^ 63 := by
  obtain ⟨a, ha, ht⟩ := bind_eq_ok hload
  cases ht
  exact StaticArray.length_lt ha h.size h.reads

theorem Holds.find_found (h : t.Holds strings) (hlength : strings.length < 2 ^ 63)
    (hsorted : Sorted strings) (value : Bytes) :
    ∃ r, t.find value = .ok r ∧
      ((∃ hr : r < strings.length, strings[r] = value) ∨ (value ∉ strings ∧ r = npos)) := by
  rw [find, binarySearchKeyInArray, h.size]
  by_cases hempty : strings.length = 0
  · rw [if_pos hempty, List.eq_nil_of_length_eq_zero hempty]
    exact ⟨npos, rfl, .inr ⟨List.not_mem_nil, rfl⟩⟩
  · have hright : castI64 (strings.length - 1) = (strings.map octets).length - 1 := by
      rw [castI64_of_lt (by omega), List.length_map]
      omega
    have hwindow : Window (strings.map octets) (octets value) 0
        ((strings.map octets).length - 1) := Window.whole (by
      rw [List.length_map]
      exact Nat.pos_of_ne_zero hempty)
    have hread : ∀ pos : Nat, ∀ hpos : pos < strings.length,
        t.at (castU64 pos) = .ok strings[pos] := by
      intro pos hpos
      rw [castU64_natCast (by omega)]
      exact h.reads pos hpos
    obtain ⟨r, hrun, hr⟩ : ∃ r, bisect (fun mid => t.at (castU64 mid))
        (fun str => compareWrapper str value) 0 ((strings.map octets).length - 1) = .ok r ∧
          IsPosition (strings.map octets) (octets value) r :=
      bisect_found (compares value) hread hsorted hwindow
    rw [if_neg hempty, hright, hrun, ok_bind]
    cases hr with
    | found hpos hkey =>
      rename_i pos
      rw [List.length_map] at hpos
      rw [List.getElem_map] at hkey
      have hnpos : pos < npos := by
        rw [npos]
        omega
      refine ⟨pos, ?_, .inl ⟨hpos, octets_injective hkey⟩⟩
      rw [Option.map_some, Option.getD_some, castU64_natCast (by omega)]
      change Except.ok (if pos < npos then pos else npos) = _
      rw [if_pos hnpos]
    | missing hmem =>
      exact ⟨npos, rfl, .inr ⟨fun hvalue => hmem (List.mem_map_of_mem hvalue), rfl⟩⟩

/-! ## The loops of `range` -/

variable {passed : Nat → Except Fault Bool}

theorem boundLoop_search {p : Nat → Bool} {rounds bound count r : Nat} (hrounds : count ≤ rounds)
    (hpassed : ∀ i, bound ≤ i → i < bound + count → ∀ b, passed i = .ok b → b = !p i)
    (h : boundLoop passed bound count = .ok r) : r = HalvingSearch.search p rounds bound count := by
  induction rounds generalizing bound count with
  | zero =>
    obtain rfl := Nat.le_zero.mp hrounds
    rw [boundLoop, if_neg (Nat.lt_irrefl 0)] at h
    exact (Except.ok.inj h).symm
  | succ rounds ih =>
    rw [boundLoop] at h
    rw [HalvingSearch.search_succ]
    by_cases hcount : 0 < count
    · rw [if_pos hcount] at h ⊢
      obtain ⟨pass, hpass, h⟩ := bind_eq_ok h
      obtain rfl := hpassed (bound + count / 2) (by omega) (by omega) pass hpass
      dsimp only
      cases hp : p (bound + count / 2) with
      | true =>
        rw [hp, Bool.not_true, if_neg Bool.false_ne_true] at h
        rw [if_pos rfl]
        exact ih (by omega) (fun i hlow hhigh => hpassed i hlow (by omega)) h
      | false =>
        rw [hp, Bool.not_false, if_pos rfl] at h
        rw [if_neg Bool.false_ne_true]
        exact ih (by omega) (fun i hlow hhigh => hpassed i (by omega) (by omega)) h
    · rw [if_neg hcount] at h ⊢
      exact (Except.ok.inj h).symm

theorem boundLoop_returns {bound count : Nat}
    (hpassed : ∀ i, bound ≤ i → i < bound + count → ∃ b, passed i = .ok b) :
    ∃ r, boundLoop passed bound count = .ok r ∧ r ≤ bound + count := by
  induction hn : count using Nat.strong_induction_on generalizing bound count with
  | _ n ih =>
    subst hn
    rw [boundLoop]
    by_cases hcount : 0 < count
    · obtain ⟨pass, hpass⟩ := hpassed (bound + count / 2) (by omega) (by omega)
      rw [if_pos hcount, hpass, ok_bind]
      cases pass with
      | true =>
        rw [if_pos rfl]
        obtain ⟨r, hr, hle⟩ := ih (count - (count / 2 + 1)) (by omega)
          (fun i (hlow : bound + count / 2 + 1 ≤ i) hhigh => hpassed i (by omega) (by omega)) rfl
        exact ⟨r, hr, by omega⟩
      | false =>
        rw [if_neg Bool.false_ne_true]
        obtain ⟨r, hr, hle⟩ := ih (count / 2) (by omega)
          (fun i hlow hhigh => hpassed i hlow (by omega)) rfl
        exact ⟨r, hr, by omega⟩
    · rw [if_neg hcount]
      exact ⟨bound, rfl, by omega⟩

/-! ## `range` -/

/-- The positions of an interval are those of the strings that start with the prefix. -/
structure IsRange (strings : List Bytes) (pre : Bytes) (lb ub : Nat) : Prop where
  lb_le_ub : lb ≤ ub
  ub_le : ub ≤ strings.length
  mem_iff : ∀ pos, ∀ h : pos < strings.length, lb ≤ pos ∧ pos < ub ↔ pre <+: strings[pos]

theorem octets_getD_le (hsorted : Sorted strings) {i j : Nat} (hij : i ≤ j)
    (hj : j < strings.length) : octets (strings.getD i []) ≤ octets (strings.getD j []) := by
  rw [List.getD_eq_getElem _ _ (by omega), List.getD_eq_getElem _ _ hj]
  rcases Nat.eq_or_lt_of_le hij with rfl | hlt
  · exact le_refl _
  · have hle := List.pairwise_iff_getElem.mp hsorted i j (by rw [List.length_map]; omega)
      (by rwa [List.length_map]) hlt
    rwa [List.getElem_map, List.getElem_map] at hle

theorem not_lt_of_startsWith {pre str : Bytes} (h : pre <+: str) : ¬ octets str < octets pre := by
  obtain ⟨rest, hrest⟩ := octets_startsWith_iff.mpr h
  intro hlt
  rw [← hrest, ← List.append_nil (octets pre), List.append_assoc, append_lt_append_iff] at hlt
  exact List.not_lt_nil _ hlt

theorem Holds.at_getD (h : t.Holds strings) {i : Nat} (hi : i < strings.length) :
    t.at i = .ok (strings.getD i []) := by
  rw [h.reads i hi, List.getD_eq_getElem _ _ hi]

/-- The positions where the first loop and the second loop of `range` want to end. -/
def notSmaller (strings : List Bytes) (pre : Bytes) (pos : Nat) : Bool :=
  !decide (octets (strings.getD pos []) < octets pre)

def behind (strings : List Bytes) (pre : Bytes) (pos : Nat) : Bool :=
  !(decide (octets (strings.getD pos []) < octets pre) || isPrefix pre (strings.getD pos []))

variable {pre : Bytes}

theorem notSmaller_iff {pos : Nat} :
    notSmaller strings pre pos = true ↔ ¬ octets (strings.getD pos []) < octets pre := by
  rw [notSmaller, Bool.not_eq_true', decide_eq_false_iff_not]

theorem behind_iff {pos : Nat} :
    behind strings pre pos = true ↔
      ¬ octets (strings.getD pos []) < octets pre ∧ ¬ pre <+: strings.getD pos [] := by
  rw [behind, Bool.not_eq_true', Bool.or_eq_false_iff, decide_eq_false_iff_not,
    ← isPrefix_iff, Bool.not_eq_true]

theorem isRange_of_search (hsorted : Sorted strings) {lb ub : Nat}
    (hlb : lb = HalvingSearch.search (notSmaller strings pre) strings.length 0 strings.length)
    (hub : ub = HalvingSearch.search (behind strings pre) (strings.length - lb) lb
      (strings.length - lb)) :
    IsRange strings pre lb ub := by
  have hlow : lb ≤ 0 + strings.length := by
    rw [hlb]
    exact HalvingSearch.search_le _ _ _ _
  have hsmaller : ∀ i < strings.length, notSmaller strings pre i = true ↔ lb ≤ i := by
    intro i hi
    rw [hlb]
    refine HalvingSearch.holds_iff_search_le (Nat.le_refl _) ?_ (Nat.zero_le i) (by omega)
    intro i j _ hij hj hp
    rw [notSmaller_iff] at hp ⊢
    exact fun hlt => hp (lt_of_le_of_lt (octets_getD_le hsorted hij (by omega)) hlt)
  have hpassed : ∀ i, lb ≤ i → i < strings.length → (behind strings pre i = true ↔ ub ≤ i) := by
    intro i hi hlength
    rw [hub]
    refine HalvingSearch.holds_iff_search_le (Nat.le_refl _) ?_ hi (by omega)
    intro i j hi hij hj hp
    rw [behind_iff] at hp ⊢
    refine ⟨notSmaller_iff.mp ((hsmaller j (by omega)).mpr (by omega)), fun hprefix => ?_⟩
    obtain ⟨rest, hrest⟩ := octets_startsWith_iff.mpr hprefix
    have hhigh : ¬ octets pre ++ rest < octets (strings.getD i []) := by
      rw [hrest]
      exact not_lt.mpr (octets_getD_le hsorted hij (by omega))
    exact hp.2 (octets_startsWith_iff.mp (prefix_of_between hp.1 hhigh))
  have hle : lb ≤ ub := by
    rw [hub]
    exact HalvingSearch.le_search _ _ _ _
  have hlength : ub ≤ lb + (strings.length - lb) := by
    rw [hub]
    exact HalvingSearch.search_le _ _ _ _
  refine ⟨hle, by omega, fun pos hpos => ?_⟩
  rw [← List.getD_eq_getElem _ [] hpos]
  constructor
  · rintro ⟨hlb, hub⟩
    by_contra hprefix
    have hbehind := behind_iff.mpr ⟨notSmaller_iff.mp ((hsmaller pos hpos).mpr hlb), hprefix⟩
    have hge := (hpassed pos hlb hpos).mp hbehind
    omega
  · intro hprefix
    have hge := (hsmaller pos hpos).mp (notSmaller_iff.mpr (not_lt_of_startsWith hprefix))
    refine ⟨hge, ?_⟩
    by_contra hub
    exact (behind_iff.mp ((hpassed pos hge hpos).mpr (by omega))).2 hprefix

theorem Holds.isRange (h : t.Holds strings) (hsorted : Sorted strings) {lb ub : Nat}
    (hrange : t.range pre = .ok (lb, ub)) : IsRange strings pre lb ub := by
  rw [range, h.size] at hrange
  obtain ⟨lb', hlb, hrange⟩ := bind_eq_ok hrange
  obtain ⟨ub', hub, hrange⟩ := bind_eq_ok hrange
  obtain ⟨rfl, rfl⟩ := Prod.mk.inj (Except.ok.inj hrange)
  have hlb' : lb' = HalvingSearch.search (notSmaller strings pre) strings.length 0
      strings.length := by
    refine boundLoop_search (Nat.le_refl _) (fun i _ hi b hb => ?_) hlb
    rw [h.at_getD (by omega), ok_bind] at hb
    rw [notSmaller, Bool.not_not]
    exact unicodeIsSmallerString_octets hb
  refine isRange_of_search hsorted hlb' (boundLoop_search (Nat.le_refl _) (fun i _ hi b hb => ?_) hub)
  rw [h.at_getD (by omega), ok_bind] at hb
  obtain ⟨smaller, hsmaller, hb⟩ := bind_eq_ok hb
  rw [behind, ← unicodeIsSmallerString_octets hsmaller, Bool.not_not]
  exact (Except.ok.inj hb).symm

theorem Holds.range_returns (h : t.Holds strings) (hvalid : ∀ str ∈ strings, Utf8.Valid str)
    (hpre : Utf8.Valid pre) : ∃ lb ub, t.range pre = .ok (lb, ub) := by
  have hmem : ∀ i < strings.length, Utf8.Valid (strings.getD i []) := by
    intro i hi
    rw [List.getD_eq_getElem _ _ hi]
    exact hvalid _ (List.getElem_mem hi)
  rw [range, h.size]
  obtain ⟨lb, hlb, hle⟩ : ∃ r, boundLoop (fun pos => do
      let str ← t.at pos
      unicodeIsSmallerString str pre) 0 strings.length = .ok r ∧ r ≤ 0 + strings.length :=
    boundLoop_returns fun i _ hi => by
      rw [h.at_getD (by omega), ok_bind]
      exact unicodeIsSmallerString_valid (hmem i (by omega)) hpre
  obtain ⟨ub, hub, -⟩ : ∃ r, boundLoop (fun pos => do
      let midstr ← t.at pos
      let smaller ← unicodeIsSmallerString midstr pre
      return smaller || isPrefix pre midstr) lb (strings.length - lb) = .ok r ∧
        r ≤ lb + (strings.length - lb) :=
    boundLoop_returns fun i _ hi => by
      obtain ⟨smaller, hsmaller⟩ := unicodeIsSmallerString_valid (hmem i (by omega)) hpre
      rw [h.at_getD (by omega), ok_bind, hsmaller, ok_bind]
      exact ⟨_, rfl⟩
  exact ⟨lb, ub, by rw [hlb, ok_bind, hub, ok_bind]; rfl⟩

/-- What `find` and `range` give for sorted strings. -/
structure Right (t : SortedStringTable) (strings : List Bytes) : Prop where
  find : ∀ value, ∃ r, t.find value = .ok r ∧
    ((∃ h : r < strings.length, strings[r] = value) ∨ (value ∉ strings ∧ r = npos))
  range : ∀ pre lb ub, t.range pre = .ok (lb, ub) → IsRange strings pre lb ub
  returns : (∀ str ∈ strings, Utf8.Valid str) → ∀ pre, Utf8.Valid pre →
    ∃ lb ub, t.range pre = .ok (lb, ub)

end SortedStringTable

/-- A sorted table finds its strings, and `range` gives exactly the strings with the prefix. Only
with strings that do not decode `range` may throw. -/
theorem sortedStringTable_right {data : Bytes} {t : SortedStringTable} {strings : List Bytes}
    (hload : SortedStringTable.load data = .ok t) (h : t.Holds strings)
    (hsorted : SortedStringTable.Sorted strings) : t.Right strings where
  find := h.find_found (h.length_lt hload) hsorted
  range _ _ _ hrange := h.isRange hsorted hrange
  returns hvalid _ hpre := h.range_returns hvalid hpre

theorem sortedStringTable_right_three :
    ∃ t : SortedStringTable, SortedStringTable.load
      [4, 7, 0, 0, 0, 0, 1, 97, 2, 97, 98, 1, 98, 194, 1, 0, 0, 0, 80, 1] = .ok t ∧
        t.Right [[97], [97, 98], [98]] := by
  have hload : SortedStringTable.load
      [4, 7, 0, 0, 0, 0, 1, 97, 2, 97, 98, 1, 98, 194, 1, 0, 0, 0, 80, 1] =
        .ok ⟨⟨[1, 97, 2, 97, 98, 1, 98], .sorted ⟨⟨[80, 1], 3, 5⟩, 3, 0, 0, 0⟩⟩⟩ := by
    decide +kernel
  refine ⟨_, hload, sortedStringTable_right hload ⟨rfl, ?_⟩ ?_⟩
  · intro pos hpos
    have hpositions : ∀ pos < 3, (⟨⟨[1, 97, 2, 97, 98, 1, 98], .sorted ⟨⟨[80, 1], 3, 5⟩, 3, 0, 0,
        0⟩⟩⟩ : SortedStringTable).at pos = .ok ([[97], [97, 98], [98]].getD pos []) := by
      decide +kernel
    rw [hpositions pos hpos, List.getD_eq_getElem _ _ hpos]
  · have hlt : ([[97], [97, 98], [98]].map octets).Pairwise (· < ·) := by decide
    exact hlt.imp le_of_lt

/-- The first of the two bytes of the only string. -/
theorem range_not_total :
    ∃ t : SortedStringTable, SortedStringTable.load [4, 3, 0, 0, 0, 0, 2, 0xc3, 0xa4, 64, 0] =
      .ok t ∧ t.Holds [[0xc3, 0xa4]] ∧ SortedStringTable.Sorted [[0xc3, 0xa4]] ∧
        t.range [0xc3] = .error .notEnoughRoom := by
  have hload : SortedStringTable.load [4, 3, 0, 0, 0, 0, 2, 0xc3, 0xa4, 64, 0] =
      .ok ⟨⟨[2, 0xc3, 0xa4], .sorted ⟨⟨[], 0, 0⟩, 1, 0, 0, 0⟩⟩⟩ := by
    decide +kernel
  refine ⟨_, hload, ⟨rfl, ?_⟩, List.pairwise_singleton _ _, ?_⟩
  · intro pos hpos
    obtain rfl : pos = 0 := Nat.lt_one_iff.mp hpos
    have hfirst : (⟨⟨[2, 0xc3, 0xa4], .sorted ⟨⟨[], 0, 0⟩, 1, 0, 0, 0⟩⟩⟩ :
        SortedStringTable).at 0 = .ok [0xc3, 0xa4] := by decide +kernel
    exact hfirst
  · decide +kernel

end Sserialize
