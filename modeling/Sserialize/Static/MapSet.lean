import Sserialize.Algorithm.FindSorted
import Sserialize.Static.ArrayCorrect

/-!
# `Static::Map` and `Static::Set`

Both searches halve the range of the positions with signed bounds, of 64 bits for a map and of 32
bits for a set. `Map::find` returns the entry and throws where there is none.
-/

namespace Sserialize

open SignedBisection

/-! ## The search -/

/-- The loop of `findPosition` and of `Set::find`, and the comparison behind it. -/
def bisect {β : Type} (at' : Int → Except Fault β) (cmp : β → Int) (left right : Int) :
    Except Fault (Option Int) :=
  let mid := (right - left).tdiv 2 + left
  if left < right then do
    let v ← at' mid
    if cmp v = 0 then return some mid
    else if cmp v < 0 then bisect at' cmp (mid + 1) right
    else bisect at' cmp left (mid - 1)
  else do
    let v ← at' mid
    return if cmp v = 0 then some mid else none
termination_by (right - left).toNat
decreasing_by
  · have hmid : left ≤ middle left right := left_le_middle (by omega)
    rw [middle] at hmid
    omega
  · have hmid : middle left right < right := middle_lt_right (by omega)
    rw [middle] at hmid
    omega

/-- A `uint32_t` as an `int32_t`. -/
def castI32 (n : Nat) : Int := if n < 2 ^ 31 then n else n - 2 ^ 32

def Provides {β : Type} (at' : Nat → Except Fault β) (values : List β) : Prop :=
  ∀ pos (h : pos < values.length), at' pos = .ok values[pos]

/-! ## The map -/

structure StaticMap where
  data : StaticArray
  deriving Repr, DecidableEq

namespace StaticMap

variable {K : Type} [LinearOrder K]

def npos : Nat := 2 ^ 64 - 1

def compareWithFirst (pair : K × Bytes) (value : K) : Int :=
  if pair.1 < value then -1 else if pair.1 = value then 0 else 1

def findPositionIn (size : Nat) (atPosition : Nat → Except Fault (K × Bytes)) (key : K) :
    Except Fault Nat :=
  if size = 0 then .ok npos
  else do
    let mid ← bisect (fun mid => atPosition (castU64 mid)) (fun pair => compareWithFirst pair key)
      0 (castI64 (size - 1))
    return (mid.map castU64).getD npos

variable (ty : ValueType (K × Bytes)) (m : StaticMap)

def load (data : Bytes) : Except Fault StaticMap := do
  let array ← StaticArray.load ty data
  return ⟨array⟩

def atPosition (pos : Nat) : Except Fault (K × Bytes) := m.data.at ty pos

def findPosition (key : K) : Except Fault Nat :=
  findPositionIn m.data.size (m.atPosition ty) key

def find (key : K) : Except Fault (K × Bytes) := do
  let pos ← m.findPosition ty key
  if pos = npos then .error .outOfBounds else m.atPosition ty pos

structure Holds (entries : List (K × Bytes)) : Prop where
  size : m.data.size = entries.length
  reads : Provides (m.atPosition ty) entries

end StaticMap

/-! ## The set -/

/-- The elements of a set: behind an offset index, or numbers of `width` bytes, which are read at
`stride` times their position. -/
inductive SetLayout (α : Type) where
  | indexed (read : Bytes → Except Fault α)
  | number (width stride : Nat) (ofNat : Nat → α)

structure SetType (α : Type) where
  layout : SetLayout α
  default : α

structure StaticSet where
  index : Option SortedOffsetIndex
  data : Bytes
  deriving Repr, DecidableEq

namespace StaticSet

def uint32Type : SetType Nat := ⟨.number 4 4 id, 0⟩

def uint8Type : SetType Nat := ⟨.number 1 4 id, 0⟩

def findIn {α : Type} [LinearOrder α] (size : Nat) (at' : Nat → Except Fault α) (value : α) :
    Except Fault Int :=
  if size = 0 then .ok (-1)
  else do
    let mid ← bisect (fun mid => at' (castU32 mid))
      (fun tmpV => if tmpV = value then 0 else if tmpV < value then -1 else 1)
      0 (castI32 (size - 1))
    return mid.getD (-1)

variable {α : Type} [LinearOrder α] (ty : SetType α) (s : StaticSet)

def load (data : Bytes) : Except Fault StaticSet :=
  match ty.layout with
  | .indexed _ => do
    let index ← SortedOffsetIndex.init (data.drop 5)
    let version ← byteAt data 0
    if version ≠ 1 then .error .versionMissMatch
    else do
      let dataLen ← getUint 4 data 1
      let m_data := (data.drop (5 + index.getSizeInBytes)).take dataLen
      if index.size > m_data.length then .error .corruptData
      else return ⟨some index, m_data⟩
  | .number _ _ _ => do
    let dataLen ← getUint 4 data 1
    return ⟨none, (data.drop 5).take dataLen⟩

def size : Nat :=
  match ty.layout with
  | .indexed _ => u32 ((s.index.map SortedOffsetIndex.size).getD 0)
  | .number width _ _ => u32 s.data.length / width

def «at» (pos : Nat) : Except Fault α :=
  if pos ≥ s.size ty ∨ s.size ty = 0 then .ok ty.default
  else
    match ty.layout, s.index with
    | .indexed read, some index => do
      let offset ← index.at pos
      read (s.data.drop offset)
    | .indexed _, none => .error .undefinedBehaviour
    | .number width stride ofNat, _ => do
      let raw ← getUint width s.data (u32 (stride * pos))
      return ofNat raw

def find (value : α) : Except Fault Int := findIn (s.size ty) (s.at ty) value

def Holds (values : List α) : Prop :=
  match ty.layout with
  | .indexed read => ∃ (serialize : α → Bytes) (index : SortedOffsetIndex),
      s.index = some index ∧ (∀ v rest, read (serialize v ++ rest) = .ok v) ∧
      s.data = (values.map serialize).flatten ∧ index.size = values.length ∧
      ∀ pos, ∀ h : pos < (ArrayCreator.starts (values.map serialize)).length,
        index.at pos = .ok (ArrayCreator.starts (values.map serialize))[pos]
  | .number width _ ofNat => s.data.length = width * values.length ∧
      ∀ pos, ∀ h : pos < values.length,
        ofNat (leValue ((s.data.drop (width * pos)).take width)) = values[pos]

def Aligned : Prop :=
  match ty.layout with
  | .indexed _ => True
  | .number width stride _ => stride = width ∧ 1 < width

end StaticSet

/-! ## The loop -/

variable {α β : Type} [LinearOrder α]

section

variable {at' : Int → Except Fault β} {cmp : β → Int} {left right : Int}

theorem bisect_eq {v : β} (hread : at' (middle left right) = .ok v) :
    bisect at' cmp left right =
      if left < right then
        if cmp v = 0 then .ok (some (middle left right))
        else if cmp v < 0 then bisect at' cmp (middle left right + 1) right
        else bisect at' cmp left (middle left right - 1)
      else .ok (if cmp v = 0 then some (middle left right) else none) := by
  rw [bisect]
  rw [middle] at hread ⊢
  split
  · rw [hread, ok_bind]
    rfl
  · rw [hread, ok_bind]
    rfl

structure Compares (cmp : β → Int) (keyOf : β → α) (key : α) : Prop where
  eq_iff : ∀ v, cmp v = 0 ↔ keyOf v = key
  lt_iff : ∀ v, cmp v < 0 ↔ keyOf v < key

theorem StaticMap.compares (key : α) :
    Compares (fun pair : α × Bytes => compareWithFirst pair key) Prod.fst key where
  eq_iff pair := by
    rw [compareWithFirst]
    rcases lt_trichotomy pair.1 key with hlt | heq | hgt
    · rw [if_pos hlt]
      exact iff_of_false (by decide) hlt.ne
    · rw [if_neg heq.not_lt, if_pos heq]
      exact iff_of_true rfl heq
    · rw [if_neg hgt.not_gt, if_neg hgt.ne']
      exact iff_of_false (by decide) hgt.ne'
  lt_iff pair := by
    rw [compareWithFirst]
    rcases lt_trichotomy pair.1 key with hlt | heq | hgt
    · rw [if_pos hlt]
      exact iff_of_true (by decide) hlt
    · rw [if_neg heq.not_lt, if_pos heq]
      exact iff_of_false (by decide) heq.not_lt
    · rw [if_neg hgt.not_gt, if_neg hgt.ne']
      exact iff_of_false (by decide) hgt.not_gt

theorem StaticSet.compares (key : α) :
    Compares (fun v : α => if v = key then (0 : Int) else if v < key then -1 else 1) id key where
  eq_iff v := by
    by_cases heq : v = key
    · rw [if_pos heq]
      exact iff_of_true rfl heq
    · rw [if_neg heq]
      refine iff_of_false ?_ heq
      split <;> decide
  lt_iff v := by
    by_cases heq : v = key
    · rw [if_pos heq]
      exact iff_of_false (by decide) heq.not_lt
    · rw [if_neg heq]
      by_cases hlt : v < key
      · rw [if_pos hlt]
        exact iff_of_true (by decide) hlt
      · rw [if_neg hlt]
        exact iff_of_false (by decide) hlt

def position (values : List α) (key : α) : Option Int :=
  if key ∈ values then some (values.idxOf key) else none

variable {values : List α}

theorem position_of_getElem (hnodup : values.Nodup) {pos : Nat} (h : pos < values.length) :
    position values values[pos] = some (pos : Int) := by
  rw [position, if_pos (List.getElem_mem h), hnodup.idxOf_getElem pos h]

theorem getD_map_position {γ : Type} (values : List α) (key : α) (f : Int → γ) (none : γ) :
    ((position values key).map f).getD none =
      if key ∈ values then f (values.idxOf key) else none := by
  rw [position]
  split <;> rfl

theorem position_of_not_mem {key : α} (h : key ∉ values) : position values key = none := if_neg h

/-- A position of the key, or none where there is none. -/
inductive IsPosition (values : List α) (key : α) : Option Int → Prop
  | found {pos : Nat} (h : pos < values.length) (hkey : values[pos] = key) :
      IsPosition values key (some (pos : Int))
  | missing (h : key ∉ values) : IsPosition values key none

theorem IsPosition.eq_position {key : α} {r : Option Int} (hnodup : values.Nodup)
    (h : IsPosition values key r) : r = position values key := by
  cases h with
  | found h hkey => rw [← hkey, position_of_getElem hnodup h]
  | missing h => rw [position_of_not_mem h]

theorem bisect_found {keyOf : β → α} {key : α} {values : List β} (hcmp : Compares cmp keyOf key)
    (hreads : ∀ pos : Nat, ∀ h : pos < values.length, at' pos = .ok values[pos])
    (hsorted : (values.map keyOf).Pairwise (· ≤ ·))
    (hwindow : Window (values.map keyOf) key left right) :
    ∃ r, bisect at' cmp left right = .ok r ∧ IsPosition (values.map keyOf) key r := by
  induction hwidth : (right - left).toNat using Nat.strong_induction_on generalizing left right with
  | _ width ih =>
    obtain ⟨m, hm, hmiddle⟩ := hwindow.exists_middle
    have hm' : m < values.length := by rwa [List.length_map] at hm
    have hkey : (values.map keyOf)[m] = keyOf values[m] := List.getElem_map _
    have hread : at' (middle left right) = .ok values[m] := hmiddle ▸ hreads m hm'
    rw [bisect_eq hread]
    by_cases hlr : left < right
    · have hleft := left_le_middle hwindow.left_le
      have hright := middle_lt_right hlr
      rw [if_pos hlr]
      rcases lt_trichotomy (keyOf values[m]) key with hlt | heq | hgt
      · rw [if_neg (mt (hcmp.eq_iff _).mp hlt.ne), if_pos ((hcmp.lt_iff _).mpr hlt), hmiddle]
        exact ih _ (by omega) (hwindow.toRight hsorted hlr hm hmiddle (hkey ▸ hlt)) rfl
      · rw [if_pos ((hcmp.eq_iff _).mpr heq), hmiddle]
        exact ⟨_, rfl, .found hm (hkey.trans heq)⟩
      · rw [if_neg (mt (hcmp.eq_iff _).mp hgt.ne'), if_neg (mt (hcmp.lt_iff _).mp hgt.not_gt),
          hmiddle]
        exact ih _ (by omega) (hwindow.toLeft hsorted hm hmiddle (hkey ▸ hgt)) rfl
    · rw [if_neg hlr]
      by_cases heq : keyOf values[m] = key
      · rw [if_pos ((hcmp.eq_iff _).mpr heq), hmiddle]
        exact ⟨_, rfl, .found hm (hkey.trans heq)⟩
      · rw [if_neg (mt (hcmp.eq_iff _).mp heq)]
        exact ⟨_, rfl, .missing (hwindow.not_mem hlr hm hmiddle (hkey ▸ heq))⟩

theorem bisect_eq_position {keyOf : β → α} {key : α} {values : List β}
    (hcmp : Compares cmp keyOf key)
    (hreads : ∀ pos : Nat, ∀ h : pos < values.length, at' pos = .ok values[pos])
    (hsorted : (values.map keyOf).Pairwise (· < ·))
    (hwindow : Window (values.map keyOf) key left right) :
    bisect at' cmp left right = .ok (position (values.map keyOf) key) := by
  obtain ⟨r, hrun, hr⟩ := bisect_found hcmp hreads (hsorted.imp le_of_lt) hwindow
  rw [hrun, hr.eq_position (hsorted.imp ne_of_lt)]

end

/-! ## The number of different elements -/

def shortWord : Option (Fin 256 × Option (Fin 256)) → Bytes
  | none => []
  | some (a, none) => [UInt8.ofNat a]
  | some (a, some b) => [UInt8.ofNat a, UInt8.ofNat b]

theorem exists_shortWord {word : Bytes} (h : word.length ≤ 2) : ∃ w, shortWord w = word := by
  match word with
  | [] => exact ⟨none, rfl⟩
  | [a] => exact ⟨some (⟨a.toNat, a.toNat_lt⟩, none), by simp [shortWord]⟩
  | [a, b] =>
    exact ⟨some (⟨a.toNat, a.toNat_lt⟩, some ⟨b.toNat, b.toNat_lt⟩), by simp [shortWord]⟩
  | _ :: _ :: _ :: _ => simp at h

theorem length_le_card {ι α : Type} [Fintype ι] [DecidableEq α] (f : ι → α) {xs : List α}
    (hnodup : xs.Nodup) (h : ∀ x ∈ xs, ∃ i, f i = x) : xs.length ≤ Fintype.card ι := by
  have hsub : xs.toFinset ⊆ Finset.univ.image f := by
    intro x hx
    obtain ⟨i, hi⟩ := h x (List.mem_toFinset.mp hx)
    exact Finset.mem_image.mpr ⟨i, Finset.mem_univ i, hi⟩
  calc
    xs.length = xs.toFinset.card := (List.toFinset_card_of_nodup hnodup).symm
    _ ≤ (Finset.univ.image f).card := Finset.card_le_card hsub
    _ ≤ Fintype.card ι := Finset.card_image_le

theorem length_shortWords_le {words : List Bytes} (hnodup : words.Nodup)
    (h : ∀ w ∈ words, w.length ≤ 2) : words.length ≤ 65793 := by
  have hle := length_le_card shortWord hnodup fun w hw => exists_shortWord (h w hw)
  rwa [Fintype.card_option, Fintype.card_prod, Fintype.card_option, Fintype.card_fin] at hle

theorem three_mul_length_le {words : List Bytes} (hnodup : words.Nodup) :
    3 * words.length ≤ words.flatten.length + 3 * 65793 := by
  have hshort := length_shortWords_le (hnodup.filter fun w => w.length ≤ 2) fun w hw =>
    of_decide_eq_true (List.mem_filter.mp hw).2
  suffices hlong : 3 * words.length ≤
      words.flatten.length + 3 * (words.filter fun w => w.length ≤ 2).length by omega
  clear hshort hnodup
  induction words with
  | nil => exact Nat.zero_le _
  | cons w words ih =>
    rw [List.length_cons, List.flatten_cons, List.length_append]
    by_cases hw : w.length ≤ 2
    · rw [List.filter_cons_of_pos (by simpa using hw), List.length_cons]
      omega
    · rw [List.filter_cons_of_neg (by simpa using hw)]
      omega

/-! ## The map -/

variable {data : Bytes}

theorem getUint_lt {width pos value : Nat} (h : getUint width data pos = .ok value) :
    value < 2 ^ (8 * width) := by
  rw [getUint] at h
  obtain ⟨hpos, h⟩ := ok_of_ite h
  have hlt := leValue_lt ((data.drop pos).take width)
  rw [List.length_take, List.length_drop, Nat.min_eq_left (by omega)] at hlt
  exact Except.ok.inj h ▸ hlt

theorem ArrayOffsetIndex.size_le {α : Type} {ty : ValueType α} {length dataSize : Nat} {d : Bytes}
    {index : ArrayOffsetIndex} (hfixed : ty.fixedLength = some length)
    (hload : ArrayOffsetIndex.load ty dataSize d = .ok index) : index.size ≤ dataSize := by
  rw [ArrayOffsetIndex.load, hfixed] at hload
  dsimp only at hload
  obtain ⟨-, hload⟩ := ok_of_ite_error hload
  suffices hindex : index = .fixed length (dataSize / length) by
    rw [hindex]
    exact Nat.div_le_self _ _
  by_cases hintegral : (!ty.isIntegral) = true
  · rw [if_pos hintegral] at hload
    obtain ⟨l, -, hload⟩ := bind_eq_ok hload
    obtain ⟨-, hload⟩ := ok_of_ite_error hload
    exact (Except.ok.inj hload).symm
  · rw [if_neg hintegral] at hload
    exact (Except.ok.inj hload).symm

theorem StaticArray.at_ne_ok {α : Type} {ty : ValueType α} {a : StaticArray}
    {sorted : SortedOffsetIndex} (hnone : ty.fixedLength = none) (hindex : a.index = .sorted sorted)
    {pos : Nat} (hpos : 2 ^ 32 ≤ pos) (x : α) : a.at ty pos ≠ .ok x := by
  intro h
  have hnarrow : a.index.at pos = .error .typeOverflow := by
    rw [hindex, ArrayOffsetIndex.at, narrowCheckU32, if_neg (Nat.not_lt.mpr hpos)]
    rfl
  rw [StaticArray.at] at h
  obtain ⟨hsize, h⟩ := ok_of_ite_error h
  rw [hnone, StaticArray.dataAt, if_neg hsize, StaticArray.range, hnarrow] at h
  cases h

/-- Forty bits of data hold fewer than 2 ^ 63 elements, and behind an offset index only 2 ^ 32 of
them can be read. -/
theorem StaticArray.length_lt {α : Type} {ty : ValueType α} {a : StaticArray} {values : List α}
    (hload : StaticArray.load ty data = .ok a) (hsize : a.size = values.length)
    (hreads : Provides (a.at ty) values) : values.length < 2 ^ 63 := by
  obtain ⟨dataLen, hdataLen, hload⟩ := bind_eq_ok hload
  obtain ⟨version, -, hload⟩ := bind_eq_ok hload
  have hlen := getUint_lt hdataLen
  dsimp only at hload
  obtain ⟨-, hload⟩ := ok_of_ite_error hload
  obtain ⟨index, hindex, hload⟩ := bind_eq_ok hload
  obtain ⟨hcorrupt, hload⟩ := ok_of_ite_error hload
  cases hload
  have hlength : index.size = values.length := hsize
  by_contra hlong
  cases hfixed : ty.fixedLength with
  | some length =>
    have hbytes := ArrayOffsetIndex.size_le hfixed hindex
    rw [List.length_take] at hbytes
    omega
  | none =>
    rw [ArrayOffsetIndex.load, hfixed] at hindex
    obtain ⟨sorted, -, hindex⟩ := bind_eq_ok hindex
    cases hindex
    have hread := hreads (2 ^ 32) (by omega)
    exact StaticArray.at_ne_ok hfixed rfl (Nat.le_refl _) _ hread

namespace StaticMap

variable {m : StaticMap} {ty : ValueType (α × Bytes)} {entries : List (α × Bytes)} {key : α}

omit [LinearOrder α] in
theorem Holds.length_lt (h : m.Holds ty entries) {data : Bytes} (hload : load ty data = .ok m) :
    entries.length < 2 ^ 63 := by
  obtain ⟨a, ha, hm⟩ := bind_eq_ok hload
  cases hm
  exact StaticArray.length_lt ha h.size h.reads

theorem findPositionIn_eq (hsorted : (entries.map Prod.fst).Pairwise (· < ·))
    (hlength : entries.length < 2 ^ 63) {at' : Nat → Except Fault (α × Bytes)}
    (hreads : Provides at' entries) (key : α) :
    findPositionIn entries.length at' key =
      .ok (((position (entries.map Prod.fst) key).map castU64).getD npos) := by
  rw [findPositionIn]
  by_cases hempty : entries.length = 0
  · rw [if_pos hempty, List.eq_nil_of_length_eq_zero hempty]
    rfl
  · have hright : castI64 (entries.length - 1) = (entries.map Prod.fst).length - 1 := by
      rw [castI64_of_lt (by omega), List.length_map]
      omega
    have hwindow : Window (entries.map Prod.fst) key 0 ((entries.map Prod.fst).length - 1) :=
      Window.whole (by
        rw [List.length_map]
        exact Nat.pos_of_ne_zero hempty)
    have hread : ∀ pos : Nat, ∀ h : pos < entries.length,
        at' (castU64 pos) = .ok entries[pos] := by
      intro pos hpos
      rw [castU64_natCast (by omega)]
      exact hreads pos hpos
    rw [if_neg hempty, hright, bisect_eq_position (compares key) hread hsorted hwindow, ok_bind]
    rfl

theorem Holds.findPosition_eq (h : m.Holds ty entries) {data : Bytes}
    (hload : load ty data = .ok m) (hsorted : (entries.map Prod.fst).Pairwise (· < ·)) (key : α) :
    m.findPosition ty key =
      .ok (((position (entries.map Prod.fst) key).map castU64).getD npos) := by
  rw [findPosition, h.size]
  exact findPositionIn_eq hsorted (h.length_lt hload) h.reads key

theorem Holds.find_of_getElem (h : m.Holds ty entries) {data : Bytes}
    (hload : load ty data = .ok m) (hsorted : (entries.map Prod.fst).Pairwise (· < ·))
    {pos : Nat} (hpos : pos < entries.length) : m.find ty entries[pos].1 = .ok entries[pos] := by
  have hlength := h.length_lt hload
  have hpos' : pos < (entries.map Prod.fst).length := by rwa [List.length_map]
  have hkey : (entries.map Prod.fst)[pos] = entries[pos].1 := List.getElem_map _
  have hposition := position_of_getElem (hsorted.imp ne_of_lt) hpos'
  rw [hkey] at hposition
  have hne : pos ≠ npos := by
    rw [npos]
    omega
  rw [find, h.findPosition_eq hload hsorted, hposition, ok_bind, Option.map_some, Option.getD_some,
    castU64_natCast (by omega), if_neg hne, h.reads pos hpos]

theorem Holds.find_of_not_mem (h : m.Holds ty entries) {data : Bytes}
    (hload : load ty data = .ok m) (hsorted : (entries.map Prod.fst).Pairwise (· < ·))
    (hkey : key ∉ entries.map Prod.fst) : m.find ty key = .error .outOfBounds := by
  rw [find, h.findPosition_eq hload hsorted, position_of_not_mem hkey, ok_bind]
  exact if_pos rfl

end StaticMap

/-! ## The set -/

namespace StaticSet

variable {ty : SetType α} {s : StaticSet} {values : List α} {data : Bytes}

omit [LinearOrder α] in
theorem length_data_lt (hload : load ty data = .ok s) : s.data.length < 2 ^ 32 := by
  rw [load] at hload
  cases hlayout : ty.layout with
  | indexed read =>
    rw [hlayout] at hload
    obtain ⟨index, -, hload⟩ := bind_eq_ok hload
    obtain ⟨version, -, hload⟩ := bind_eq_ok hload
    obtain ⟨-, hload⟩ := ok_of_ite_error hload
    obtain ⟨dataLen, hdataLen, hload⟩ := bind_eq_ok hload
    have hlt := getUint_lt hdataLen
    dsimp only at hload
    obtain ⟨-, hload⟩ := ok_of_ite_error hload
    cases hload
    rw [List.length_take]
    omega
  | number width stride ofNat =>
    rw [hlayout] at hload
    obtain ⟨dataLen, hdataLen, hload⟩ := bind_eq_ok hload
    cases hload
    have hlt := getUint_lt hdataLen
    rw [List.length_take]
    omega

omit [LinearOrder α] in
theorem Holds.length_lt (h : s.Holds ty values) (halign : Aligned ty)
    (hload : load ty data = .ok s) (hnodup : values.Nodup) : values.length < 2 ^ 31 := by
  have hdata := length_data_lt hload
  rw [Holds] at h
  rw [Aligned] at halign
  cases hlayout : ty.layout with
  | indexed read =>
    rw [hlayout] at h
    obtain ⟨serialize, index, -, hread, hwords, -, -⟩ := h
    have hinj : Function.Injective serialize := by
      intro v w hvw
      have hv := hread v []
      rw [hvw, hread w []] at hv
      exact (Except.ok.inj hv).symm
    have hle := three_mul_length_le (hnodup.map hinj)
    rw [← hwords, List.length_map] at hle
    omega
  | number width stride ofNat =>
    rw [hlayout] at h halign
    obtain ⟨hlength, -⟩ := h
    have hle : 2 * values.length ≤ width * values.length := Nat.mul_le_mul_right _ halign.2
    omega

omit [LinearOrder α] in
theorem Holds.size_eq (h : s.Holds ty values) (halign : Aligned ty)
    (hload : load ty data = .ok s) (hnodup : values.Nodup) : s.size ty = values.length := by
  have hlt := h.length_lt halign hload hnodup
  have hdata := length_data_lt hload
  rw [Holds] at h
  rw [Aligned] at halign
  rw [size]
  cases hlayout : ty.layout with
  | indexed read =>
    rw [hlayout] at h
    obtain ⟨serialize, index, hindex, -, -, hsize, -⟩ := h
    dsimp only
    rw [hindex, Option.map_some, Option.getD_some, hsize]
    exact u32_of_lt (by omega)
  | number width stride ofNat =>
    rw [hlayout] at h halign
    dsimp only
    rw [u32_of_lt hdata, h.1]
    exact Nat.mul_div_cancel_left _ (by omega)

omit [LinearOrder α] in
theorem Holds.provides (h : s.Holds ty values) (halign : Aligned ty)
    (hload : load ty data = .ok s) (hnodup : values.Nodup) : Provides (s.at ty) values := by
  intro pos hpos
  have hsize := h.size_eq halign hload hnodup
  have hdata := length_data_lt hload
  have hin : ¬ (pos ≥ s.size ty ∨ s.size ty = 0) := by omega
  rw [StaticSet.at, if_neg hin]
  rw [Holds] at h
  rw [Aligned] at halign
  cases hlayout : ty.layout with
  | indexed read =>
    rw [hlayout] at h
    obtain ⟨serialize, index, hindex, hread, hwords, -, hat⟩ := h
    have hlength : (ArrayCreator.starts (values.map serialize)).length = values.length := by
      rw [ArrayCreator.length_starts, List.length_map]
    have hmap : pos < (values.map serialize).length := by rwa [List.length_map]
    rw [hindex]
    dsimp only
    rw [hat pos (hlength.symm ▸ hpos), ok_bind, ArrayCreator.getElem_starts, hwords,
      ArrayCreator.drop_flatten hmap, List.getElem_map]
    exact hread _ _
  | number width stride ofNat =>
    rw [hlayout] at h halign
    obtain ⟨hlength, hvalues⟩ := h
    obtain ⟨rfl, -⟩ := halign
    have hend : stride * pos + stride ≤ s.data.length := by
      rw [hlength, ← Nat.mul_succ]
      exact Nat.mul_le_mul_left _ hpos
    dsimp only
    rw [u32_of_lt (by omega), getUint, if_pos hend, ok_bind, hvalues pos hpos]
    rfl

theorem findIn_eq (hsorted : values.Pairwise (· < ·)) (hlength : values.length < 2 ^ 31)
    {at' : Nat → Except Fault α} (hreads : Provides at' values) (value : α) :
    findIn values.length at' value = .ok ((position values value).getD (-1)) := by
  rw [findIn]
  by_cases hempty : values.length = 0
  · rw [if_pos hempty, List.eq_nil_of_length_eq_zero hempty]
    rfl
  · have hright : castI32 (values.length - 1) = (values.map id).length - 1 := by
      rw [castI32, if_pos (by omega), List.length_map]
      omega
    have hwindow : Window (values.map id) value 0 ((values.map id).length - 1) :=
      Window.whole (by
        rw [List.length_map]
        exact Nat.pos_of_ne_zero hempty)
    have hread : ∀ pos : Nat, ∀ h : pos < values.length,
        at' (castU32 pos) = .ok values[pos] := by
      intro pos hpos
      rw [castU32_natCast (by omega)]
      exact hreads pos hpos
    rw [if_neg hempty, hright, bisect_eq_position (compares value) hread
      (by rwa [List.map_id]) hwindow, ok_bind, List.map_id]
    rfl

theorem size_uint8Type (hsize : s.data.length ≤ 2 ^ 30) : s.size uint8Type = s.data.length := by
  change u32 s.data.length / 1 = s.data.length
  rw [Nat.div_one, u32_of_lt (by omega)]

theorem at_uint8Type (hsize : s.data.length ≤ 2 ^ 30) (pos : Nat) :
    s.at uint8Type pos = if pos < s.data.length then
      (match s.data[4 * pos]? with
        | some b => .ok b.toNat
        | none => .error .outOfBounds)
      else .ok 0 := by
  rw [StaticSet.at, size_uint8Type hsize]
  by_cases hpos : pos < s.data.length
  · have hone : ∀ hread : 4 * pos < s.data.length,
        leValue ((s.data.drop (4 * pos)).take 1) = s.data[4 * pos].toNat := fun hread => by
      rw [List.drop_eq_getElem_cons hread]
      rfl
    rw [if_neg (by omega), if_pos hpos]
    change getUint 1 s.data (u32 (4 * pos)) >>= _ = _
    rw [u32_of_lt (by omega), getUint]
    by_cases hread : 4 * pos < s.data.length
    · rw [if_pos (by omega), List.getElem?_eq_getElem hread, hone hread]
      rfl
    · rw [if_neg (by omega), List.getElem?_eq_none (by omega)]
      rfl
  · rw [if_pos (.inl (by omega)), if_neg hpos]
    rfl

section

variable {α : Type} [LinearOrder α] {at' : Nat → Except Fault α} {first : α} {fault : Fault}

theorem findIn_one (hfirst : at' 0 = .ok first) (value : α) :
    findIn 1 at' value = .ok (if first = value then 0 else -1) := by
  rw [findIn, if_neg (by decide), show castI32 (1 - 1) = 0 from rfl, bisect, if_neg (by decide)]
  change (at' 0 >>= _) >>= _ = _
  rw [hfirst]
  by_cases heq : first = value
  · simp [heq]
  · by_cases hlt : first < value <;> simp [heq, hlt]

theorem findIn_two (hfirst : at' 0 = .ok first) (hsecond : at' 1 = .error fault) (value : α) :
    findIn 2 at' value =
      if first = value then .ok 0 else if first < value then .error fault else .ok (-1) := by
  rw [findIn, if_neg (by decide), show castI32 (2 - 1) = 1 from rfl, bisect, if_pos (by decide)]
  change (at' 0 >>= _) >>= _ = _
  rw [hfirst, ok_bind]
  by_cases heq : first = value
  · simp [heq]
  · by_cases hlt : first < value
    · rw [if_neg (by simp [heq, hlt]), if_pos (by simp [heq, hlt]), bisect, if_neg (by decide)]
      change (at' 1 >>= _) >>= _ = _
      rw [hsecond, if_neg heq, if_pos hlt]
      rfl
    · rw [if_neg (by simp [heq, hlt]), if_neg (by simp [heq, hlt]), bisect, if_neg (by decide)]
      change (at' 0 >>= _) >>= _ = _
      rw [hfirst]
      simp [heq, hlt]

theorem findIn_of_middle {size : Nat} (hsize : 2 ≤ size ∧ size ≤ 2 ^ 31)
    (hmiddle : at' ((size - 1) / 2) = .error fault) (value : α) :
    findIn size at' value = .error fault := by
  have hright : castI32 (size - 1) = size - 1 := by
    rw [castI32, if_pos (by omega)]
    omega
  have hpos : ((size : Int) - 1 - 0).tdiv 2 + 0 = ((size - 1) / 2 : Nat) := by
    rw [Int.tdiv_eq_ediv_of_nonneg (by omega)]
    omega
  rw [findIn, if_neg (by omega), hright, bisect, if_pos (by omega), hpos,
    castU32_natCast (by omega), hmiddle]
  rfl

end

/-- The bytes are read at four times their position: from the second one on none is found, and with
three bytes the first access is already behind the data. -/
theorem find_uint8Type (hsize : s.data.length ≤ 2 ^ 30) (value : Nat) :
    (∀ pos, s.at uint8Type pos = if pos < s.data.length then
      (match s.data[4 * pos]? with
        | some b => .ok b.toNat
        | none => .error .outOfBounds)
      else .ok 0) ∧
    s.find uint8Type value =
      match s.data with
      | [] => .ok (-1)
      | [b] => .ok (if b.toNat = value then 0 else -1)
      | [b, _] =>
        if b.toNat = value then .ok 0
        else if b.toNat < value then .error .outOfBounds
        else .ok (-1)
      | _ => .error .outOfBounds := by
  refine ⟨at_uint8Type hsize, ?_⟩
  have hread := at_uint8Type hsize
  rw [find, size_uint8Type hsize]
  match hdata : s.data with
  | [] => rfl
  | [b] =>
    rw [hdata] at hread
    exact findIn_one (hread 0) value
  | [b, c] =>
    rw [hdata] at hread
    exact findIn_two (hread 0) (hread 1) value
  | b :: c :: d :: rest =>
    rw [hdata] at hsize hread
    have hmiddle := hread ((rest.length + 2) / 2)
    simp only [List.length_cons] at hsize hmiddle ⊢
    rw [if_pos (by omega), List.getElem?_eq_none (by simp only [List.length_cons]; omega)]
      at hmiddle
    exact findIn_of_middle (by omega) hmiddle value

theorem find_uint8Type_three :
    (⟨none, [1, 2, 3]⟩ : StaticSet).at uint8Type 0 = .ok 1 ∧
      (⟨none, [1, 2, 3]⟩ : StaticSet).find uint8Type 1 = .error .outOfBounds := by
  have h := find_uint8Type (s := ⟨none, [1, 2, 3]⟩) (by decide) 1
  exact ⟨h.1 0, h.2⟩

end StaticSet

/-! ## Both searches -/

/-- The searches of a map find every key at its position and no other key. The search reads only
the entries. -/
structure StaticMap.Right (ty : ValueType (α × Bytes)) (m : StaticMap)
    (entries : List (α × Bytes)) : Prop where
  inside : ∀ at' : Nat → Except Fault (α × Bytes), Provides at' entries → ∀ key,
    findPositionIn m.data.size at' key = m.findPosition ty key
  findPosition : ∀ key, m.findPosition ty key = .ok (if key ∈ entries.map Prod.fst then
    (entries.map Prod.fst).idxOf key else npos)
  find : ∀ pos, ∀ h : pos < entries.length, m.find ty entries[pos].1 = .ok entries[pos]
  missing : ∀ key, key ∉ entries.map Prod.fst → m.find ty key = .error .outOfBounds

structure StaticSet.Right (ty : SetType α) (s : StaticSet) (values : List α) : Prop where
  inside : ∀ at' : Nat → Except Fault α, Provides at' values → ∀ value,
    findIn (s.size ty) at' value = s.find ty value
  find : ∀ value, s.find ty value =
    .ok (if value ∈ values then (values.idxOf value : Int) else -1)

theorem StaticMap.Holds.right {m : StaticMap} {ty : ValueType (α × Bytes)}
    {entries : List (α × Bytes)} (h : m.Holds ty entries) (hload : load ty data = .ok m)
    (hsorted : (entries.map Prod.fst).Pairwise (· < ·)) :
    m.Right ty entries where
  inside at' hreads key := by
    rw [h.findPosition_eq hload hsorted, h.size,
      findPositionIn_eq hsorted (h.length_lt hload) hreads]
  findPosition key := by
    have hlength := h.length_lt hload
    rw [h.findPosition_eq hload hsorted, getD_map_position]
    by_cases hkey : key ∈ entries.map Prod.fst
    · have hlt := List.idxOf_lt_length_of_mem hkey
      rw [List.length_map] at hlt
      rw [if_pos hkey, if_pos hkey, castU64_natCast (by omega)]
    · rw [if_neg hkey, if_neg hkey]
  find _ hpos := h.find_of_getElem hload hsorted hpos
  missing _ hkey := h.find_of_not_mem hload hsorted hkey

theorem StaticSet.Holds.right {s : StaticSet} {ty : SetType α} {values : List α}
    (h : s.Holds ty values) (halign : Aligned ty) (hload : load ty data = .ok s)
    (hsorted : values.Pairwise (· < ·)) : s.Right ty values := by
  have hnodup : values.Nodup := hsorted.imp ne_of_lt
  have hlength := h.length_lt halign hload hnodup
  have hsize := h.size_eq halign hload hnodup
  have hfind : ∀ at' : Nat → Except Fault α, Provides at' values → ∀ value,
      findIn (s.size ty) at' value = .ok ((position values value).getD (-1)) := by
    intro at' hreads value
    rw [hsize]
    exact findIn_eq hsorted hlength hreads value
  have hprovides := h.provides halign hload hnodup
  refine ⟨fun at' hreads value => ?_, fun value => ?_⟩
  · rw [find, hfind at' hreads, hfind _ hprovides]
  · have hvalue := getD_map_position values value id (-1)
    rw [Option.map_id] at hvalue
    rw [find, hfind _ hprovides]
    exact congrArg Except.ok hvalue

/-- A map finds the position and the entry of every key, and a set the position of every element,
for all elements but `uint8_t`. A map throws where it has no entry, and a set returns -1. -/
theorem find_right :
    (∀ (K : Type) [LinearOrder K] (ty : ValueType (K × Bytes)) (data : Bytes) (m : StaticMap)
      (entries : List (K × Bytes)), StaticMap.load ty data = .ok m → m.Holds ty entries →
        (entries.map Prod.fst).Pairwise (· < ·) → m.Right ty entries) ∧
    ∀ (α : Type) [LinearOrder α] (ty : SetType α) (data : Bytes) (s : StaticSet)
      (values : List α), StaticSet.Aligned ty → StaticSet.load ty data = .ok s →
        s.Holds ty values → values.Pairwise (· < ·) → s.Right ty values :=
  ⟨fun _ _ _ _ _ _ hload h hsorted => h.right hload hsorted,
    fun _ _ _ _ _ _ halign hload h hsorted => h.right halign hload hsorted⟩

/-! ## Small maps and sets -/

def bytePairs : ValueType (Nat × Bytes) where
  fixedLength := none
  minLength := 1
  isIntegral := false
  serializationSupport := false
  serialize pair := UInt8.ofNat pair.1 :: pair.2
  deserialize
    | b :: rest => .ok (b.toNat, rest)
    | [] => .error .outOfBounds
  get _ := .error .unsupportedFeature

theorem find_right_small :
    (∃ m, StaticMap.load bytePairs [4, 4, 0, 0, 0, 0, 1, 65, 2, 66, 129, 1, 0, 0, 0, 8] = .ok m ∧
      m.Right bytePairs [(1, [65]), (2, [66])]) ∧
    ∃ s, StaticSet.load StaticSet.uint32Type [0, 8, 0, 0, 0, 1, 0, 0, 0, 5, 0, 0, 0] = .ok s ∧
      s.Right StaticSet.uint32Type [1, 5] := by
  have hmap : StaticMap.load bytePairs [4, 4, 0, 0, 0, 0, 1, 65, 2, 66, 129, 1, 0, 0, 0, 8] =
      .ok ⟨⟨[1, 65, 2, 66], .sorted ⟨CompactUintArray.ofData [8] 2, 2, 0, 0, 0⟩⟩⟩ := by
    decide +kernel
  have hset : StaticSet.load StaticSet.uint32Type [0, 8, 0, 0, 0, 1, 0, 0, 0, 5, 0, 0, 0] =
      .ok ⟨none, [1, 0, 0, 0, 5, 0, 0, 0]⟩ := by decide +kernel
  refine ⟨⟨_, hmap, find_right.1 Nat bytePairs _ _ _ hmap ⟨rfl, ?_⟩ (by decide)⟩,
    ⟨_, hset, find_right.2 Nat StaticSet.uint32Type _ _ _ ⟨rfl, by decide⟩ hset ⟨rfl, ?_⟩
      (by decide)⟩⟩
  · intro pos hpos
    have hpositions : ∀ pos < 2, (⟨⟨[1, 65, 2, 66], .sorted ⟨CompactUintArray.ofData [8] 2, 2, 0, 0,
        0⟩⟩⟩ : StaticMap).atPosition bytePairs pos =
          .ok ([(1, [65]), (2, [66])].getD pos (0, [])) := by decide +kernel
    rw [hpositions pos hpos, List.getD_eq_getElem _ _ hpos]
  · intro pos hpos
    have hpositions : ∀ pos < 2, id (leValue (([1, 0, 0, 0, 5, 0, 0, 0].drop (4 * pos)).take 4)) =
        [1, 5].getD pos 0 := by decide +kernel
    rw [hpositions pos hpos, List.getD_eq_getElem _ _ hpos]

/-- A key that an empty map does not have. -/
theorem find_not_npos :
    ∃ m, StaticMap.load bytePairs [4, 0, 0, 0, 0, 0, 0] = .ok m ∧ m.Holds bytePairs [] ∧
      m.findPosition bytePairs 7 = .ok StaticMap.npos ∧
      m.find bytePairs 7 = .error .outOfBounds := by
  have hload : StaticMap.load bytePairs [4, 0, 0, 0, 0, 0, 0] =
      .ok ⟨⟨[], .sorted ⟨⟨[], 0, 0⟩, 0, 0, 0, 0⟩⟩⟩ := by decide +kernel
  refine ⟨_, hload, ⟨rfl, fun pos h => absurd h (Nat.not_lt_zero pos)⟩, ?_, ?_⟩
  · decide +kernel
  · decide +kernel

end Sserialize
