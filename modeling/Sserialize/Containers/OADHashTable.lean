import Mathlib.Algebra.Order.Archimedean.Basic
import Sserialize.Library.OrderedMap
import Sserialize.Storage.Bytes

/-!
# `OADHashTable`

An open addressing hash table with double hashing over a list of values. Slot 0 is empty, slot `n`
holds the value `n - 1`. The load factors are rational numbers here: the rounding of `double` is not
modelled. There is memory for every number of slots of 64 bits. A table may have to grow more than
once, so the growing functions take fuel; `none` is the growth that has not ended, or that needs a
number of slots of more than 64 bits, to which no `double` is converted.
-/

namespace Sserialize

structure OADHashTable (K V : Type) where
  valueStorage : List (K × V)
  d : List Nat
  maxLoad : ℚ
  maxCollisions : Nat
  hash1 : K → UInt64
  hash2 : K → UInt64
  /-- The greatest value of `SizeType`. -/
  sizeMax : Nat

structure SortOp (α : Type) where
  lt : α → α → Bool
  sort : List α → List α
  perm : ∀ l, (sort l).Perm l
  sorted : ∀ l, (sort l).Pairwise fun a b => lt b a = false

namespace OADHashTable

variable {K V : Type} [DecidableEq K]

def new (hash1 hash2 : K → UInt64) (sizeMax : Nat) : OADHashTable K V :=
  { valueStorage := [], d := List.replicate 16 0, maxLoad := 4 / 5, maxCollisions := 100,
    hash1 := hash1, hash2 := hash2, sizeMax := sizeMax }

def size (t : OADHashTable K V) : Nat := t.valueStorage.length

def loadFactor (t : OADHashTable K V) : ℚ := t.size / t.d.length

def keyAt (t : OADHashTable K V) (ptr : Nat) : Option K := (t.valueStorage[ptr - 1]?).map Prod.fst

def slot (t : OADHashTable K V) (pos : Nat) : Nat := t.d.getD pos 0

/-! ## Probing -/

def stops (t : OADHashTable K V) (key : K) (cpos : Nat) : Bool :=
  let cp := t.slot cpos
  cp = 0 ∨ t.keyAt cp = some key

def findBucketLoop (t : OADHashTable K V) (key : K) (h1 h2 : UInt64) : Nat → Nat → Option Nat
  | 0, _ => none
  | rounds + 1, i =>
    let cpos := (h1.toNat + i * h2.toNat) % 2 ^ 64 % t.d.length
    if t.stops key cpos then some cpos else findBucketLoop t key h1 h2 rounds (i + 1)

/-- `none` is `findend`. -/
def findBucket (t : OADHashTable K V) (key : K) : Option Nat :=
  let s := t.d.length
  if s = 0 then none
  else
    let h1 := t.hash1 key &&& ~~~1
    let cpos := h1.toNat % s
    if t.stops key cpos then some cpos
    else
      let h2 := t.hash2 key &&& ~~~1
      findBucketLoop t key h1 h2 (min s t.maxCollisions - 1) 1

def count (t : OADHashTable K V) (key : K) : Bool :=
  match t.findBucket key with
  | none => false
  | some pos => t.slot pos ≠ 0

/-- `at`. The reference to a slot is formed also for `findend`, and not read then. -/
def «at» (t : OADHashTable K V) (key : K) : Except Fault V :=
  match t.findBucket key with
  | none => .error .outOfRange
  | some pos =>
    match t.slot pos with
    | 0 => .error .outOfRange
    | n + 1 =>
      match t.valueStorage[n]? with
      | none => .error .undefinedBehaviour
      | some entry => .ok entry.2

/-! ## Growing -/

/-- The loop of `rehash` over the values; `none` where a key finds no slot. -/
def placeLoop (t : OADHashTable K V) : Nat → Nat → Option (OADHashTable K V)
  | 0, _ => some t
  | rounds + 1, i =>
    match t.keyAt i with
    | none => none
    | some key =>
      match t.findBucket key with
      | none => none
      | some pos => placeLoop { t with d := t.d.set pos i } rounds (i + 1)

/-- The table with `count` slots, if every key finds one. -/
def fill (t : OADHashTable K V) (count : Nat) : Option (OADHashTable K V) :=
  placeLoop { t with d := List.replicate count 0 } t.size 1

def rehash : Nat → OADHashTable K V → Nat → Option (OADHashTable K V)
  | 0, _, _ => none
  | fuel + 1, t, count =>
    let count := count ||| 1
    if 2 ^ 64 ≤ count then none
    else
      match t.fill count with
      | some t => some t
      | none => rehash fuel t (count * 2)

def exceeds (t : OADHashTable K V) : Bool := t.maxLoad < ((t.size + 1 : ℕ) : ℚ) / t.d.length

/-- `operator[]`: the table and the value pointer. The value of a new key is `default`. -/
def index [Inhabited V] : Nat → OADHashTable K V → K → Option (Except Fault (OADHashTable K V × Nat))
  | 0, _, _ => none
  | fuel + 1, t, key =>
    let grow :=
      match rehash fuel t (t.d.length * 2) with
      | none => none
      | some t => index fuel t key
    match t.findBucket key with
    | none => grow
    | some pos =>
      if t.slot pos ≠ 0 then some (.ok (t, t.slot pos))
      else if t.exceeds then grow
      else
        let mySize := t.size + 1
        if mySize > t.sizeMax then some (.error .typeOverflow)
        else some (.ok ({ t with valueStorage := t.valueStorage ++ [(key, default)],
                                 d := t.d.set pos mySize }, mySize))

def assign [Inhabited V] (fuel : Nat) (t : OADHashTable K V) (key : K) (v : V) :
    Option (Except Fault (OADHashTable K V)) :=
  match index fuel t key with
  | none => none
  | some (.error e) => some (.error e)
  | some (.ok (t, cp)) =>
    some (.ok { t with valueStorage := t.valueStorage.modify (cp - 1) fun entry => (entry.1, v) })

def insert [Inhabited V] (fuel : Nat) (t : OADHashTable K V) (key : K) :
    Option (Except Fault (OADHashTable K V)) :=
  match index fuel t key with
  | none => none
  | some (.error e) => some (.error e)
  | some (.ok (t, _)) => some (.ok t)

def targetLoop (size : Nat) (f : ℚ) : Nat → Nat → Option Nat
  | 0, _ => none
  | fuel + 1, targetSize =>
    if 2 ^ 64 ≤ targetSize then none
    else if f < (size : ℚ) / targetSize then targetLoop size f fuel (targetSize * 2)
    else some targetSize

def maxLoadFactor (fuel : Nat) (t : OADHashTable K V) (f : ℚ) : Option (OADHashTable K V) :=
  let t := { t with maxLoad := f }
  if f < t.loadFactor then
    match targetLoop t.size f fuel (t.d.length * 2) with
    | none => none
    | some targetSize => rehash fuel t targetSize
  else some t

def setMaxCollisions (fuel : Nat) (t : OADHashTable K V) (count : Nat) :
    Option (OADHashTable K V) :=
  rehash fuel { t with maxCollisions := count } (max t.d.length 16)

def reserve (fuel : Nat) (t : OADHashTable K V) (count : Nat) : Option (OADHashTable K V) :=
  let newTableSize : ℚ := count / t.maxLoad
  if newTableSize ≠ 0 ∧ t.size / newTableSize < t.maxLoad then rehash fuel t ⌊newTableSize⌋₊
  else some t

def sort (fuel : Nat) (t : OADHashTable K V) (op : SortOp (K × V)) : Option (OADHashTable K V) :=
  rehash fuel { t with valueStorage := op.sort t.valueStorage } t.d.length

def clear (t : OADHashTable K V) : OADHashTable K V :=
  { t with valueStorage := [], d := List.replicate 16 0 }

/-! ## Where a key is found -/

def bucket (t : OADHashTable K V) (key : K) (i : Nat) : Nat :=
  ((t.hash1 key &&& ~~~1).toNat + i * (t.hash2 key &&& ~~~1).toNat) % 2 ^ 64 % t.d.length

def probes (t : OADHashTable K V) : Nat := max 1 (min t.d.length t.maxCollisions)

def Found (t : OADHashTable K V) (key : K) (pos : Nat) : Prop :=
  ∃ i < t.probes, t.bucket key i = pos ∧ t.stops key pos = true ∧
    ∀ j < i, t.stops key (t.bucket key j) = false

theorem findBucketLoop_some {t : OADHashTable K V} {key : K} {rounds i pos : Nat}
    (h : findBucketLoop t key (t.hash1 key &&& ~~~1) (t.hash2 key &&& ~~~1) rounds i = some pos) :
    ∃ j, i ≤ j ∧ j < i + rounds ∧ t.bucket key j = pos ∧ t.stops key pos = true ∧
      ∀ k, i ≤ k → k < j → t.stops key (t.bucket key k) = false := by
  induction rounds generalizing i with
  | zero => cases h
  | succ rounds ih =>
    rw [findBucketLoop] at h
    change (if t.stops key (t.bucket key i) then some (t.bucket key i) else _) = _ at h
    by_cases hstop : t.stops key (t.bucket key i) = true
    · rw [if_pos hstop] at h
      obtain rfl := Option.some.inj h
      exact ⟨i, Nat.le_refl i, by omega, rfl, hstop, fun k hk hk' => by omega⟩
    · rw [if_neg hstop] at h
      obtain ⟨j, hle, hlt, hpos, hstops, hbefore⟩ := ih h
      refine ⟨j, by omega, by omega, hpos, hstops, ?_⟩
      intro k hk hk'
      by_cases heq : k = i
      · rw [heq]
        exact Bool.eq_false_iff.mpr hstop
      · exact hbefore k (by omega) hk'

theorem findBucketLoop_none {t : OADHashTable K V} {key : K} {rounds i : Nat}
    (h : findBucketLoop t key (t.hash1 key &&& ~~~1) (t.hash2 key &&& ~~~1) rounds i = none) :
    ∀ k, i ≤ k → k < i + rounds → t.stops key (t.bucket key k) = false := by
  induction rounds generalizing i with
  | zero =>
    intro k hk hk'
    omega
  | succ rounds ih =>
    rw [findBucketLoop] at h
    change (if t.stops key (t.bucket key i) then some (t.bucket key i) else _) = _ at h
    by_cases hstop : t.stops key (t.bucket key i) = true
    · rw [if_pos hstop] at h
      cases h
    · rw [if_neg hstop] at h
      intro k hk hk'
      by_cases heq : k = i
      · rw [heq]
        exact Bool.eq_false_iff.mpr hstop
      · exact ih h k (by omega) (by omega)

omit [DecidableEq K] in
theorem bucket_zero (t : OADHashTable K V) (key : K) :
    t.bucket key 0 = (t.hash1 key &&& ~~~1).toNat % t.d.length := by
  rw [bucket, Nat.zero_mul, Nat.add_zero, Nat.mod_eq_of_lt (UInt64.toNat_lt _)]

theorem found_of_findBucket {t : OADHashTable K V} {key : K} {pos : Nat}
    (h : t.findBucket key = some pos) : t.Found key pos := by
  unfold findBucket at h
  by_cases hs : t.d.length = 0
  · rw [if_pos hs] at h
    cases h
  · rw [if_neg hs] at h
    dsimp only at h
    rw [← bucket_zero] at h
    by_cases hfirst : t.stops key (t.bucket key 0) = true
    · rw [if_pos hfirst] at h
      obtain rfl := Option.some.inj h
      refine ⟨0, ?_, rfl, hfirst, fun j hj => by omega⟩
      unfold probes
      omega
    · rw [if_neg hfirst] at h
      obtain ⟨j, hle, hlt, hpos, hstops, hbefore⟩ := findBucketLoop_some h
      refine ⟨j, ?_, hpos, hstops, ?_⟩
      · unfold probes
        omega
      · intro k hk
        by_cases hzero : k = 0
        · rw [hzero]
          exact Bool.eq_false_iff.mpr hfirst
        · exact hbefore k (by omega) hk

theorem not_stops_of_findBucket {t : OADHashTable K V} {key : K} (hpos : 0 < t.d.length)
    (h : t.findBucket key = none) : ∀ i < t.probes, t.stops key (t.bucket key i) = false := by
  unfold findBucket at h
  rw [if_neg (by omega)] at h
  dsimp only at h
  rw [← bucket_zero] at h
  by_cases hfirst : t.stops key (t.bucket key 0) = true
  · rw [if_pos hfirst] at h
    cases h
  · rw [if_neg hfirst] at h
    intro i hi
    by_cases hzero : i = 0
    · rw [hzero]
      exact Bool.eq_false_iff.mpr hfirst
    · refine findBucketLoop_none h i (by omega) ?_
      unfold probes at hi
      omega

theorem findBucket_eq_some {t : OADHashTable K V} {key : K} {pos : Nat} (hpos : 0 < t.d.length) :
    t.findBucket key = some pos ↔ t.Found key pos := by
  refine ⟨found_of_findBucket, ?_⟩
  rintro ⟨i, hi, hbucket, hstops, hbefore⟩
  cases hfind : t.findBucket key with
  | none =>
    have hnot := not_stops_of_findBucket hpos hfind i hi
    rw [hbucket, hstops] at hnot
    cases hnot
  | some pos' =>
    obtain ⟨i', -, hbucket', hstops', hbefore'⟩ := found_of_findBucket hfind
    rcases Nat.lt_trichotomy i i' with hlt | heq | hgt
    · have hnot := hbefore' i hlt
      rw [hbucket, hstops] at hnot
      cases hnot
    · rw [← hbucket', ← heq, hbucket]
    · have hnot := hbefore i' hgt
      rw [hbucket', hstops'] at hnot
      cases hnot

omit [DecidableEq K] in
theorem bucket_lt {t : OADHashTable K V} (hpos : 0 < t.d.length) (key : K) (i : Nat) :
    t.bucket key i < t.d.length := Nat.mod_lt _ hpos

end OADHashTable

end Sserialize

/-!
## The slots of `OADHashTable`

Probing for the key of a stored value ends in the slot of this value: filling a slot where a probe
stopped keeps this for the values placed before.
-/

namespace Sserialize.OADHashTable

variable {K V : Type} [DecidableEq K]

omit [DecidableEq K] in
theorem keyAt_eq (t : OADHashTable K V) (ptr : Nat) :
    t.keyAt ptr = (OrderedMap.keys t.valueStorage)[ptr - 1]? := by
  rw [keyAt, OrderedMap.keys, List.getElem?_map]

omit [DecidableEq K] in
theorem keyAt_succ (t : OADHashTable K V) {i : Nat} (h : i < t.valueStorage.length) :
    t.keyAt (i + 1) = some t.valueStorage[i].1 := by
  rw [keyAt, Nat.add_sub_cancel, List.getElem?_eq_getElem h]
  rfl

variable {t : OADHashTable K V} {key : K}

theorem stops_iff {pos : Nat} :
    t.stops key pos = true ↔ t.slot pos = 0 ∨ t.keyAt (t.slot pos) = some key := by
  simp [stops]

structure Placed (t : OADHashTable K V) (n : Nat) : Prop where
  nodup : (OrderedMap.keys t.valueStorage).Nodup
  d_pos : 0 < t.d.length
  le : n ≤ t.valueStorage.length
  slots : ∀ pos, t.slot pos ≤ n
  stored : ∀ i, ∀ h : i < t.valueStorage.length, i < n →
    ∃ pos, t.Found t.valueStorage[i].1 pos ∧ t.slot pos = i + 1

def Valid (t : OADHashTable K V) : Prop := t.Placed t.valueStorage.length

omit [DecidableEq K] in
theorem key_injective (h : (OrderedMap.keys t.valueStorage).Nodup) {i j : Nat}
    (hi : i < t.valueStorage.length) (hj : j < t.valueStorage.length)
    (hkey : t.valueStorage[i].1 = t.valueStorage[j].1) : i = j := by
  have hi' : i < (OrderedMap.keys t.valueStorage).length := by rwa [OrderedMap.keys, List.length_map]
  have hj' : j < (OrderedMap.keys t.valueStorage).length := by rwa [OrderedMap.keys, List.length_map]
  have hget : (OrderedMap.keys t.valueStorage)[i] = (OrderedMap.keys t.valueStorage)[j] := by
    simpa [OrderedMap.keys] using hkey
  exact h.getElem_inj_iff.mp hget

theorem Placed.slot_eq_zero {n pos : Nat} (h : t.Placed n)
    (hkey : ∀ i, ∀ hi : i < t.valueStorage.length, i < n → t.valueStorage[i].1 ≠ key)
    (hstops : t.stops key pos = true) : t.slot pos = 0 := by
  rcases stops_iff.mp hstops with hzero | hat
  · exact hzero
  · by_contra hne
    obtain ⟨i, hi⟩ : ∃ i, t.slot pos = i + 1 := ⟨t.slot pos - 1, by omega⟩
    have hle := h.slots pos
    have hsize := h.le
    have hlt : i < t.valueStorage.length := by omega
    rw [hi, keyAt_succ t hlt] at hat
    exact hkey i hlt (by omega) (Option.some.inj hat)

section Place

variable {t : OADHashTable K V} {n pos : Nat}

omit [DecidableEq K] in
theorem slot_set (hpos : pos < t.d.length) (cp q : Nat) :
    OADHashTable.slot { t with d := t.d.set pos cp } q = if q = pos then cp else t.slot q := by
  by_cases hq : q = pos
  · subst hq
    simp [slot, List.getD, hpos]
  · have hne : ¬ pos = q := fun h => hq h.symm
    simp [slot, List.getD, hq, hne]

omit [DecidableEq K] in
theorem bucket_set (cp : Nat) (key : K) (i : Nat) :
    bucket { t with d := t.d.set pos cp } key i = t.bucket key i := by
  simp only [bucket, List.length_set]

omit [DecidableEq K] in
theorem probes_set (cp : Nat) : probes { t with d := t.d.set pos cp } = t.probes := by
  simp only [probes, List.length_set]

theorem stops_set_of_ne (hpos : pos < t.d.length) (cp : Nat) (key : K) {q : Nat} (hq : q ≠ pos) :
    stops { t with d := t.d.set pos cp } key q = t.stops key q := by
  simp only [stops, slot_set hpos, if_neg hq]
  rfl

theorem Placed.place (h : t.Placed n) (pos : Nat) (hn : n < t.valueStorage.length)
    (hfound : t.Found t.valueStorage[n].1 pos) :
    Placed { t with d := t.d.set pos (n + 1) } (n + 1) := by
  obtain ⟨i₀, hi₀, hbucket₀, hstops₀, hbefore₀⟩ := hfound
  have hpos : pos < t.d.length := by
    rw [← hbucket₀]
    exact bucket_lt h.d_pos _ _
  have hzero : t.slot pos = 0 := by
    refine h.slot_eq_zero ?_ hstops₀
    intro i hi hlt heq
    have hsame := key_injective h.nodup hi hn heq
    omega
  refine ⟨h.nodup, by simpa using h.d_pos, hn, ?_, ?_⟩
  · intro q
    rw [slot_set hpos]
    have hle := h.slots q
    split <;> omega
  · intro i hi hlt
    by_cases hlast : i = n
    · subst hlast
      refine ⟨pos, ⟨i₀, by rwa [probes_set], by rw [bucket_set, hbucket₀], ?_, ?_⟩, ?_⟩
      · rw [stops_iff, slot_set hpos, if_pos rfl]
        exact .inr (keyAt_succ t hi)
      · intro j hj
        have hnot := hbefore₀ j hj
        have hne : t.bucket t.valueStorage[i].1 j ≠ pos := by
          intro heq
          rw [heq, hstops₀] at hnot
          cases hnot
        rw [bucket_set, stops_set_of_ne hpos _ _ hne, hnot]
      · rw [slot_set hpos, if_pos rfl]
    · obtain ⟨p, ⟨i₁, hi₁, hbucket₁, hstops₁, hbefore₁⟩, hslot⟩ := h.stored i hi (by omega)
      have hne : p ≠ pos := by
        intro heq
        rw [heq, hzero] at hslot
        cases hslot
      refine ⟨p, ⟨i₁, by rwa [probes_set], by rw [bucket_set, hbucket₁], ?_, ?_⟩, ?_⟩
      · rw [stops_set_of_ne hpos _ _ hne, hstops₁]
      · intro j hj
        have hnot := hbefore₁ j hj
        have hne' : t.bucket t.valueStorage[i].1 j ≠ pos := by
          intro heq
          rw [heq, stops_iff.mpr (.inl hzero)] at hnot
          cases hnot
        rw [bucket_set, stops_set_of_ne hpos _ _ hne', hnot]
      · rw [slot_set hpos, if_neg hne, hslot]

end Place

theorem Placed.congr {t t' : OADHashTable K V} {n : Nat} (h : t.Placed n) (hd : t'.d = t.d)
    (hkeys : OrderedMap.keys t'.valueStorage = OrderedMap.keys t.valueStorage)
    (hcollisions : t'.maxCollisions = t.maxCollisions) (hhash1 : t'.hash1 = t.hash1)
    (hhash2 : t'.hash2 = t.hash2) : t'.Placed n := by
  have hlen : t'.valueStorage.length = t.valueStorage.length := by
    have hmap := congrArg List.length hkeys
    rwa [OrderedMap.keys, OrderedMap.keys, List.length_map, List.length_map] at hmap
  have hslot : ∀ q, t'.slot q = t.slot q := fun q => by rw [slot, slot, hd]
  have hstops : ∀ key q, t'.stops key q = t.stops key q := fun key q => by
    simp only [stops, hslot, keyAt_eq, hkeys]
  have hbucket : ∀ key i, t'.bucket key i = t.bucket key i := fun key i => by
    rw [bucket, bucket, hd, hhash1, hhash2]
  have hprobes : t'.probes = t.probes := by rw [probes, probes, hd, hcollisions]
  refine ⟨by rw [hkeys]; exact h.nodup, by rw [hd]; exact h.d_pos, by rw [hlen]; exact h.le,
    fun q => by rw [hslot]; exact h.slots q, ?_⟩
  intro i hi hlt
  have hi' : i < t.valueStorage.length := by rwa [hlen] at hi
  obtain ⟨pos, ⟨i₀, hi₀, hbucket₀, hstops₀, hbefore₀⟩, hslot₀⟩ := h.stored i hi' hlt
  have hkey : t'.valueStorage[i].1 = t.valueStorage[i].1 := by
    have hget := congrArg (fun l => l[i]?) hkeys
    simpa [OrderedMap.keys, hi, hi'] using hget
  refine ⟨pos, ⟨i₀, by rwa [hprobes], by rw [hkey, hbucket, hbucket₀], by rw [hkey, hstops, hstops₀],
    ?_⟩, by rw [hslot, hslot₀]⟩
  intro j hj
  rw [hkey, hbucket, hstops]
  exact hbefore₀ j hj

theorem Placed.append (v : V) (h : t.Valid) (hkey : key ∉ OrderedMap.keys t.valueStorage) :
    Placed { t with valueStorage := t.valueStorage ++ [(key, v)] } t.valueStorage.length ∧
      ∀ k pos, t.Found k pos → Found { t with valueStorage := t.valueStorage ++ [(key, v)] } k pos := by
  have hstops : ∀ k q, stops { t with valueStorage := t.valueStorage ++ [(key, v)] } k q =
      t.stops k q := by
    intro k q
    have hle := h.slots q
    have hslot : slot { t with valueStorage := t.valueStorage ++ [(key, v)] } q = t.slot q := rfl
    by_cases hzero : t.slot q = 0
    · simp [stops, hslot, hzero]
    · have hget : (t.valueStorage ++ [(key, v)])[t.slot q - 1]? = t.valueStorage[t.slot q - 1]? :=
        List.getElem?_append_left (by omega)
      rw [Bool.eq_iff_iff, stops_iff, stops_iff, hslot, keyAt, keyAt, hget]
  have hfound : ∀ k pos, t.Found k pos →
      Found { t with valueStorage := t.valueStorage ++ [(key, v)] } k pos := by
    rintro k pos ⟨i₀, hi₀, hbucket₀, hstops₀, hbefore₀⟩
    refine ⟨i₀, hi₀, hbucket₀, by rw [hstops, hstops₀], ?_⟩
    intro j hj
    rw [hstops]
    exact hbefore₀ j hj
  refine ⟨⟨OrderedMap.nodup_append h.nodup hkey, h.d_pos, by simp, h.slots, ?_⟩, hfound⟩
  intro i hi hlt
  obtain ⟨pos, hpos, hslot⟩ := h.stored i hlt hlt
  refine ⟨pos, ?_, hslot⟩
  simp only [List.getElem_append_left hlt]
  exact hfound _ _ hpos

/-! ## Finding -/

theorem findBucket_of_mem (h : t.Valid) (hkey : key ∈ OrderedMap.keys t.valueStorage) :
    ∃ pos i, ∃ hi : i < t.valueStorage.length, t.findBucket key = some pos ∧ t.slot pos = i + 1 ∧
      t.valueStorage[i].1 = key := by
  obtain ⟨entry, hentry, rfl⟩ := List.mem_map.mp hkey
  obtain ⟨i, hi, rfl⟩ := List.getElem_of_mem hentry
  obtain ⟨pos, hfound, hslot⟩ := h.stored i hi hi
  exact ⟨pos, i, hi, (findBucket_eq_some h.d_pos).mpr hfound, hslot, rfl⟩

theorem slot_of_not_mem (h : t.Valid) {pos : Nat} (hkey : key ∉ OrderedMap.keys t.valueStorage)
    (hfind : t.findBucket key = some pos) : t.slot pos = 0 := by
  obtain ⟨i, -, -, hstops, -⟩ := found_of_findBucket hfind
  refine h.slot_eq_zero ?_ hstops
  intro j hj _ heq
  exact hkey (heq ▸ List.mem_map_of_mem (List.getElem_mem hj))

theorem count_spec (h : t.Valid) (key : K) :
    t.count key = decide (key ∈ OrderedMap.keys t.valueStorage) := by
  unfold count
  by_cases hkey : key ∈ OrderedMap.keys t.valueStorage
  · obtain ⟨pos, i, hi, hfind, hslot, -⟩ := findBucket_of_mem h hkey
    simp [hfind, hslot, hkey]
  · cases hfind : t.findBucket key with
    | none => simp [hkey]
    | some pos => simp [slot_of_not_mem h hkey hfind, hkey]

theorem at_of_lookup (h : t.Valid) {v : V}
    (hlookup : OrderedMap.lookup key t.valueStorage = some v) : t.at key = .ok v := by
  have hkey : key ∈ OrderedMap.keys t.valueStorage := by
    by_contra hnot
    rw [OrderedMap.lookup_eq_none.mpr hnot] at hlookup
    cases hlookup
  obtain ⟨pos, i, hi, hfind, hslot, hkeyAt⟩ := findBucket_of_mem h hkey
  rw [OrderedMap.lookup_of_getElem h.nodup hi hkeyAt] at hlookup
  simp only [OADHashTable.at, hfind, hslot, List.getElem?_eq_getElem hi]
  rw [Option.some.inj hlookup]

theorem at_of_not_mem (h : t.Valid) (hkey : key ∉ OrderedMap.keys t.valueStorage) :
    t.at key = .error .outOfRange := by
  rw [OADHashTable.at]
  cases hfind : t.findBucket key with
  | none => rfl
  | some pos =>
    dsimp only
    rw [slot_of_not_mem h hkey hfind]

end Sserialize.OADHashTable
