import Mathlib.Data.List.Sort
import Sserialize.Containers.OADHashTable

namespace Sserialize.OADHashTable

variable {K V : Type} [DecidableEq K]

theorem placeLoop_spec (rounds : Nat) {t t' : OADHashTable K V} {n : Nat} (h : t.Placed n)
    (hn : n + rounds = t.valueStorage.length) (hloop : placeLoop t rounds (n + 1) = some t') :
    t'.Valid ∧ t' = { t with d := t'.d } ∧ t'.d.length = t.d.length := by
  induction rounds generalizing t n with
  | zero =>
    obtain rfl := Option.some.inj hloop
    obtain rfl : n = t.valueStorage.length := hn
    exact ⟨h, rfl, rfl⟩
  | succ rounds ih =>
    have hlt : n < t.valueStorage.length := by omega
    rw [placeLoop, keyAt_succ t hlt] at hloop
    dsimp only at hloop
    cases hfind : t.findBucket t.valueStorage[n].1 with
    | none =>
      rw [hfind] at hloop
      cases hloop
    | some pos =>
      rw [hfind] at hloop
      obtain ⟨hvalid, hsame, hlen⟩ := ih (h.place _ hlt (found_of_findBucket hfind))
        (show n + 1 + rounds = t.valueStorage.length by omega) hloop
      refine ⟨hvalid, hsame, ?_⟩
      rw [hlen, List.length_set]

omit [DecidableEq K] in
@[simp] theorem slot_replicate (t : OADHashTable K V) (count pos : Nat) :
    slot { t with d := List.replicate count 0 } pos = 0 := by
  simp only [slot, List.getD, List.getElem?_replicate]
  split
  · rfl
  · rfl

variable {count : Nat}

theorem placed_replicate {t : OADHashTable K V} (hnodup : (OrderedMap.keys t.valueStorage).Nodup)
    (hcount : 0 < count) : Placed { t with d := List.replicate count 0 } 0 := by
  refine ⟨hnodup, by simpa using hcount, Nat.zero_le _, ?_, fun i _ hi => by omega⟩
  intro pos
  rw [slot_replicate]

theorem fill_spec {t t' : OADHashTable K V} (hnodup : (OrderedMap.keys t.valueStorage).Nodup)
    (hcount : 0 < count) (h : t.fill count = some t') : t'.Valid ∧ t' = { t with d := t'.d } ∧ t'.d.length = count := by
  obtain ⟨hvalid, hsame, hlen⟩ :=
    placeLoop_spec t.size (placed_replicate hnodup hcount) (Nat.zero_add _) h
  exact ⟨hvalid, hsame, by rw [hlen, List.length_replicate]⟩

def grown (count : Nat) : Nat → Nat
  | 0 => count ||| 1
  | k + 1 => (grown count k * 2) ||| 1

theorem grown_pos (count k : Nat) : 0 < grown count k := by
  cases k with
  | zero | succ k => exact Nat.lt_of_lt_of_le Nat.one_pos Nat.right_le_or

theorem grown_grown (count k j : Nat) : grown (grown count k * 2) j = grown count (k + 1 + j) := by
  induction j with
  | zero => rfl
  | succ j ih => rw [grown, ih, ← Nat.add_assoc, grown]

theorem grown_le (count : Nat) {j k : Nat} (h : j ≤ k) : grown count j ≤ grown count k := by
  induction h with
  | refl => exact Nat.le_refl _
  | @step k _ ih =>
    have hle : grown count k * 2 ≤ grown count (k + 1) := Nat.left_le_or
    exact ih.trans ((Nat.le_mul_of_pos_right _ Nat.two_pos).trans hle)

/-- The growth from `count` reaches a fitting size. -/
def Fits (t : OADHashTable K V) (count : Nat) : Prop :=
  ∃ k, grown count k < 2 ^ 64 ∧ (t.fill (grown count k)).isSome = true

theorem rehash_of_lt {t : OADHashTable K V} (h : count ||| 1 < 2 ^ 64) (fuel : Nat) :
    rehash (fuel + 1) t count =
      match t.fill (count ||| 1) with
      | some t => some t
      | none => rehash fuel t ((count ||| 1) * 2) := if_neg (Nat.not_le.mpr h)

/-- The first size that fits is taken. -/
theorem rehash_eq {fuel : Nat} {t t' : OADHashTable K V} (h : rehash fuel t count = some t') :
    ∃ k, grown count k < 2 ^ 64 ∧ t.fill (grown count k) = some t' ∧
      ∀ j < k, t.fill (grown count j) = none := by
  induction fuel generalizing count with
  | zero => cases h
  | succ fuel ih =>
    by_cases hlt : count ||| 1 < 2 ^ 64
    · rw [rehash_of_lt hlt] at h
      cases hfill : t.fill (count ||| 1) with
      | some t'' =>
        rw [hfill] at h
        obtain rfl := Option.some.inj h
        exact ⟨0, hlt, hfill, fun j hj => absurd hj (Nat.not_lt_zero j)⟩
      | none =>
        rw [hfill] at h
        obtain ⟨k, hk, hfill', hfirst⟩ := ih h
        have hshift : ∀ j, grown ((count ||| 1) * 2) j = grown count (j + 1) := fun j => by
          rw [Nat.add_comm j 1]
          exact grown_grown count 0 j
        simp only [hshift] at hk hfill' hfirst
        refine ⟨k + 1, hk, hfill', fun j hj => ?_⟩
        cases j with
        | zero => exact hfill
        | succ j => exact hfirst j (Nat.lt_of_succ_lt_succ hj)
    · rw [rehash, if_pos (Nat.not_lt.mp hlt)] at h
      cases h

theorem rehash_mono {fuel fuel' : Nat} {t t' : OADHashTable K V} (hle : fuel ≤ fuel')
    (h : rehash fuel t count = some t') : rehash fuel' t count = some t' := by
  induction fuel generalizing fuel' count with
  | zero => cases h
  | succ fuel ih =>
    obtain ⟨fuel', rfl⟩ : ∃ f, fuel' = f + 1 := ⟨fuel' - 1, by omega⟩
    by_cases hlt : count ||| 1 < 2 ^ 64
    · rw [rehash_of_lt hlt] at h ⊢
      cases hfill : t.fill (count ||| 1) with
      | some t'' => rwa [hfill] at h
      | none =>
        rw [hfill] at h
        exact ih (by omega) h
    · rw [rehash, if_pos (Nat.not_lt.mp hlt)] at h
      cases h

theorem rehash_of_fill {t : OADHashTable K V} (k count : Nat) (hk : grown count k < 2 ^ 64)
    (h : (t.fill (grown count k)).isSome = true) : ∃ t', rehash (k + 1) t count = some t' := by
  induction k generalizing count with
  | zero =>
    obtain ⟨t', ht'⟩ := Option.isSome_iff_exists.mp h
    have hfill : t.fill (count ||| 1) = some t' := ht'
    exact ⟨t', by rw [rehash_of_lt hk, hfill]⟩
  | succ k ih =>
    rw [rehash_of_lt ((grown_le count (Nat.zero_le (k + 1))).trans_lt hk)]
    cases hfill : t.fill (count ||| 1) with
    | some t' => exact ⟨t', rfl⟩
    | none =>
      have hshift : grown ((count ||| 1) * 2) k = grown count (k + 1) := by
        rw [Nat.add_comm k 1]
        exact grown_grown count 0 k
      exact ih _ (by rwa [hshift]) (by rwa [hshift])

theorem rehash_returns {t : OADHashTable K V} :
    (∃ fuel t', rehash fuel t count = some t') ↔ t.Fits count := by
  constructor
  · rintro ⟨fuel, t', h⟩
    obtain ⟨k, hlt, hk, -⟩ := rehash_eq h
    exact ⟨k, hlt, by rw [hk]; rfl⟩
  · rintro ⟨k, hlt, hk⟩
    exact ⟨k + 1, rehash_of_fill k _ hlt hk⟩

theorem rehash_spec {fuel : Nat} {t t' : OADHashTable K V}
    (hnodup : (OrderedMap.keys t.valueStorage).Nodup) (h : rehash fuel t count = some t') :
    t'.Valid ∧ t' = { t with d := t'.d } := by
  obtain ⟨k, -, hk, -⟩ := rehash_eq h
  obtain ⟨hvalid, hsame, -⟩ := fill_spec hnodup (grown_pos count k) hk
  exact ⟨hvalid, hsame⟩

/-- `operator[]` returns without growing. -/
def Accepts (t : OADHashTable K V) (key : K) : Prop :=
  ∃ pos, t.findBucket key = some pos ∧ (t.slot pos ≠ 0 ∨ t.exceeds = false)

def Grows (t : OADHashTable K V) (key : K) : Prop :=
  t.Accepts key ∨ ∃ k t', grown (t.d.length * 2) k < 2 ^ 64 ∧
    t.fill (grown (t.d.length * 2) k) = some t' ∧ t'.Accepts key

section Index

variable [Inhabited V]

variable {key : K}

theorem index_of_accepts {t : OADHashTable K V} (h : t.Accepts key) (fuel : Nat) :
    ∃ pos, t.findBucket key = some pos ∧ index (fuel + 1) t key =
      if t.slot pos ≠ 0 then some (.ok (t, t.slot pos))
      else if t.size + 1 > t.sizeMax then some (.error .typeOverflow)
      else some (.ok ({ t with valueStorage := t.valueStorage ++ [(key, default)],
                               d := t.d.set pos (t.size + 1) }, t.size + 1)) := by
  obtain ⟨pos, hfind, hcase⟩ := h
  refine ⟨pos, hfind, ?_⟩
  simp only [index, hfind]
  rcases hcase with hslot | hload
  · rw [if_pos hslot, if_pos hslot]
  · rw [hload]
    rfl

theorem index_of_not_accepts {t : OADHashTable K V} (h : ¬ t.Accepts key) (fuel : Nat) :
    index (fuel + 1) t key =
      match rehash fuel t (t.d.length * 2) with
      | none => none
      | some t => index fuel t key := by
  rw [index]
  cases hfind : t.findBucket key with
  | none => rfl
  | some pos =>
    have hslot : ¬ t.slot pos ≠ 0 := fun hne => h ⟨pos, hfind, .inl hne⟩
    have hload : t.exceeds = true := by
      by_contra hnot
      exact h ⟨pos, hfind, .inr (Bool.eq_false_iff.mpr hnot)⟩
    dsimp only
    rw [if_neg hslot]
    exact if_pos hload

theorem exists_rehash_of_index {t : OADHashTable K V} (h : ¬ t.Accepts key) {fuel : Nat}
    {r : Except Fault (OADHashTable K V × Nat)} (hindex : index (fuel + 1) t key = some r) :
    ∃ t₁, rehash fuel t (t.d.length * 2) = some t₁ ∧ index fuel t₁ key = some r := by
  rw [index_of_not_accepts h] at hindex
  cases hrehash : rehash fuel t (t.d.length * 2) with
  | none =>
    rw [hrehash] at hindex
    cases hindex
  | some t₁ =>
    rw [hrehash] at hindex
    exact ⟨t₁, rfl, hindex⟩

theorem index_one_of_accepts {t : OADHashTable K V} (h : t.Accepts key) :
    ∃ r, index 1 t key = some r := by
  obtain ⟨pos, -, hindex⟩ := index_of_accepts h 0
  rw [hindex]
  by_cases hslot : t.slot pos ≠ 0
  · exact ⟨_, if_pos hslot⟩
  · rw [if_neg hslot]
    by_cases hsize : t.size + 1 > t.sizeMax
    · exact ⟨_, if_pos hsize⟩
    · exact ⟨_, if_neg hsize⟩

theorem index_mono {fuel fuel' : Nat} {t : OADHashTable K V}
    {r : Except Fault (OADHashTable K V × Nat)} (hle : fuel ≤ fuel')
    (h : index fuel t key = some r) : index fuel' t key = some r := by
  induction fuel generalizing fuel' t with
  | zero => cases h
  | succ fuel ih =>
    obtain ⟨fuel', rfl⟩ : ∃ f, fuel' = f + 1 := ⟨fuel' - 1, by omega⟩
    by_cases haccepts : t.Accepts key
    · obtain ⟨pos, hfind, hindex⟩ := index_of_accepts haccepts fuel
      obtain ⟨pos', hfind', hindex'⟩ := index_of_accepts haccepts fuel'
      rw [hfind] at hfind'
      obtain rfl := Option.some.inj hfind'
      rw [hindex', ← hindex, h]
    · obtain ⟨t', hrehash, h⟩ := exists_rehash_of_index haccepts h
      rw [index_of_not_accepts haccepts, rehash_mono (by omega) hrehash]
      exact ih (by omega) h

omit [Inhabited V] in
theorem fill_congr {t t' : OADHashTable K V} (h : t' = { t with d := t'.d }) (count : Nat) :
    t'.fill count = t.fill count := by
  rw [h]
  rfl

theorem index_returns {t : OADHashTable K V} (hnodup : (OrderedMap.keys t.valueStorage).Nodup) :
    (∃ fuel r, index fuel t key = some r) ↔ t.Grows key := by
  constructor
  · rintro ⟨fuel, r, h⟩
    induction fuel generalizing t with
    | zero => cases h
    | succ fuel ih =>
      by_cases haccepts : t.Accepts key
      · exact .inl haccepts
      · obtain ⟨t₁, hrehash, h⟩ := exists_rehash_of_index haccepts h
        obtain ⟨k₁, hlt₁, hk₁, -⟩ := rehash_eq hrehash
        obtain ⟨hvalid₁, hsame₁, hlen₁⟩ := fill_spec hnodup (grown_pos _ _) hk₁
        refine .inr ?_
        rcases ih hvalid₁.nodup h with haccepts₁ | ⟨k, t', hlt, hk, haccepts'⟩
        · exact ⟨k₁, t₁, hlt₁, hk₁, haccepts₁⟩
        · rw [fill_congr hsame₁, hlen₁, grown_grown] at hk
          rw [hlen₁, grown_grown] at hlt
          exact ⟨k₁ + 1 + k, t', hlt, hk, haccepts'⟩
  · rintro (haccepts | ⟨k, t', hlt, hk, haccepts'⟩)
    · exact ⟨1, index_one_of_accepts haccepts⟩
    · induction k using Nat.strong_induction_on generalizing t with
      | h k ih =>
        by_cases haccepts : t.Accepts key
        · exact ⟨1, index_one_of_accepts haccepts⟩
        · obtain ⟨t₁, hrehash⟩ := rehash_of_fill k _ hlt (by rw [hk]; rfl)
          obtain ⟨j, -, hfill₁, hfirst⟩ := rehash_eq hrehash
          obtain ⟨hvalid₁, hsame₁, hlen₁⟩ := fill_spec hnodup (grown_pos _ _) hfill₁
          have hj : j ≤ k := by
            by_contra hlater
            rw [hfirst k (Nat.not_le.mp hlater)] at hk
            cases hk
          have hrest : ∃ fuel r, index fuel t₁ key = some r := by
            by_cases hlast : j = k
            · subst hlast
              rw [hk] at hfill₁
              obtain rfl := Option.some.inj hfill₁
              exact ⟨1, index_one_of_accepts haccepts'⟩
            · have hsum : j + 1 + (k - (j + 1)) = k := by omega
              refine ih (k - (j + 1)) (by omega) hvalid₁.nodup ?_ ?_
              · rwa [hlen₁, grown_grown, hsum]
              · rw [fill_congr hsame₁, hlen₁, grown_grown, hsum, hk]
          obtain ⟨fuel, r, hindex⟩ := hrest
          refine ⟨max fuel (k + 1) + 1, r, ?_⟩
          rw [index_of_not_accepts haccepts, rehash_mono (Nat.le_max_right _ _) hrehash]
          exact index_mono (Nat.le_max_left _ _) hindex

/-- The table has been rehashed, or not, and has a place for the key. -/
theorem index_eq_some {fuel : Nat} {t : OADHashTable K V}
    {r : Except Fault (OADHashTable K V × Nat)} (h : t.Valid)
    (hindex : index fuel t key = some r) :
    ∃ t₁ pos, t₁.Valid ∧ t₁ = { t with d := t₁.d } ∧
      (t₁ = t ∨ ∃ fuel t₀ count, t₀.Valid ∧ rehash fuel t₀ count = some t₁) ∧
      t₁.findBucket key = some pos ∧
      ((key ∈ OrderedMap.keys t.valueStorage ∧ r = .ok (t₁, t₁.slot pos)) ∨
        (key ∉ OrderedMap.keys t.valueStorage ∧
          r = if t.size + 1 > t.sizeMax then .error .typeOverflow
            else .ok ({ t₁ with valueStorage := t.valueStorage ++ [(key, default)],
                                d := t₁.d.set pos (t.size + 1) }, t.size + 1))) := by
  induction fuel generalizing t with
  | zero => cases hindex
  | succ fuel ih =>
    by_cases haccepts : t.Accepts key
    · obtain ⟨pos, hfind, heq⟩ := index_of_accepts haccepts fuel
      rw [heq] at hindex
      refine ⟨t, pos, h, rfl, .inl rfl, hfind, ?_⟩
      by_cases hkey : key ∈ OrderedMap.keys t.valueStorage
      · obtain ⟨pos', i, hi, hfind', hslot, -⟩ := findBucket_of_mem h hkey
        rw [hfind] at hfind'
        obtain rfl := Option.some.inj hfind'
        rw [if_pos (by omega)] at hindex
        exact .inl ⟨hkey, (Option.some.inj hindex).symm⟩
      · rw [if_neg (not_not.mpr (slot_of_not_mem h hkey hfind)), ← apply_ite some] at hindex
        exact .inr ⟨hkey, (Option.some.inj hindex).symm⟩
    · obtain ⟨t₁, hrehash, hindex⟩ := exists_rehash_of_index haccepts hindex
      obtain ⟨hvalid₁, hsame₁⟩ := rehash_spec h.nodup hrehash
      have hvalues : t₁.valueStorage = t.valueStorage := by rw [hsame₁]
      have hmax : t₁.sizeMax = t.sizeMax := by rw [hsame₁]
      obtain ⟨t₂, pos, hvalid₂, hsame₂, hrehashed, hfind, hresult⟩ := ih hvalid₁ hindex
      rw [size, hvalues, hmax, ← size] at hresult
      refine ⟨t₂, pos, hvalid₂, ?_, .inr ?_, hfind, hresult⟩
      · rw [hsame₂, hsame₁]
      · rcases hrehashed with rfl | hrehashed
        · exact ⟨fuel, t, _, h, hrehash⟩
        · exact hrehashed

theorem index_spec {fuel : Nat} {t t' : OADHashTable K V} {cp : Nat} (h : t.Valid)
    (hindex : index fuel t key = some (.ok (t', cp))) :
    t'.Valid ∧ t'.valueStorage = OrderedMap.insert key default t.valueStorage ∧
      t'.sizeMax = t.sizeMax ∧ 0 < cp ∧ ∃ hcp : cp - 1 < t'.valueStorage.length,
        t'.valueStorage[cp - 1].1 = key := by
  obtain ⟨t₁, pos, hvalid₁, hsame, -, hfind, ⟨hkey, hresult⟩ | ⟨hkey, hresult⟩⟩ :=
    index_eq_some h hindex
  all_goals have hvalues : t₁.valueStorage = t.valueStorage := by rw [hsame]
  · obtain ⟨rfl, rfl⟩ := Prod.mk.inj (Except.ok.inj hresult)
    rw [← hvalues] at hkey
    obtain ⟨pos', i, hi, hfind', hslot, hkeyAt⟩ := findBucket_of_mem hvalid₁ hkey
    rw [hfind] at hfind'
    obtain rfl := Option.some.inj hfind'
    have hcp : t'.slot pos - 1 = i := by omega
    refine ⟨hvalid₁, ?_, by rw [hsame], by omega, ?_⟩
    · rw [OrderedMap.insert, if_pos (by rwa [← hvalues]), hvalues]
    · simp only [hcp]
      exact ⟨hi, hkeyAt⟩
  · by_cases hsize : t.size + 1 > t.sizeMax
    · rw [if_pos hsize] at hresult
      cases hresult
    · rw [if_neg hsize] at hresult
      obtain ⟨rfl, rfl⟩ := Prod.mk.inj (Except.ok.inj hresult)
      obtain ⟨hplaced, hfound⟩ := Placed.append default hvalid₁ (by rwa [hvalues])
      rw [hvalues] at hplaced hfound
      have hlt : t.valueStorage.length < (t.valueStorage ++ [(key, (default : V))]).length := by
        simp
      have hlast : (t.valueStorage ++ [(key, (default : V))])[t.valueStorage.length] =
          (key, default) := by simp
      have hvalid := hplaced.place pos hlt (by
        simp only [hlast]
        exact hfound key pos (found_of_findBucket hfind))
      refine ⟨?_, (if_neg hkey).symm, by rw [hsame], Nat.succ_pos _, ?_⟩
      · unfold Valid
        simp only [List.length_append, List.length_singleton]
        exact hvalid
      · simp only [Nat.add_sub_cancel]
        exact ⟨hlt, by simp only [size, hlast]⟩

theorem index_error {fuel : Nat} {t : OADHashTable K V} {e : Fault} (h : t.Valid)
    (hindex : index fuel t key = some (.error e)) :
    t.sizeMax < (OrderedMap.insert key (default : V) t.valueStorage).length := by
  obtain ⟨t₁, pos, -, -, -, -, ⟨-, hresult⟩ | ⟨hkey, hresult⟩⟩ := index_eq_some h hindex
  · cases hresult
  · by_cases hsize : t.size + 1 > t.sizeMax
    · rw [OrderedMap.insert, if_neg hkey, List.length_append, List.length_singleton]
      exact hsize
    · rw [if_neg hsize] at hresult
      cases hresult

end Index

section Run

variable [Inhabited V]

inductive Op (K V : Type) where
  | assign (key : K) (v : V)
  | insert (key : K)
  | reserve (count : Nat)
  | rehash (count : Nat)
  | maxLoadFactor (f : ℚ)
  | maxCollisions (count : Nat)
  | sort (op : SortOp (K × V))
  | clear

def step (fuel : Nat) (t : OADHashTable K V) :
    Op K V → Option (Except Fault (OADHashTable K V))
  | .assign key v => t.assign fuel key v
  | .insert key => t.insert fuel key
  | .reserve count => (t.reserve fuel count).map .ok
  | .rehash count => (rehash fuel t count).map .ok
  | .maxLoadFactor f => (t.maxLoadFactor fuel f).map .ok
  | .maxCollisions count => (t.setMaxCollisions fuel count).map .ok
  | .sort op => (t.sort fuel op).map .ok
  | .clear => some (.ok t.clear)

def run (fuel : Nat) (t : OADHashTable K V) :
    List (Op K V) → Option (Except Fault (OADHashTable K V))
  | [] => some (.ok t)
  | op :: ops =>
    match t.step fuel op with
    | none => none
    | some (.error e) => some (.error e)
    | some (.ok t) => run fuel t ops

def Op.apply (m : List (K × V)) : Op K V → List (K × V)
  | .assign key v => OrderedMap.assign key v m
  | .insert key => OrderedMap.insert key default m
  | .sort op => op.sort m
  | .clear => []
  | _ => m

def Op.Ready (t : OADHashTable K V) : Op K V → Prop
  | .assign key _ => t.Grows key
  | .insert key => t.Grows key
  | .reserve count =>
    (count : ℚ) / t.maxLoad ≠ 0 ∧ t.size / ((count : ℚ) / t.maxLoad) < t.maxLoad →
      t.Fits ⌊(count : ℚ) / t.maxLoad⌋₊
  | .rehash count => t.Fits count
  | .maxLoadFactor f => f < t.loadFactor →
    ∃ fuel target, targetLoop t.size f fuel (t.d.length * 2) = some target ∧
      Fits { t with maxLoad := f } target
  | .maxCollisions count => Fits { t with maxCollisions := count } (max t.d.length 16)
  | .sort op => Fits { t with valueStorage := op.sort t.valueStorage } t.d.length
  | .clear => True

omit [Inhabited V] in
theorem targetLoop_mono {n : Nat} {f : ℚ} {fuel fuel' targetSize target : Nat} (hle : fuel ≤ fuel')
    (h : targetLoop n f fuel targetSize = some target) :
    targetLoop n f fuel' targetSize = some target := by
  induction fuel generalizing fuel' targetSize with
  | zero => cases h
  | succ fuel ih =>
    obtain ⟨fuel', rfl⟩ : ∃ k, fuel' = k + 1 := ⟨fuel' - 1, by omega⟩
    rw [targetLoop] at h ⊢
    split at h
    · cases h
    · rename_i hlt
      rw [if_neg hlt]
      by_cases hload : f < (n : ℚ) / targetSize
      · rw [if_pos hload] at h ⊢
        exact ih (by omega) h
      · rw [if_neg hload] at h ⊢
        exact h

omit [Inhabited V] in
theorem valid_clear (t : OADHashTable K V) : t.clear.Valid := by
  refine ⟨List.nodup_nil, by simp [clear], Nat.le_refl _, ?_, fun i hi => by simp [clear] at hi⟩
  intro pos
  simp only [slot, clear, List.getD, List.getElem?_replicate]
  split <;> simp

variable {fuel : Nat} {op : Op K V}

theorem step_spec {t t' : OADHashTable K V} (h : t.Valid) (hstep : t.step fuel op = some (.ok t')) :
    t'.Valid ∧ t'.valueStorage = op.apply t.valueStorage ∧ t'.sizeMax = t.sizeMax := by
  have hrehash : ∀ (t₀ : OADHashTable K V) {t₁ : OADHashTable K V} {count : Nat},
      (OrderedMap.keys t₀.valueStorage).Nodup → (rehash fuel t₀ count).map Except.ok =
        some (.ok t₁ : Except Fault (OADHashTable K V)) →
      t₁.Valid ∧ t₁.valueStorage = t₀.valueStorage ∧ t₁.sizeMax = t₀.sizeMax := by
    intro t₀ t₁ count hnodup hmap
    obtain ⟨t₂, hrehash, heq⟩ := Option.map_eq_some_iff.mp hmap
    obtain rfl := Except.ok.inj heq
    obtain ⟨hvalid, hsame⟩ := rehash_spec hnodup hrehash
    exact ⟨hvalid, by rw [hsame], by rw [hsame]⟩
  cases op with
  | assign key v =>
    simp only [step, OADHashTable.assign] at hstep
    split at hstep
    · cases hstep
    · cases hstep
    · rename_i t₁ cp hindex
      obtain ⟨hvalid, hvalues, hmax, -, hcp, hkey⟩ := index_spec h hindex
      obtain rfl := some_ok_inj hstep
      have hmodify : t₁.valueStorage.modify (cp - 1) (fun entry => (entry.1, v)) =
          OrderedMap.assign key v t₁.valueStorage := by
        rw [← OrderedMap.set_eq_assign v hvalid.nodup hcp hkey, List.modify_eq_set_getElem?,
          List.getElem?_eq_getElem hcp]
        simp [hkey]
      have hmem : key ∈ OrderedMap.keys t₁.valueStorage := by
        rw [← hkey]
        exact List.mem_map_of_mem (List.getElem_mem hcp)
      have hkeys : OrderedMap.keys (OrderedMap.assign key v t₁.valueStorage) =
          OrderedMap.keys t₁.valueStorage := by
        rw [OrderedMap.keys_assign, if_pos hmem]
      refine ⟨?_, ?_, hmax⟩
      · have hlen := congrArg List.length hkeys
        rw [OrderedMap.keys, OrderedMap.keys, List.length_map, List.length_map] at hlen
        unfold Valid
        simp only [hmodify, hlen]
        exact Placed.congr hvalid rfl hkeys rfl rfl rfl
      · rw [hvalues, OrderedMap.assign_insert] at hmodify
        rw [hvalues]
        exact hmodify
  | insert key =>
    simp only [step, OADHashTable.insert] at hstep
    split at hstep
    · cases hstep
    · cases hstep
    · rename_i t₁ cp hindex
      obtain rfl := some_ok_inj hstep
      obtain ⟨hvalid, hvalues, hmax, -⟩ := index_spec h hindex
      exact ⟨hvalid, hvalues, hmax⟩
  | reserve count =>
    simp only [step, OADHashTable.reserve] at hstep
    split at hstep
    · exact hrehash _ h.nodup hstep
    · obtain rfl := some_ok_inj hstep
      exact ⟨h, rfl, rfl⟩
  | rehash count => exact hrehash _ h.nodup hstep
  | maxLoadFactor f =>
    have hvalid : Valid { t with maxLoad := f } := Placed.congr h rfl rfl rfl rfl rfl
    simp only [step, OADHashTable.maxLoadFactor] at hstep
    split at hstep
    · split at hstep
      · cases hstep
      · obtain ⟨hvalid', hvalues, hmax⟩ := hrehash _ hvalid.nodup hstep
        exact ⟨hvalid', hvalues, hmax⟩
    · obtain rfl := some_ok_inj hstep
      exact ⟨hvalid, rfl, rfl⟩
  | maxCollisions count =>
    obtain ⟨hvalid', hvalues, hmax⟩ :=
      hrehash { t with maxCollisions := count } h.nodup hstep
    exact ⟨hvalid', hvalues, hmax⟩
  | sort op =>
    have hnodup : (OrderedMap.keys (op.sort t.valueStorage)).Nodup :=
      ((op.perm t.valueStorage).map Prod.fst).nodup_iff.mpr h.nodup
    obtain ⟨hvalid', hvalues, hmax⟩ :=
      hrehash { t with valueStorage := op.sort t.valueStorage } hnodup hstep
    exact ⟨hvalid', hvalues, hmax⟩
  | clear =>
    obtain rfl := some_ok_inj hstep
    exact ⟨valid_clear t, rfl, rfl⟩

variable {t : OADHashTable K V}

theorem step_error {e : Fault} (h : t.Valid) (hstep : t.step fuel op = some (.error e)) :
    t.sizeMax < (op.apply t.valueStorage).length := by
  have hmap : ∀ {r : Option (OADHashTable K V)},
      r.map Except.ok ≠ some (.error e : Except Fault (OADHashTable K V)) := by
    intro r hr
    obtain ⟨_, -, heq⟩ := Option.map_eq_some_iff.mp hr
    cases heq
  cases op with
  | assign key v =>
    simp only [step, OADHashTable.assign] at hstep
    split at hstep
    · cases hstep
    · rename_i e' hindex
      have hlt := index_error h hindex
      have hassign := congrArg List.length
        (OrderedMap.assign_insert key v default t.valueStorage)
      have hkeys := congrArg List.length
        (OrderedMap.keys_assign key v (OrderedMap.insert key default t.valueStorage))
      rw [OrderedMap.keys, List.length_map, hassign] at hkeys
      have hge : (OrderedMap.insert key default t.valueStorage).length ≤
          (OrderedMap.assign key v t.valueStorage).length := by
        rw [hkeys]
        split <;> simp [OrderedMap.keys]
      exact Nat.lt_of_lt_of_le hlt hge
    · cases hstep
  | insert key =>
    simp only [step, OADHashTable.insert] at hstep
    split at hstep
    · cases hstep
    · rename_i e' hindex
      exact index_error h hindex
    · cases hstep
  | reserve count | rehash count | maxLoadFactor f | maxCollisions count | sort op =>
    exact absurd hstep hmap
  | clear => cases hstep

variable {r : Except Fault (OADHashTable K V)}

theorem isSome_assign (fuel : Nat) (t : OADHashTable K V) (key : K) (v : V) :
    (assign fuel t key v).isSome = (index fuel t key).isSome := by
  rw [OADHashTable.assign]
  cases index fuel t key with
  | none => rfl
  | some r => cases r <;> rfl

theorem isSome_insert (fuel : Nat) (t : OADHashTable K V) (key : K) :
    (insert fuel t key).isSome = (index fuel t key).isSome := by
  rw [OADHashTable.insert]
  cases index fuel t key with
  | none => rfl
  | some r => cases r <;> rfl

theorem step_mono {fuel fuel' : Nat} (hle : fuel ≤ fuel') (h : t.step fuel op = some r) :
    t.step fuel' op = some r := by
  have hmap : ∀ {t₀ : OADHashTable K V} {count : Nat},
      (rehash fuel t₀ count).map Except.ok = some r →
      (rehash fuel' t₀ count).map Except.ok = some r := by
    intro t₀ count hr
    obtain ⟨t₁, hrehash, heq⟩ := Option.map_eq_some_iff.mp hr
    rw [rehash_mono hle hrehash, ← heq]
    rfl
  have hindex : ∀ {key : K}, (∃ r', index fuel t key = some r') →
      index fuel' t key = index fuel t key := by
    rintro key ⟨r', hr'⟩
    rw [hr', index_mono hle hr']
  cases op with
  | assign key v =>
    have hsome := Option.isSome_iff_exists.mpr ⟨r, h⟩
    rw [step, isSome_assign] at hsome
    simp only [step, OADHashTable.assign, hindex (Option.isSome_iff_exists.mp hsome)] at h ⊢
    exact h
  | insert key =>
    have hsome := Option.isSome_iff_exists.mpr ⟨r, h⟩
    rw [step, isSome_insert] at hsome
    simp only [step, OADHashTable.insert, hindex (Option.isSome_iff_exists.mp hsome)] at h ⊢
    exact h
  | reserve count =>
    simp only [step, OADHashTable.reserve] at h ⊢
    split at h
    · rename_i hcond
      rw [if_pos hcond]
      exact hmap h
    · rename_i hcond
      rw [if_neg hcond]
      exact h
  | rehash count | maxCollisions count | sort op => exact hmap h
  | maxLoadFactor f =>
    simp only [step, OADHashTable.maxLoadFactor] at h ⊢
    split at h
    · rename_i hload
      rw [if_pos hload]
      split at h
      · cases h
      · rename_i target htarget
        rw [targetLoop_mono hle htarget]
        exact hmap h
    · rename_i hload
      rw [if_neg hload]
      exact h
  | clear => exact h

theorem step_returns (h : t.Valid) :
    (∃ fuel r, t.step fuel op = some r) ↔ op.Ready t := by
  have hmap : ∀ {t₀ : OADHashTable K V} {count : Nat},
      (∃ fuel, ∃ r : Except Fault (OADHashTable K V),
        (rehash fuel t₀ count).map Except.ok = some r) ↔ t₀.Fits count := by
    intro t₀ count
    rw [← rehash_returns]
    constructor
    · rintro ⟨fuel, r, hr⟩
      obtain ⟨t₁, hrehash, -⟩ := Option.map_eq_some_iff.mp hr
      exact ⟨fuel, t₁, hrehash⟩
    · rintro ⟨fuel, t₁, hrehash⟩
      exact ⟨fuel, .ok t₁, by rw [hrehash]; rfl⟩
  cases op with
  | assign key v =>
    rw [Op.Ready, ← index_returns h.nodup]
    simp only [step, ← Option.isSome_iff_exists, isSome_assign]
  | insert key =>
    rw [Op.Ready, ← index_returns h.nodup]
    simp only [step, ← Option.isSome_iff_exists, isSome_insert]
  | reserve count =>
    simp only [step, OADHashTable.reserve, Op.Ready]
    by_cases hcond : (count : ℚ) / t.maxLoad ≠ 0 ∧ t.size / ((count : ℚ) / t.maxLoad) < t.maxLoad
    · simp only [hcond, forall_const, ne_eq, not_false_eq_true, and_self]
      exact hmap
    · simp only [if_neg hcond]
      exact ⟨fun _ hc => absurd hc hcond, fun _ => ⟨0, _, rfl⟩⟩
  | rehash count | maxCollisions count | sort op => exact hmap
  | maxLoadFactor f =>
    have hload : loadFactor { t with maxLoad := f } = t.loadFactor := rfl
    have hsize : size { t with maxLoad := f } = t.size := rfl
    simp only [step, OADHashTable.maxLoadFactor, Op.Ready, hload, hsize]
    by_cases hcond : f < t.loadFactor
    · simp only [hcond, if_true, forall_const]
      constructor
      · rintro ⟨fuel, r, hr⟩
        cases htarget : targetLoop t.size f fuel (t.d.length * 2) with
        | none =>
          rw [htarget] at hr
          cases hr
        | some target =>
          rw [htarget] at hr
          exact ⟨fuel, target, htarget, hmap.mp ⟨fuel, r, hr⟩⟩
      · rintro ⟨fuel, target, htarget, hfits⟩
        obtain ⟨fuel', t', hrehash⟩ := rehash_returns.mpr hfits
        refine ⟨max fuel fuel', .ok t', ?_⟩
        rw [targetLoop_mono (Nat.le_max_left fuel fuel') htarget]
        dsimp only
        rw [rehash_mono (Nat.le_max_right fuel fuel') hrehash]
        rfl
    · simp only [if_neg hcond]
      exact ⟨fun _ hc => absurd hc hcond, fun _ => ⟨0, _, rfl⟩⟩
  | clear => exact ⟨fun _ => trivial, fun _ => ⟨0, _, rfl⟩⟩

def RunReady (t : OADHashTable K V) : List (Op K V) → Prop
  | [] => True
  | op :: ops => op.Ready t ∧ ∀ fuel t', t.step fuel op = some (.ok t') → RunReady t' ops

def Bounded (sizeMax : Nat) (m : List (K × V)) : List (Op K V) → Prop
  | [] => True
  | op :: ops => (op.apply m).length < sizeMax ∧ Bounded sizeMax (op.apply m) ops

variable {ops : List (Op K V)}

theorem run_spec {t t' : OADHashTable K V} (h : t.Valid) (hrun : run fuel t ops = some (.ok t')) :
    t'.Valid ∧ t'.valueStorage = ops.foldl Op.apply t.valueStorage := by
  induction ops generalizing t with
  | nil =>
    obtain rfl := some_ok_inj hrun
    exact ⟨h, rfl⟩
  | cons op ops ih =>
    rw [run] at hrun
    split at hrun
    · cases hrun
    · cases hrun
    · rename_i t₁ hstep
      obtain ⟨hvalid, hvalues, -⟩ := step_spec h hstep
      obtain ⟨hvalid', hvalues'⟩ := ih hvalid hrun
      refine ⟨hvalid', ?_⟩
      rw [hvalues', hvalues, List.foldl_cons]

theorem run_mono {fuel fuel' : Nat} (hle : fuel ≤ fuel') (h : run fuel t ops = some r) :
    run fuel' t ops = some r := by
  induction ops generalizing t with
  | nil => exact h
  | cons op ops ih =>
    rw [run] at h ⊢
    cases hstep : t.step fuel op with
    | none =>
      rw [hstep] at h
      cases h
    | some r' =>
      rw [hstep] at h
      rw [step_mono hle hstep]
      cases r' with
      | error e => exact h
      | ok t₁ => exact ih h

theorem run_append (fuel : Nat) (t : OADHashTable K V) (ops ops' : List (Op K V)) :
    run fuel t (ops ++ ops') =
      match run fuel t ops with
      | none => none
      | some (.error e) => some (.error e)
      | some (.ok t) => run fuel t ops' := by
  induction ops generalizing t with
  | nil => rfl
  | cons op ops ih =>
    rw [List.cons_append, run, run]
    cases t.step fuel op with
    | none => rfl
    | some r =>
      cases r with
      | error e => rfl
      | ok t₁ => exact ih t₁

/-- A run ends, with a table or an exception, exactly if the growth of each of its operations
does. -/
theorem run_ends (h : t.Valid) : (∃ fuel r, run fuel t ops = some r) ↔ RunReady t ops := by
  induction ops generalizing t with
  | nil => exact ⟨fun _ => trivial, fun _ => ⟨0, _, rfl⟩⟩
  | cons op ops ih =>
    constructor
    · rintro ⟨fuel, r, hrun⟩
      rw [run] at hrun
      cases hstep : t.step fuel op with
      | none =>
        rw [hstep] at hrun
        cases hrun
      | some r' =>
        rw [hstep] at hrun
        refine ⟨(step_returns h).mp ⟨fuel, r', hstep⟩, ?_⟩
        intro fuel₂ t₂ hstep₂
        have hsame := step_mono (Nat.le_max_left fuel fuel₂) hstep
        rw [step_mono (Nat.le_max_right fuel fuel₂) hstep₂] at hsame
        obtain rfl := Option.some.inj hsame
        exact (ih (step_spec h hstep).1).mp ⟨fuel, r, hrun⟩
    · rintro ⟨hready, hrest⟩
      obtain ⟨fuel, r, hstep⟩ := (step_returns h).mpr hready
      cases r with
      | error e => exact ⟨fuel, .error e, by rw [run, hstep]⟩
      | ok t₁ =>
        obtain ⟨fuel', r', hrun⟩ := (ih (step_spec h hstep).1).mpr (hrest fuel t₁ hstep)
        refine ⟨max fuel fuel', r', ?_⟩
        rw [run, step_mono (Nat.le_max_left fuel fuel') hstep]
        exact run_mono (Nat.le_max_right fuel fuel') hrun

def Overflows (sizeMax : Nat) (m : List (K × V)) : List (Op K V) → Prop
  | [] => False
  | op :: ops => sizeMax < (op.apply m).length ∨ Overflows sizeMax (op.apply m) ops

theorem Bounded.not_overflows {sizeMax : Nat} {m : List (K × V)} (h : Bounded sizeMax m ops) :
    ¬ Overflows sizeMax m ops := by
  induction ops generalizing m with
  | nil => exact fun h => h
  | cons op ops ih =>
    rintro (hlt | hrest)
    · have hle := h.1
      omega
    · exact ih h.2 hrest

theorem run_error {e : Fault} (h : t.Valid) (hrun : run fuel t ops = some (.error e)) :
    Overflows t.sizeMax t.valueStorage ops := by
  induction ops generalizing t with
  | nil => cases hrun
  | cons op ops ih =>
    rw [run] at hrun
    split at hrun
    · cases hrun
    · rename_i hstep
      exact .inl (step_error h hstep)
    · rename_i t₁ hstep
      obtain ⟨hvalid, hvalues, hmax⟩ := step_spec h hstep
      have hrest := ih hvalid hrun
      rw [hvalues, hmax] at hrest
      exact .inr hrest

theorem run_returns (h : t.Valid) (hbound : Bounded t.sizeMax t.valueStorage ops) :
    (∃ fuel t', run fuel t ops = some (.ok t')) ↔ RunReady t ops := by
  rw [← run_ends h]
  constructor
  · rintro ⟨fuel, t', hrun⟩
    exact ⟨fuel, .ok t', hrun⟩
  · rintro ⟨fuel, r, hrun⟩
    cases r with
    | error e => exact absurd (run_error h hrun) hbound.not_overflows
    | ok t' => exact ⟨fuel, t', hrun⟩

theorem index_size {t t' : OADHashTable K V} {key : K} {cp : Nat} (h : t.Valid)
    (hsize : t.size ≤ t.sizeMax) (hindex : index fuel t key = some (.ok (t', cp))) :
    t'.size ≤ t.sizeMax := by
  obtain ⟨t₁, pos, -, hsame, -, -, ⟨-, hresult⟩ | ⟨-, hresult⟩⟩ := index_eq_some h hindex
  · obtain ⟨rfl, -⟩ := Prod.mk.inj (Except.ok.inj hresult)
    rw [hsame]
    exact hsize
  · by_cases hlt : t.size + 1 > t.sizeMax
    · rw [if_pos hlt] at hresult
      cases hresult
    · rw [if_neg hlt] at hresult
      obtain ⟨rfl, -⟩ := Prod.mk.inj (Except.ok.inj hresult)
      rw [size, List.length_append, List.length_singleton]
      exact Nat.le_of_not_gt hlt

theorem step_size {t t' : OADHashTable K V} (h : t.Valid) (hsize : t.size ≤ t.sizeMax)
    (hstep : t.step fuel op = some (.ok t')) : t'.size ≤ t'.sizeMax := by
  obtain ⟨-, hvalues, hmax⟩ := step_spec h hstep
  have hsame : op.apply t.valueStorage = t.valueStorage → t'.size ≤ t'.sizeMax := by
    intro heq
    rw [hmax, size, hvalues, heq]
    exact hsize
  cases op with
  | assign key v =>
    simp only [step, OADHashTable.assign] at hstep
    split at hstep
    · cases hstep
    · cases hstep
    · rename_i t₁ cp hindex
      have hle := index_size h hsize hindex
      obtain rfl := some_ok_inj hstep
      rw [hmax, size, List.length_modify]
      exact hle
  | insert key =>
    simp only [step, OADHashTable.insert] at hstep
    split at hstep
    · cases hstep
    · cases hstep
    · rename_i t₁ cp hindex
      obtain rfl := some_ok_inj hstep
      rw [hmax]
      exact index_size h hsize hindex
  | reserve count | rehash count | maxLoadFactor f | maxCollisions count => exact hsame rfl
  | sort op =>
    rw [hmax, size, hvalues, Op.apply, (op.perm t.valueStorage).length_eq]
    exact hsize
  | clear =>
    rw [size, hvalues]
    exact Nat.zero_le _

theorem run_size {t t' : OADHashTable K V} (h : t.Valid) (hsize : t.size ≤ t.sizeMax)
    (hrun : run fuel t ops = some (.ok t')) : t'.size ≤ t'.sizeMax ∧ t'.sizeMax = t.sizeMax := by
  induction ops generalizing t with
  | nil =>
    obtain rfl := some_ok_inj hrun
    exact ⟨hsize, rfl⟩
  | cons op ops ih =>
    rw [run] at hrun
    split at hrun
    · cases hrun
    · cases hrun
    · rename_i t₁ hstep
      obtain ⟨hvalid, -, hmax⟩ := step_spec h hstep
      rw [← hmax]
      exact ih hvalid (step_size h hsize hstep) hrun

/-- The table is the map: its values in order, each key once, and what is found for a key. -/
structure IsMap (t : OADHashTable K V) (m : List (K × V)) : Prop where
  values : t.valueStorage = m
  nodup : (OrderedMap.keys m).Nodup
  size : t.size = m.length
  count : ∀ key, t.count key = decide (key ∈ OrderedMap.keys m)
  found : ∀ key v, OrderedMap.lookup key m = some v → t.at key = .ok v
  missing : ∀ key, key ∉ OrderedMap.keys m → t.at key = .error .outOfRange

omit [Inhabited V] in
theorem isMap_of_valid (h : t.Valid) : t.IsMap t.valueStorage :=
  ⟨rfl, h.nodup, rfl, count_spec h, fun _ _ => at_of_lookup h, fun _ => at_of_not_mem h⟩

omit [Inhabited V] in
theorem valid_new (hash1 hash2 : K → UInt64) (sizeMax : Nat) :
    (new hash1 hash2 sizeMax : OADHashTable K V).Valid := by
  refine ⟨List.nodup_nil, by simp [new], Nat.le_refl _, ?_, fun i hi => by simp [new] at hi⟩
  intro pos
  simp only [slot, new, List.getD, List.getElem?_replicate]
  split <;> simp

/-- Every pair of hash functions and every run: it returns exactly if the growth of its operations
ends, and the table it leaves is the map in insertion order. -/
theorem oadHashTable_run (hash1 hash2 : K → UInt64) (sizeMax : Nat) (ops : List (Op K V))
    (hbound : Bounded sizeMax [] ops) :
    ((∃ fuel t, run fuel (new hash1 hash2 sizeMax) ops = some (.ok t)) ↔
      RunReady (new hash1 hash2 sizeMax) ops) ∧
    ∀ fuel t, run fuel (new hash1 hash2 sizeMax) ops = some (.ok t) →
      t.IsMap (ops.foldl Op.apply []) := by
  have hvalid : (new hash1 hash2 sizeMax : OADHashTable K V).Valid := valid_new hash1 hash2 sizeMax
  refine ⟨run_returns hvalid hbound, ?_⟩
  intro fuel t hrun
  obtain ⟨hvalid', hvalues⟩ := run_spec hvalid hrun
  have hmap := isMap_of_valid hvalid'
  rwa [hvalues] at hmap

def byKey : SortOp (Nat × Nat) where
  lt a b := a.1 < b.1
  sort := List.insertionSort fun a b => a.1 ≤ b.1
  perm := List.perm_insertionSort _
  sorted l := by
    have : Std.Total fun a b : Nat × Nat => a.1 ≤ b.1 := ⟨fun a b => Nat.le_total a.1 b.1⟩
    have : IsTrans (Nat × Nat) fun a b => a.1 ≤ b.1 := ⟨fun _ _ _ => Nat.le_trans⟩
    exact (List.pairwise_insertionSort _ l).imp fun hle => decide_eq_false (Nat.not_lt.mpr hle)

/-- The keys 7 and 3 start at one slot. -/
theorem oadHashTable_run_sorted :
    let ops := [Op.assign 7 1, .insert 3, .sort byKey, .maxLoadFactor (1 / 10), .assign 7 2]
    ((∃ fuel t, run fuel (new (fun _ => 4) (fun k : Nat => UInt64.ofNat (2 * k)) (2 ^ 32 - 1)) ops =
        some (.ok t)) ↔
      RunReady (new (fun _ => 4) (fun k : Nat => UInt64.ofNat (2 * k)) (2 ^ 32 - 1)) ops) ∧
    ∀ fuel t, run fuel (new (fun _ => 4) (fun k : Nat => UInt64.ofNat (2 * k)) (2 ^ 32 - 1)) ops =
        some (.ok t) →
      t.IsMap (ops.foldl Op.apply ([] : List (Nat × Nat))) := by
  refine oadHashTable_run (fun _ => 4) (fun k : Nat => UInt64.ofNat (2 * k)) (2 ^ 32 - 1) _ ?_
  exact ⟨by decide, by decide, by decide, by decide, by decide, trivial⟩

end Run

theorem not_accepts_const {t : OADHashTable Nat Nat} {v : Nat} (h : t.Valid)
    (hvalues : t.valueStorage = [(0, v)]) (hhash1 : t.hash1 = fun _ => 0)
    (hhash2 : t.hash2 = fun _ => 0) : ¬ t.Accepts 1 := by
  have hbucket : ∀ key i, t.bucket key i = 0 := by
    intro key i
    simp [bucket, hhash1, hhash2]
  have hlt : 0 < t.valueStorage.length := by rw [hvalues]; exact Nat.one_pos
  obtain ⟨pos, ⟨i, -, hpos, -⟩, hslot⟩ := h.stored 0 hlt hlt
  rw [hbucket] at hpos
  subst hpos
  rintro ⟨pos', hfind, -⟩
  obtain ⟨i', -, hpos', hstops, -⟩ := found_of_findBucket hfind
  rw [hbucket] at hpos'
  subst hpos'
  rw [stops_iff, hslot, keyAt_succ t hlt] at hstops
  simp [hvalues] at hstops

/-- With constant hash functions the second key is never inserted: no number of slots separates the
keys. -/
theorem run_const (fuel : Nat) : run fuel (new (fun _ => 0) (fun _ => 0) (2 ^ 32 - 1))
    ([.insert 0, .insert 1] : List (Op Nat Nat)) = none := by
  obtain ⟨t, hfirst, hvalues, hhash1, hhash2⟩ : ∃ t : OADHashTable Nat Nat,
      step 1 (new (fun _ => 0) (fun _ => 0) (2 ^ 32 - 1)) (.insert 0) = some (.ok t) ∧
        t.valueStorage = [(0, 0)] ∧ t.hash1 = (fun _ => 0) ∧ t.hash2 = fun _ => 0 := by
    have hfind : (new (fun _ => 0) (fun _ => 0) (2 ^ 32 - 1) : OADHashTable Nat Nat).findBucket 0 =
        some 0 := by decide +kernel
    have hload : (new (fun _ => 0) (fun _ => 0) (2 ^ 32 - 1) : OADHashTable Nat Nat).exceeds =
        false := by decide +kernel
    obtain ⟨pos, hpos, hindex⟩ := index_of_accepts ⟨0, hfind, .inr hload⟩ 0
    rw [hfind] at hpos
    obtain rfl := Option.some.inj hpos
    refine ⟨_, by rw [step, OADHashTable.insert, hindex]; rfl, rfl, rfl, rfl⟩
  have hvalid := (step_spec (valid_new (fun _ => 0) (fun _ => 0) (2 ^ 32 - 1)) hfirst).1
  have hsecond : ¬ t.Grows 1 := by
    rintro (haccepts | ⟨k, t', -, hfill, haccepts⟩)
    · exact not_accepts_const hvalid hvalues hhash1 hhash2 haccepts
    · obtain ⟨hvalid', hsame, -⟩ := fill_spec hvalid.nodup (grown_pos _ _) hfill
      refine not_accepts_const hvalid' (v := 0) ?_ ?_ ?_ haccepts
      · rw [hsame, hvalues]
      · rw [hsame, hhash1]
      · rw [hsame, hhash2]
  cases fuel with
  | zero => rfl
  | succ fuel =>
    rw [run, step_mono (Nat.le_add_left 1 fuel) hfirst]
    dsimp only
    rw [run]
    cases hstep : t.step (fuel + 1) (.insert 1) with
    | none => rfl
    | some r => exact absurd ((step_returns hvalid).mp ⟨fuel + 1, r, hstep⟩) hsecond

theorem oadHashTable_not_returns :
    ¬ ∃ fuel r, run fuel (new (fun _ => 0) (fun _ => 0) (2 ^ 32 - 1) : OADHashTable Nat Nat)
      [.insert 0, .insert 1] = some r := by
  rintro ⟨fuel, r, hrun⟩
  cases (run_const fuel).symm.trans hrun

end Sserialize.OADHashTable
