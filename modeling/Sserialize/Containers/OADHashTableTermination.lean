import Sserialize.Containers.OADHashTableRun
import Sserialize.Library.FirstFit

namespace Sserialize.OADHashTable

open FirstFit

variable {K V : Type} [DecidableEq K]

def keys (t : OADHashTable K V) : List K := OrderedMap.keys t.valueStorage

/-- The probes in a table of `count` slots. -/
def choices (t : OADHashTable K V) (count : Nat) (key : K) : List Nat :=
  (List.range (max 1 (min count t.maxCollisions))).map fun i =>
    ((t.hash1 key &&& ~~~1).toNat + i * (t.hash2 key &&& ~~~1).toNat) % 2 ^ 64 % count

/-- The numbers of slots to which a table of `n` slots grows. -/
def GrowsTo (n count : Nat) : Prop := count = n ∨ ∃ k, count = grown (n * 2) k ∧ count < 2 ^ 64

/-- The slots are enough for the load factor, and first fit serves the keys. -/
def Room (t : OADHashTable K V) (ks : List K) (count : Nat) : Prop :=
  (ks.length : ℚ) / count ≤ t.maxLoad ∧ (serve [] (ks.map (t.choices count))).isSome = true

/-- The used slots are those that the first `n` keys are served with. -/
def Served (t : OADHashTable K V) (n : Nat) : Prop :=
  ∃ used, serve [] ((t.keys.take n).map (t.choices t.d.length)) = some used ∧
    ∀ pos, t.slot pos ≠ 0 ↔ pos ∈ used

def Filled (t : OADHashTable K V) : Prop := t.Served t.size

theorem range_isPrefix {m n : Nat} (h : m ≤ n) : List.range m <+: List.range n := by
  obtain ⟨k, rfl⟩ := Nat.exists_eq_add_of_le h
  rw [List.range_add]
  exact List.prefix_append _ _

variable {count : Nat}

variable {t : OADHashTable K V} {n : Nat}

theorem findBucket_eq_free {used : List Nat} {key : K} (h : t.Placed n)
    (hused : ∀ pos, t.slot pos ≠ 0 ↔ pos ∈ used)
    (hkey : ∀ i, ∀ hi : i < t.valueStorage.length, i < n → t.valueStorage[i].1 ≠ key) :
    t.findBucket key = free used (t.choices t.d.length key) := by
  have hstops : ∀ pos, t.stops key pos = true ↔ pos ∉ used := by
    intro pos
    rw [← hused, not_not]
    constructor
    · exact h.slot_eq_zero hkey
    · intro hzero
      exact stops_iff.mpr (.inl hzero)
  cases hfind : t.findBucket key with
  | none =>
    symm
    rw [free_eq_none]
    intro pos hpos
    obtain ⟨i, hi, rfl⟩ := List.mem_map.mp hpos
    have hnot := not_stops_of_findBucket h.d_pos hfind i (List.mem_range.mp hi)
    by_contra hfree
    have hstop := (hstops _).mpr hfree
    exact absurd (hstop.symm.trans hnot) (by decide)
  | some pos =>
    obtain ⟨i, hi, hbucket, hstop, hbefore⟩ := found_of_findBucket hfind
    symm
    rw [free_eq_some]
    obtain ⟨rest, hrest⟩ := range_isPrefix hi
    have hsplit : t.choices t.d.length key =
        (List.range i).map (t.bucket key) ++ pos :: rest.map (t.bucket key) := by
      change (List.range t.probes).map (t.bucket key) = _
      rw [← hrest, List.range_succ, List.map_append, List.map_append, List.append_assoc, ← hbucket]
      rfl
    refine ⟨(hstops pos).mp hstop, _, _, hsplit, ?_⟩
    intro q hq
    obtain ⟨j, hj, rfl⟩ := List.mem_map.mp hq
    have hnot := hbefore j (List.mem_range.mp hj)
    by_contra hfree
    exact absurd ((hstops _).mpr hfree) (Bool.eq_false_iff.mp hnot)

omit [DecidableEq K] in
theorem keys_take_succ (hn : n < t.valueStorage.length) :
    t.keys.take (n + 1) = t.keys.take n ++ [t.valueStorage[n].1] := by
  have hlen : n < t.keys.length := by rwa [keys, OrderedMap.keys, List.length_map]
  rw [List.take_succ_eq_append_getElem hlen]
  simp [keys, OrderedMap.keys]

theorem Served.place (h : t.Placed n) (hserved : t.Served n) (hn : n < t.valueStorage.length) :
    (∀ pos, t.findBucket t.valueStorage[n].1 = some pos →
        Served { t with d := t.d.set pos (n + 1) } (n + 1)) ∧
      (t.findBucket t.valueStorage[n].1 = none →
        serve [] ((t.keys.take (n + 1)).map (t.choices t.d.length)) = none) := by
  obtain ⟨used, hserve, hused⟩ := hserved
  have hkey : ∀ i, ∀ hi : i < t.valueStorage.length, i < n →
      t.valueStorage[i].1 ≠ t.valueStorage[n].1 := by
    intro i hi hlt heq
    exact Nat.ne_of_lt hlt (key_injective h.nodup hi hn heq)
  have hfree := findBucket_eq_free h hused hkey
  have hnext : serve [] ((t.keys.take (n + 1)).map (t.choices t.d.length)) =
      (t.findBucket t.valueStorage[n].1).map (· :: used) := by
    rw [keys_take_succ hn, List.map_append, serve_append, hserve, hfree]
    exact serve_singleton used _
  constructor
  · intro pos hfind
    obtain ⟨i, hi, hbucket, -⟩ := found_of_findBucket hfind
    have hpos : pos < t.d.length := by
      rw [← hbucket]
      exact bucket_lt h.d_pos _ i
    refine ⟨pos :: used, ?_, ?_⟩
    · rw [hfind] at hnext
      change serve [] ((t.keys.take (n + 1)).map (t.choices (t.d.set pos (n + 1)).length)) = _
      rw [List.length_set]
      exact hnext
    · intro q
      rw [slot_set hpos, List.mem_cons, ← hused]
      by_cases hq : q = pos
      · simp [hq]
      · simp [hq]
  · intro hfind
    rw [hnext, hfind]
    rfl

theorem placeLoop_served (rounds : Nat) (h : t.Placed n) (hserved : t.Served n)
    (hn : n + rounds = t.size) :
    (∀ t', placeLoop t rounds (n + 1) = some t' → t'.Filled) ∧
      ((placeLoop t rounds (n + 1)).isSome = true ↔
        (serve [] (t.keys.map (t.choices t.d.length))).isSome = true) := by
  induction rounds generalizing t n with
  | zero =>
    obtain rfl : n = t.size := hn
    obtain ⟨used, hserve, hused⟩ := hserved
    have hall : t.keys.take t.size = t.keys := by
      apply List.take_of_length_le
      rw [keys, OrderedMap.keys, List.length_map, size]
    have hsame : serve [] (t.keys.map (t.choices t.d.length)) = some used := by rwa [hall] at hserve
    constructor
    · intro t' ht'
      obtain rfl := Option.some.inj ht'
      exact ⟨used, hserve, hused⟩
    · rw [hsame]
      exact Iff.rfl
  | succ rounds ih =>
    have hlt : n < t.valueStorage.length := by
      rw [size] at hn
      omega
    have hplace := hserved.place h hlt
    rw [placeLoop, keyAt_succ t hlt]
    dsimp only
    cases hfind : t.findBucket t.valueStorage[n].1 with
    | none =>
      have hnone : serve [] (t.keys.map (t.choices t.d.length)) = none := by
        rw [← List.take_append_drop (n + 1) t.keys, List.map_append, serve_append,
          hplace.2 hfind]
        rfl
      rw [hnone]
      refine ⟨?_, Iff.rfl⟩
      intro t' ht'
      cases ht'
    | some pos =>
      have hrest := ih (h.place _ hlt (found_of_findBucket hfind)) (hplace.1 pos hfind)
        (show n + 1 + rounds = t.size by omega)
      refine ⟨hrest.1, ?_⟩
      rw [hrest.2]
      change (serve [] (t.keys.map (t.choices (t.d.set pos (n + 1)).length))).isSome = true ↔ _
      rw [List.length_set]

theorem fill_served (hnodup : (OrderedMap.keys t.valueStorage).Nodup) (hcount : 0 < count) :
    (∀ t', t.fill count = some t' → t'.Filled) ∧
      ((t.fill count).isSome = true ↔
        (serve [] (t.keys.map (t.choices count))).isSome = true) := by
  have hserved : Served { t with d := List.replicate count 0 } 0 := by
    refine ⟨[], rfl, ?_⟩
    intro pos
    simp
  obtain ⟨hfilled, hsome⟩ :=
    placeLoop_served t.size (placed_replicate hnodup hcount) hserved (Nat.zero_add _)
  refine ⟨hfilled, ?_⟩
  rw [fill, hsome]
  change (serve [] (t.keys.map (t.choices (List.replicate count 0).length))).isSome = true ↔ _
  rw [List.length_replicate]

theorem Filled.findBucket {key : K} (h : t.Valid) (hfilled : t.Filled) (hkey : key ∉ t.keys) :
    (t.findBucket key).isSome = true ↔
      (serve [] ((t.keys ++ [key]).map (t.choices t.d.length))).isSome = true := by
  obtain ⟨used, hserve, hused⟩ := hfilled
  have hall : t.keys.take t.size = t.keys := by
    apply List.take_of_length_le
    rw [keys, OrderedMap.keys, List.length_map, size]
  have hnew : ∀ i, ∀ hi : i < t.valueStorage.length, i < t.valueStorage.length →
      t.valueStorage[i].1 ≠ key := by
    rintro i hi - rfl
    exact hkey (List.mem_map_of_mem (List.getElem_mem hi))
  rw [hall] at hserve
  rw [findBucket_eq_free h hused hnew, List.map_append, serve_append, hserve]
  change _ ↔ (serve used [t.choices t.d.length key]).isSome = true
  rw [serve_singleton, Option.isSome_map]

omit [DecidableEq K] in
theorem length_keys (t : OADHashTable K V) : t.keys.length = t.size := by
  rw [keys, OrderedMap.keys, List.length_map, size]

theorem accepts_iff {key : K} (h : t.Valid) (hfilled : t.Filled) (hkey : key ∉ t.keys) :
    t.Accepts key ↔ t.Room (t.keys ++ [key]) t.d.length := by
  have hload : t.exceeds = false ↔ ((t.keys ++ [key]).length : ℚ) / t.d.length ≤ t.maxLoad := by
    rw [exceeds, decide_eq_false_iff_not, not_lt, List.length_append, length_keys,
      List.length_singleton]
  rw [Room, ← hload, ← hfilled.findBucket h hkey]
  constructor
  · rintro ⟨pos, hfind, hcase⟩
    have hzero := slot_of_not_mem h hkey hfind
    exact ⟨hcase.resolve_left (not_not.mpr hzero), by rw [hfind]; rfl⟩
  · rintro ⟨hexceeds, hfound⟩
    obtain ⟨pos, hfind⟩ := Option.isSome_iff_exists.mp hfound
    exact ⟨pos, hfind, .inr hexceeds⟩

omit [DecidableEq K] in
theorem Room.front {front ks : List K} (h : t.Room ks count) (hfront : front <+: ks) :
    t.Room front count := by
  refine ⟨le_trans ?_ h.1, serve_of_isPrefix (hfront.map _) h.2⟩
  have hle : (front.length : ℚ) ≤ ks.length := by exact_mod_cast hfront.length_le
  exact div_le_div_of_nonneg_right hle (Nat.cast_nonneg _)

theorem fill_accepts_iff {t' : OADHashTable K V} {key : K} (h : t.Valid) (hkey : key ∉ t.keys)
    (hcount : 0 < count) (hfill : t.fill count = some t') :
    t'.Accepts key ↔ t.Room (t.keys ++ [key]) count := by
  obtain ⟨hvalid', hsame, hlen⟩ := fill_spec h.nodup hcount hfill
  have hkeys : t'.keys = t.keys := by rw [hsame]; rfl
  have hroom : t'.Room = t.Room := by rw [hsame]; rfl
  rw [accepts_iff hvalid' ((fill_served h.nodup hcount).1 t' hfill) (by rwa [hkeys]), hkeys, hroom,
    hlen]

theorem Room.exists_fill {key : K} (h : t.Valid) (hcount : 0 < count)
    (hroom : t.Room (t.keys ++ [key]) count) : ∃ t', t.fill count = some t' :=
  Option.isSome_iff_exists.mp
    ((fill_served h.nodup hcount).2.mpr (hroom.front (List.prefix_append _ _)).2)

theorem grows_iff {key : K} (h : t.Valid) (hfilled : t.Filled) (hkey : key ∉ t.keys) :
    t.Grows key ↔ ∃ count, GrowsTo t.d.length count ∧ t.Room (t.keys ++ [key]) count := by
  constructor
  · rintro (haccepts | ⟨k, t', hlt, hfill, haccepts⟩)
    · exact ⟨_, .inl rfl, (accepts_iff h hfilled hkey).mp haccepts⟩
    · exact ⟨_, .inr ⟨k, rfl, hlt⟩, (fill_accepts_iff h hkey (grown_pos _ _) hfill).mp haccepts⟩
  · rintro ⟨count, rfl | ⟨k, rfl, hlt⟩, hroom⟩
    · exact .inl ((accepts_iff h hfilled hkey).mpr hroom)
    · obtain ⟨t', hfill⟩ := hroom.exists_fill h (grown_pos _ _)
      exact .inr ⟨k, t', hlt, hfill, (fill_accepts_iff h hkey (grown_pos _ _) hfill).mpr hroom⟩

theorem GrowsTo.trans {m : Nat} (h : GrowsTo n m) (h' : GrowsTo m count) : GrowsTo n count := by
  obtain rfl | ⟨k, rfl, hlt⟩ := h
  · exact h'
  · obtain rfl | ⟨j, rfl, hlt'⟩ := h'
    · exact .inr ⟨k, rfl, hlt⟩
    · exact .inr ⟨k + 1 + j, grown_grown _ _ _, hlt'⟩

theorem growsTo_grown {j k : Nat} (hle : j ≤ k) (hlt : grown count k < 2 ^ 64) :
    GrowsTo (grown count j) (grown count k) := by
  obtain ⟨i, rfl⟩ := Nat.exists_eq_add_of_le hle
  cases i with
  | zero => exact .inl rfl
  | succ i =>
    refine .inr ⟨i, ?_, hlt⟩
    rw [grown_grown, Nat.add_assoc, Nat.add_comm 1 i]

omit [DecidableEq K] in
theorem Served.congr {t t' : OADHashTable K V} (h : t.Served n) (hd : t'.d = t.d)
    (hkeys : t'.keys.take n = t.keys.take n) (hcollisions : t'.maxCollisions = t.maxCollisions)
    (hhash1 : t'.hash1 = t.hash1) (hhash2 : t'.hash2 = t.hash2) : t'.Served n := by
  obtain ⟨used, hserve, hused⟩ := h
  have hchoices : t'.choices = t.choices := by
    funext count key
    rw [choices, choices, hcollisions, hhash1, hhash2]
  refine ⟨used, ?_, ?_⟩
  · rw [hd, hkeys, hchoices, hserve]
  · intro pos
    rw [slot, hd]
    exact hused pos

theorem rehash_filled {fuel : Nat} {t t' : OADHashTable K V}
    (hnodup : (OrderedMap.keys t.valueStorage).Nodup) (h : rehash fuel t count = some t') :
    t'.Filled := by
  obtain ⟨k, -, hk, -⟩ := rehash_eq h
  exact (fill_served hnodup (grown_pos count k)).1 t' hk

section Index

variable [Inhabited V]

variable {fuel : Nat}

theorem index_filled {t t' : OADHashTable K V} {key : K} {cp : Nat} (h : t.Valid)
    (hfilled : t.Filled) (hindex : index fuel t key = some (.ok (t', cp))) :
    t'.Filled ∧ t'.Room = t.Room := by
  obtain ⟨t₁, pos, hvalid₁, hsame, hrehashed, hfind, hresult⟩ := index_eq_some h hindex
  have hfilled₁ : t₁.Filled := by
    rcases hrehashed with rfl | ⟨_, t₀, _, hvalid₀, hrehash⟩
    · exact hfilled
    · exact rehash_filled hvalid₀.nodup hrehash
  have hvalues : t₁.valueStorage = t.valueStorage := by rw [hsame]
  have hroom : t₁.Room = t.Room := by
    rw [hsame]
    rfl
  obtain ⟨-, hresult⟩ | ⟨hkey, hresult⟩ := hresult
  · obtain ⟨rfl, -⟩ := Prod.mk.inj (Except.ok.inj hresult)
    exact ⟨hfilled₁, hroom⟩
  · by_cases hsize : t.size + 1 > t.sizeMax
    · rw [if_pos hsize] at hresult
      cases hresult
    · rw [if_neg hsize, ← hvalues, ← (show t₁.size = t.size by rw [size, hvalues, size])] at hresult
      obtain ⟨rfl, -⟩ := Prod.mk.inj (Except.ok.inj hresult)
      have hkey : key ∉ t₁.keys := by rwa [keys, hvalues]
      obtain ⟨hplaced, hfound⟩ := Placed.append (default : V) hvalid₁ hkey
      have hserved : Served { t₁ with valueStorage := t₁.valueStorage ++ [(key, default)] }
          t₁.size := by
        refine hfilled₁.congr rfl ?_ rfl rfl rfl
        rw [keys, OrderedMap.keys_append, List.take_append_of_le_length]
        · rfl
        · exact Nat.le_of_eq (length_keys t₁).symm
      have hlt : t₁.size < (t₁.valueStorage ++ [(key, (default : V))]).length := by
        rw [List.length_append, List.length_singleton]
        exact Nat.lt_succ_self _
      have hlast : (t₁.valueStorage ++ [(key, (default : V))])[t₁.size].1 = key := by
        simp [size]
      refine ⟨?_, hroom⟩
      have hnewFind : findBucket { t₁ with valueStorage := t₁.valueStorage ++ [(key, default)] }
          (t₁.valueStorage ++ [(key, (default : V))])[t₁.size].1 = some pos := by
        rw [hlast]
        exact (findBucket_eq_some hplaced.d_pos).mpr (hfound key pos (found_of_findBucket hfind))
      have hnext := (hserved.place hplaced hlt).1 pos hnewFind
      have hlen : (t₁.valueStorage ++ [(key, (default : V))]).length = t₁.size + 1 := by simp [size]
      change Served _ (t₁.valueStorage ++ [(key, (default : V))]).length
      rw [hlen]
      exact hnext

/-- The table gets the first number of slots that has room for the new key. -/
theorem index_grows {t t' : OADHashTable K V} {key : K} {cp : Nat} (h : t.Valid)
    (hfilled : t.Filled) (hkey : key ∉ t.keys) (hindex : index fuel t key = some (.ok (t', cp))) :
    GrowsTo t.d.length t'.d.length ∧ ∀ count, GrowsTo t.d.length count →
      t.Room (t.keys ++ [key]) count → GrowsTo t'.d.length count := by
  induction fuel generalizing t with
  | zero => cases hindex
  | succ fuel ih =>
    by_cases haccepts : t.Accepts key
    · obtain ⟨pos, -, heq⟩ := index_of_accepts haccepts fuel
      have hlen : t'.d.length = t.d.length := by
        rw [heq] at hindex
        split at hindex
        · obtain ⟨rfl, -⟩ := Prod.mk.inj (some_ok_inj hindex)
          rfl
        · split at hindex
          · cases hindex
          · obtain ⟨rfl, -⟩ := Prod.mk.inj (some_ok_inj hindex)
            exact List.length_set
      exact ⟨.inl hlen, fun count hcount _ => by rwa [hlen]⟩
    · obtain ⟨t₁, hrehash, hindex⟩ := exists_rehash_of_index haccepts hindex
      obtain ⟨k, hlt, hfill, hfirst⟩ := rehash_eq hrehash
      obtain ⟨hvalid₁, hsame₁, hlen₁⟩ := fill_spec h.nodup (grown_pos _ _) hfill
      have hkeys : t₁.keys = t.keys := by rw [hsame₁]; rfl
      have hroom₁ : t₁.Room = t.Room := by rw [hsame₁]; rfl
      obtain ⟨hgrows, hleast⟩ :=
        ih hvalid₁ (rehash_filled h.nodup hrehash) (by rwa [hkeys]) hindex
      rw [hkeys, hroom₁, hlen₁] at hleast
      rw [hlen₁] at hgrows
      refine ⟨GrowsTo.trans (.inr ⟨k, rfl, hlt⟩) hgrows, ?_⟩
      rintro count (rfl | ⟨j, rfl, hltj⟩) hroom
      · exact absurd ((accepts_iff h hfilled hkey).mpr hroom) haccepts
      · refine hleast _ (growsTo_grown ?_ hltj) hroom
        by_contra hbefore
        obtain ⟨t₂, hfill₂⟩ := hroom.exists_fill h (grown_pos _ _)
        rw [hfirst j (Nat.not_le.mp hbefore)] at hfill₂
        cases hfill₂

omit [DecidableEq K] [Inhabited V] in
theorem keys_modify (m : List (K × V)) (i : Nat) (v : V) :
    OrderedMap.keys (m.modify i fun entry => (entry.1, v)) = OrderedMap.keys m := by
  rw [OrderedMap.keys, OrderedMap.keys]
  apply List.ext_getElem?
  intro j
  rw [List.getElem?_map, List.getElem?_map, List.getElem?_modify]
  cases m[j]? with
  | none => rfl
  | some entry =>
    by_cases hij : i = j
    · simp [hij]
    · simp [hij]

theorem step_filled {t t' : OADHashTable K V} {op : Op K V} (h : t.Valid) (hfilled : t.Filled)
    (hstep : t.step fuel op = some (.ok t')) : t'.Filled := by
  have hrehash : ∀ (t₀ : OADHashTable K V) {t₁ : OADHashTable K V} {count : Nat},
      (OrderedMap.keys t₀.valueStorage).Nodup →
      (rehash fuel t₀ count).map Except.ok = some (.ok t₁ : Except Fault (OADHashTable K V)) →
      t₁.Filled := by
    intro t₀ t₁ count hnodup hmap
    obtain ⟨t₂, hrehash, heq⟩ := Option.map_eq_some_iff.mp hmap
    obtain rfl := Except.ok.inj heq
    exact rehash_filled hnodup hrehash
  cases op with
  | assign key v =>
    simp only [step, OADHashTable.assign] at hstep
    split at hstep
    · cases hstep
    · cases hstep
    · rename_i t₁ cp hindex
      obtain ⟨hfilled₁, -⟩ := index_filled h hfilled hindex
      obtain rfl := some_ok_inj hstep
      rw [Filled, size, List.length_modify]
      refine hfilled₁.congr rfl ?_ rfl rfl rfl
      rw [keys, keys_modify]
      rfl
  | insert key =>
    simp only [step, OADHashTable.insert] at hstep
    split at hstep
    · cases hstep
    · cases hstep
    · rename_i t₁ cp hindex
      obtain rfl := some_ok_inj hstep
      exact (index_filled h hfilled hindex).1
  | reserve count =>
    simp only [step, OADHashTable.reserve] at hstep
    split at hstep
    · exact hrehash _ h.nodup hstep
    · obtain rfl := some_ok_inj hstep
      exact hfilled
  | rehash count => exact hrehash _ h.nodup hstep
  | maxLoadFactor f =>
    simp only [step, OADHashTable.maxLoadFactor] at hstep
    split at hstep
    · split at hstep
      · cases hstep
      · exact hrehash { t with maxLoad := f } h.nodup hstep
    · obtain rfl := some_ok_inj hstep
      exact hfilled.congr rfl rfl rfl rfl rfl
  | maxCollisions count => exact hrehash { t with maxCollisions := count } h.nodup hstep
  | sort op =>
    have hnodup : (OrderedMap.keys (op.sort t.valueStorage)).Nodup :=
      ((op.perm t.valueStorage).map Prod.fst).nodup_iff.mpr h.nodup
    exact hrehash { t with valueStorage := op.sort t.valueStorage } hnodup hstep
  | clear =>
    obtain rfl := some_ok_inj hstep
    refine ⟨[], rfl, ?_⟩
    intro pos
    change slot { t with d := List.replicate 16 0 } pos ≠ 0 ↔ _
    rw [slot_replicate]
    simp

theorem run_filled {t t' : OADHashTable K V} {ops : List (Op K V)} (h : t.Valid)
    (hfilled : t.Filled) (hrun : run fuel t ops = some (.ok t')) : t'.Filled := by
  induction ops generalizing t with
  | nil =>
    obtain rfl := some_ok_inj hrun
    exact hfilled
  | cons op ops ih =>
    rw [run] at hrun
    split at hrun
    · cases hrun
    · cases hrun
    · rename_i t₁ hstep
      exact ih (step_spec h hstep).1 (step_filled h hfilled hstep) hrun

theorem insert_spec {t t' : OADHashTable K V} {key : K} (h : t.Valid) (hfilled : t.Filled)
    (hkey : key ∉ t.keys) (hstep : t.step fuel (.insert key) = some (.ok t')) :
    t'.keys = t.keys ++ [key] ∧ t'.Room = t.Room ∧ GrowsTo t.d.length t'.d.length ∧
      ∀ count, GrowsTo t.d.length count → t.Room (t.keys ++ [key]) count →
        GrowsTo t'.d.length count := by
  have hvalues := (step_spec h hstep).2.1
  have hnew : key ∉ OrderedMap.keys t.valueStorage := hkey
  constructor
  · rw [keys, hvalues, Op.apply, OrderedMap.insert, if_neg hnew, OrderedMap.keys_append]
    rfl
  · simp only [step, OADHashTable.insert] at hstep
    split at hstep
    · cases hstep
    · cases hstep
    · rename_i t₁ cp hindex
      obtain rfl := some_ok_inj hstep
      exact ⟨(index_filled h hfilled hindex).2, index_grows h hfilled hkey hindex⟩

theorem runReady_inserts_iff {t : OADHashTable K V} {key : K} {ks : List K} (h : t.Valid)
    (hfilled : t.Filled) (hnodup : (t.keys ++ key :: ks).Nodup)
    (hbound : (t.keys ++ key :: ks).length < t.sizeMax) :
    t.RunReady ((key :: ks).map .insert) ↔
      ∃ count, GrowsTo t.d.length count ∧ t.Room (t.keys ++ key :: ks) count := by
  have hkey : key ∉ t.keys := by
    intro hmem
    exact (List.nodup_append.mp hnodup).2.2 key hmem key List.mem_cons_self rfl
  have hgrows := grows_iff h hfilled hkey
  induction ks generalizing t key with
  | nil => exact (and_iff_left fun _ _ _ => trivial).trans hgrows
  | cons key' ks ih =>
    have hcons : t.keys ++ key :: key' :: ks = t.keys ++ [key] ++ key' :: ks := by
      rw [List.append_assoc, List.singleton_append]
    have hrest : ∀ {fuel : Nat} {t' : OADHashTable K V},
        t.step fuel (.insert key) = some (.ok t') → (t'.RunReady ((key' :: ks).map .insert) ↔
          ∃ count, GrowsTo t'.d.length count ∧ t.Room (t.keys ++ key :: key' :: ks) count) := by
      intro fuel t' hstep
      obtain ⟨hvalid', -, hmax⟩ := step_spec h hstep
      have hfilled' := step_filled h hfilled hstep
      obtain ⟨hkeys, hroom, -⟩ := insert_spec h hfilled hkey hstep
      rw [hcons, ← hkeys] at hnodup hbound ⊢
      have hkey' : key' ∉ t'.keys := by
        intro hmem
        exact (List.nodup_append.mp hnodup).2.2 key' hmem key' List.mem_cons_self rfl
      rw [← hroom]
      exact ih hvalid' hfilled' hnodup (by rwa [hmax]) hkey' (grows_iff hvalid' hfilled' hkey')
    change t.Grows key ∧ _ ↔ _
    constructor
    · rintro ⟨hready, hall⟩
      obtain ⟨fuel, r, hstep⟩ := (step_returns h).mpr (show (Op.insert key).Ready t from hready)
      cases r with
      | error e =>
        have hfull := step_error h hstep
        have hnew : key ∉ OrderedMap.keys t.valueStorage := hkey
        have hlen := length_keys t
        rw [Op.apply, OrderedMap.insert, if_neg hnew, List.length_append, List.length_singleton]
          at hfull
        rw [List.length_append, List.length_cons, hlen, size] at hbound
        omega
      | ok t' =>
        obtain ⟨count, hcount, hroom⟩ := (hrest hstep).mp (hall fuel t' hstep)
        exact ⟨count, (insert_spec h hfilled hkey hstep).2.2.1.trans hcount, hroom⟩
    · rintro ⟨count, hcount, hroom⟩
      have hfirst : t.Room (t.keys ++ [key]) count := by
        refine hroom.front ?_
        rw [hcons]
        exact List.prefix_append _ _
      refine ⟨hgrows.mpr ⟨count, hcount, hfirst⟩, ?_⟩
      intro fuel t' hstep
      exact (hrest hstep).mpr ⟨count, (insert_spec h hfilled hkey hstep).2.2.2 count hcount hfirst, hroom⟩

theorem bounded_inserts {sizeMax : Nat} {m : List (K × V)} (ks : List K)
    (h : m.length + ks.length < sizeMax) : Bounded sizeMax m (ks.map .insert) := by
  induction ks generalizing m with
  | nil => trivial
  | cons key ks ih =>
    have hle := OrderedMap.length_insert_le key (default : V) m
    rw [List.length_cons] at h
    exact ⟨by rw [Op.apply]; omega, ih (by rw [Op.apply]; omega)⟩

omit [DecidableEq K] [Inhabited V] in
theorem filled_new (hash1 hash2 : K → UInt64) (sizeMax : Nat) :
    (new hash1 hash2 sizeMax : OADHashTable K V).Filled := by
  refine ⟨[], rfl, ?_⟩
  intro pos
  have hslot := slot_replicate (new hash1 hash2 sizeMax : OADHashTable K V) 16 pos
  change slot { (new hash1 hash2 sizeMax : OADHashTable K V) with d := List.replicate 16 0 } pos ≠ 0 ↔ _
  rw [hslot]
  simp

/-- Inserting new keys ends if and only if one of the numbers of slots to which the table grows has
room for them and those that the table holds. -/
theorem oadHashTable_inserts_end {hash1 hash2 : K → UInt64} {sizeMax fuel : Nat}
    {ops : List (Op K V)} {t : OADHashTable K V}
    (hrun : run fuel (new hash1 hash2 sizeMax) ops = some (.ok t)) {key : K} {ks : List K}
    (hnodup : (t.keys ++ key :: ks).Nodup) (hbound : (t.keys ++ key :: ks).length < sizeMax) :
    (∃ fuel t', run fuel t ((key :: ks).map .insert) = some (.ok t')) ↔
      ∃ count, GrowsTo t.d.length count ∧ t.Room (t.keys ++ key :: ks) count := by
  have hnew : (new hash1 hash2 sizeMax : OADHashTable K V).Valid := valid_new hash1 hash2 sizeMax
  have hvalid := (run_spec hnew hrun).1
  have hfilled := run_filled hnew (filled_new hash1 hash2 sizeMax) hrun
  have hmax : t.sizeMax = sizeMax := (run_size hnew (Nat.zero_le _) hrun).2
  rw [← runReady_inserts_iff hvalid hfilled hnodup (by rwa [hmax])]
  refine run_returns hvalid (bounded_inserts _ ?_)
  rwa [hmax, ← size, ← length_keys, ← List.length_append]

/-- Two keys whose probes start at the same slot and part then. -/
theorem oadHashTable_inserts_end_two :
    (∃ fuel t', run fuel (new (fun _ => 4) (fun k : Nat => UInt64.ofNat (2 * k)) 10)
        ([3, 5].map .insert : List (Op Nat Nat)) = some (.ok t')) ↔
      ∃ count, GrowsTo 16 count ∧
        (new (fun _ => 4) (fun k : Nat => UInt64.ofNat (2 * k)) 10 : OADHashTable Nat Nat).Room
          [3, 5] count := by
  have hrun : run 0 (new (fun _ => 4) (fun k : Nat => UInt64.ofNat (2 * k)) 10)
      ([] : List (Op Nat Nat)) = some (.ok (new (fun _ => 4) (fun k => UInt64.ofNat (2 * k)) 10)) := rfl
  exact oadHashTable_inserts_end hrun (by decide) (by decide)

/-- Both hash functions are constant. -/
theorem not_inserts_end :
    ¬ ∀ (hash1 hash2 : Nat → UInt64) (ks : List Nat), ks.Nodup →
      ∃ fuel r, run fuel (new hash1 hash2 (2 ^ 32 - 1) : OADHashTable Nat Nat)
        (ks.map .insert) = some r := by
  intro h
  obtain ⟨fuel, r, hrun⟩ := h (fun _ => 0) (fun _ => 0) [0, 1] (by decide)
  cases (run_const fuel).symm.trans hrun

end Index

end Sserialize.OADHashTable
