import Sserialize.ItemIndex.ItemIndexFactory
import Sserialize.ItemIndex.RleDERoundTrip
import Sserialize.Library.Packed

namespace Sserialize.ItemIndexFactory

variable {DataHashKey : Type}

structure Entry where
  ids : List Nat
  data : Bytes
  type : Nat
  deriving Repr, DecidableEq

def parts (entries : List Entry) : List Bytes := entries.map Entry.data

section

variable [DecidableEq DataHashKey] (codec : ItemIndexCodec) (hashFunc : Bytes → DataHashKey)

/-- The factories that calls of `addIndex` lead to, with the indexes they store. A call that throws
is not one of them. -/
inductive Reaches (start : ItemIndexFactory DataHashKey) :
    ItemIndexFactory DataHashKey → List Entry → Prop
  | start : Reaches start start []
  | known {f f' : ItemIndexFactory DataHashKey} {entries : List Entry} {idx : List Nat} {id : Nat}
      (h : Reaches start f entries) (hadd : f.addIndex codec hashFunc idx = .ok (id, f'))
      (hcounter : f'.idCounter = f.idCounter) : Reaches start f' entries
  | added {f f' : ItemIndexFactory DataHashKey} {entries : List Entry} {idx : List Nat}
      {id type : Nat} {s : Bytes} (h : Reaches start f entries)
      (hcreate : codec.create idx f.type = .ok (s, type))
      (hadd : f.addIndex codec hashFunc idx = .ok (id, f'))
      (hcounter : f'.idCounter ≠ f.idCounter) : Reaches start f' (entries ++ [⟨idx, s, type⟩])

def hashOf (entries : List Entry) : DataHashKey → Option Nat :=
  entries.zipIdx.foldl (fun hash e => Function.update hash (hashFunc e.1.data) (some e.2))
    fun _ => none

/-- Every index is read as it was stored, and exactly its bytes are hashed. -/
structure Right (f : ItemIndexFactory DataHashKey) (entries : List Entry) : Prop where
  sizes : ∀ id e, entries[id]? = some e → f.dataSizeById id = .ok e.data.length
  data : ∀ id e, entries[id]? = some e → f.indexDataById id = .ok e.data
  decodes : ∀ id e, entries[id]? = some e → f.indexById codec id = .ok e.ids
  hashes : f.recalculateDeduplicationData hashFunc = .ok { f with hash := hashOf hashFunc entries }

end

def keptType (f : ItemIndexFactory DataHashKey) (type : Nat) : Nat :=
  if isMultiple f.type then type % 2 ^ 8 else f.type

def EndFits (entries : List Entry) : Prop :=
  (parts entries).flatten.length = if auxDataGrow ∣ entries.length then entries.length else 0

def tableSize (n : Nat) : Nat := auxDataGrow * ((n + (auxDataGrow - 1)) / auxDataGrow)

theorem le_tableSize (n : Nat) : n ≤ tableSize n := by
  rw [tableSize, auxDataGrow]
  omega

theorem tableSize_eq_iff (n : Nat) : tableSize n = n ↔ auxDataGrow ∣ n := by
  rw [tableSize, auxDataGrow]
  omega

def table {α : Type} (xs : List α) (z : α) : List α :=
  xs ++ List.replicate (tableSize xs.length - xs.length) z

variable {α : Type}

theorem length_table (xs : List α) (z : α) : (table xs z).length = tableSize xs.length := by
  have hle := le_tableSize xs.length
  rw [table, List.length_append, List.length_replicate]
  omega

theorem getElem?_table_end (xs : List α) (z : α) :
    (table xs z)[xs.length]? = if tableSize xs.length = xs.length then none else some z := by
  have hle := le_tableSize xs.length
  rw [table, List.getElem?_append_right le_rfl, Nat.sub_self]
  by_cases hfull : tableSize xs.length = xs.length
  · rw [if_pos hfull, hfull, Nat.sub_self]
    rfl
  · rw [if_neg hfull, List.getElem?_replicate_of_lt (by omega)]

theorem assign_table {xs grown v : List α} {x z : α}
    (hgrow : tableSize xs.length ≤ xs.length →
      grown = MMVector.resize (table xs z) (xs.length + auxDataGrow) z)
    (hkeep : ¬ tableSize xs.length ≤ xs.length → grown = table xs z)
    (h : MMVector.assign grown xs.length x = .ok v) : v = table (xs ++ [x]) z := by
  have hle := le_tableSize xs.length
  have hset : ∀ m, 0 < m → (xs ++ List.replicate m z).set xs.length x =
      xs ++ [x] ++ List.replicate (m - 1) z := by
    intro m hm
    obtain ⟨m, rfl⟩ : ∃ k, m = k + 1 := ⟨m - 1, by omega⟩
    rw [List.set_append_right xs.length x le_rfl, Nat.sub_self, List.replicate_succ,
      List.set_cons_zero, List.append_assoc]
    rfl
  have hnext : ∀ m, xs.length + m = tableSize (xs.length + 1) →
      xs ++ [x] ++ List.replicate (m - 1) z = table (xs ++ [x]) z := by
    intro m hm
    have hcount : m - 1 = tableSize (xs ++ [x]).length - (xs ++ [x]).length := by
      rw [List.length_append, List.length_singleton, ← hm]
      omega
    rw [table, ← hcount]
  rw [MMVector.assign] at h
  by_cases hfull : tableSize xs.length ≤ xs.length
  · have hsize : tableSize xs.length = xs.length := Nat.le_antisymm hfull hle
    have htable : table xs z = xs := by
      rw [table, hsize, Nat.sub_self, List.replicate_zero, List.append_nil]
    have hresize : MMVector.resize xs (xs.length + auxDataGrow) z =
        xs ++ List.replicate auxDataGrow z := by
      rw [MMVector.resize, List.take_of_length_le (Nat.le_add_right _ _), Nat.add_sub_cancel_left]
    rw [hgrow hfull, htable, hresize, if_pos (by
      rw [List.length_append, List.length_replicate, auxDataGrow]
      omega)] at h
    rw [← Except.ok.inj h, hset _ (by decide)]
    apply hnext
    rw [tableSize, auxDataGrow] at hsize ⊢
    omega
  · rw [hkeep hfull, if_pos (by
      rw [length_table]
      omega)] at h
    rw [← Except.ok.inj h, table, hset _ (by omega)]
    apply hnext
    simp only [tableSize, auxDataGrow] at hfull ⊢
    omega

variable {f f' : ItemIndexFactory DataHashKey}

theorem pushData_spec {used rest idx : Bytes} (h : f.pushData used.length idx = .ok f')
    (hstore : f.indexStore = used ++ rest) (hroom : f.offSet + f.indexStore.length < 2 ^ 64) :
    ∃ rest', f' = { f with indexStore := used ++ idx ++ rest' } ∧
      f.offSet + (used ++ idx ++ rest').length < 2 ^ 64 := by
  obtain ⟨store, hput, hf⟩ := bind_eq_ok h
  rw [← Except.ok.inj hf]
  clear h hf
  -- the store that is written to still begins with the used bytes
  obtain ⟨rest₁, hgrown, hroom₁⟩ : ∃ rest₁, (if (used.length + idx.length) % 2 ^ 64 ≥
      f.indexStore.length then UByteArrayAdapter.growStorage f.offSet f.indexStore
        (max ((used.length + idx.length) % 2 ^ 64 - f.indexStore.length) f.growSize)
      else f.indexStore) = used ++ rest₁ ∧ f.offSet + (used ++ rest₁).length < 2 ^ 64 := by
    by_cases hsize : (used.length + idx.length) % 2 ^ 64 ≥ f.indexStore.length
    · rw [if_pos hsize, UByteArrayAdapter.growStorage]
      generalize max ((used.length + idx.length) % 2 ^ 64 - f.indexStore.length) f.growSize = byte
      by_cases hfits : f.offSet + f.indexStore.length + byte < 2 ^ 64
      · refine ⟨rest ++ List.replicate byte 0, ?_, ?_⟩
        · rw [if_pos hfits, hstore, List.append_assoc]
        · rw [← List.append_assoc, ← hstore, List.length_append, List.length_replicate,
            ← Nat.add_assoc]
          exact hfits
      · refine ⟨rest, ?_, hstore ▸ hroom⟩
        rw [if_neg hfits, hstore]
    · refine ⟨rest, ?_, hstore ▸ hroom⟩
      rw [if_neg hsize, hstore]
  rw [hgrown, UByteArrayAdapter.putData] at hput
  by_cases hnil : idx = []
  · rw [if_pos hnil] at hput
    refine ⟨rest₁, ?_, ?_⟩
    · rw [← Except.ok.inj hput, hnil, List.append_nil]
    · rw [hnil, List.append_nil]
      exact hroom₁
  · rw [if_neg hnil] at hput
    obtain ⟨-, hput⟩ := ok_of_ite_error hput
    obtain ⟨hle, hput⟩ := ok_of_ite hput
    rw [List.take_left] at hput
    refine ⟨(used ++ rest₁).drop (used.length + idx.length), ?_, ?_⟩
    · rw [← Except.ok.inj hput]
    · rw [List.length_append, List.length_append, List.length_drop]
      omega

structure Stores (f : ItemIndexFactory DataHashKey) (entries : List Entry) : Prop where
  counter : f.idCounter = entries.length
  limit : entries.length ≤ invalidId
  dataOffset : f.dataOffset = (parts entries).flatten.length
  store : ∃ rest, f.indexStore = (parts entries).flatten ++ rest
  room : f.offSet + f.indexStore.length < 2 ^ 64
  offsets : f.idToOffsets =
    table ((List.range entries.length).map (Packed.offset (parts entries))) 0
  sizes : f.idxSizes = table (entries.map fun e => e.ids.length) 0
  types : isMultiple f.type = true →
    f.idxTypes = table (entries.map fun e => e.type % 2 ^ 8) 0

theorem stores_new {indexStore : Bytes} {offSet : Nat} (type growSize : Nat)
    (checkIndex useDeduplication : Bool) (hroom : offSet + indexStore.length < 2 ^ 64) :
    Stores (new indexStore offSet type growSize checkIndex useDeduplication :
      ItemIndexFactory DataHashKey) [] :=
  ⟨rfl, Nat.zero_le _, rfl, ⟨indexStore, rfl⟩, hroom, rfl, rfl, fun _ => rfl⟩

variable {entries : List Entry}

theorem Stores.flatten_lt {f : ItemIndexFactory DataHashKey} (h : Stores f entries) :
    (parts entries).flatten.length < 2 ^ 64 := by
  obtain ⟨rest, hrest⟩ := h.store
  have hroom := h.room
  rw [hrest, List.length_append] at hroom
  omega

theorem Stores.lengthOffsets {f : ItemIndexFactory DataHashKey} (h : Stores f entries) :
    f.idToOffsets.length = tableSize entries.length := by
  rw [h.offsets, length_table, List.length_map, List.length_range]

theorem parts_append (entries : List Entry) (e : Entry) :
    parts (entries ++ [e]) = parts entries ++ [e.data] := by
  rw [parts, parts, List.map_append, List.map_singleton]

theorem flatten_parts_append (entries : List Entry) (e : Entry) :
    (parts (entries ++ [e])).flatten = (parts entries).flatten ++ e.data := by
  rw [parts_append, List.flatten_append, List.flatten_singleton]

theorem length_parts (entries : List Entry) : (parts entries).length = entries.length :=
  List.length_map _

theorem offsets_append (entries : List Entry) (e : Entry) :
    (List.range (entries ++ [e]).length).map (Packed.offset (parts (entries ++ [e]))) =
      (List.range entries.length).map (Packed.offset (parts entries)) ++
        [(parts entries).flatten.length] := by
  rw [List.length_append, List.length_singleton, List.range_succ, List.map_append,
    List.map_singleton, parts_append]
  congr 1
  · apply List.map_congr_left
    intro id hid
    apply Packed.offset_append
    rw [length_parts]
    exact (List.mem_range.mp hid).le
  · rw [← length_parts, Packed.offset_append le_rfl, Packed.offset_length]

theorem assign_spec {xs v vs : List α} {x z : α} {n : Nat} {grow : Prop} [Decidable grow]
    (hgrow : grow ↔ tableSize n ≤ n) (hxs : xs.length = n) (hvs : vs = table xs z)
    (h : MMVector.assign (if grow then MMVector.resize vs (n + auxDataGrow) z else vs) n x =
      .ok v) :
    v = table (xs ++ [x]) z := by
  rw [hvs, ← hxs] at h
  rw [← hxs] at hgrow
  exact assign_table (fun hfull => if_pos (hgrow.mpr hfull))
    (fun hfree => if_neg fun hg => hfree (hgrow.mp hg)) h

theorem Stores.adjustAux {e : Entry}
    (h : f.adjustAux entries.length (parts entries).flatten.length e.ids.length e.type = .ok f')
    (hoffsets : f.idToOffsets =
      table ((List.range entries.length).map (Packed.offset (parts entries))) 0)
    (hsizes : f.idxSizes = table (entries.map fun e => e.ids.length) 0)
    (htypes : isMultiple f.type = true →
      f.idxTypes = table (entries.map fun e => e.type % 2 ^ 8) 0) :
    ∃ types, f' = { f with
      idToOffsets := table ((List.range (entries ++ [e]).length).map
        (Packed.offset (parts (entries ++ [e])))) 0
      idxSizes := table ((entries ++ [e]).map fun e => e.ids.length) 0
      idxTypes := types } ∧
    (isMultiple f.type = true →
      types = table ((entries ++ [e]).map fun e => e.type % 2 ^ 8) 0) := by
  obtain ⟨idToOffsets, hassign, h⟩ := bind_eq_ok h
  obtain ⟨idxSizes, hsize, h⟩ := bind_eq_ok h
  obtain ⟨idxTypes, htype, h⟩ := bind_eq_ok h
  have hlength : ((List.range entries.length).map (Packed.offset (parts entries))).length =
      entries.length := by rw [List.length_map, List.length_range]
  have hgrow : f.idToOffsets.length ≤ entries.length ↔
      tableSize entries.length ≤ entries.length := by
    rw [hoffsets, length_table, hlength]
  refine ⟨idxTypes, ?_, fun hmultiple => ?_⟩
  · rw [offsets_append, List.map_append, List.map_singleton,
      ← assign_spec hgrow hlength hoffsets hassign,
      ← assign_spec hgrow (List.length_map _) hsizes hsize]
    exact (Except.ok.inj h).symm
  · rw [assignType, if_pos hmultiple] at htype
    rw [List.map_append, List.map_singleton]
    exact assign_spec ((and_iff_left hmultiple).trans hgrow) (List.length_map _)
      (htypes hmultiple) htype

variable [DecidableEq DataHashKey] {codec : ItemIndexCodec} {hashFunc : Bytes → DataHashKey}

theorem Stores.addData {ids : List Nat} {s : Bytes} {type id : Nat} (h : Stores f entries)
    (hadd : f.addData hashFunc s ids.length type = .ok (id, f')) :
    (f'.idCounter = f.idCounter ∧ f.hash (hashFunc s) ≠ none ∧ Stores f' entries) ∨
      (f'.idCounter ≠ f.idCounter ∧ Stores f' (entries ++ [⟨ids, s, type⟩])) := by
  rw [ItemIndexFactory.addData] at hadd
  cases hknown : (if f.useDeduplication then f.hash (hashFunc s) else none) with
  | some known =>
    rw [hknown] at hadd
    have hf := (Prod.mk.inj (Except.ok.inj hadd)).2
    have hhash : f.hash (hashFunc s) ≠ none := by
      intro hnone
      rw [hnone, ite_self] at hknown
      cases hknown
    rw [← hf]
    exact .inl ⟨rfl, hhash,
      ⟨h.counter, h.limit, h.dataOffset, h.store, h.room, h.offsets, h.sizes, h.types⟩⟩
  | none =>
    rw [hknown] at hadd
    dsimp only at hadd
    obtain ⟨hlimit, hadd⟩ := ok_of_ite_error hadd
    obtain ⟨f₁, hpush, hadd⟩ := bind_eq_ok hadd
    obtain ⟨f₂, hadjust, hadd⟩ := bind_eq_ok hadd
    have hf := (Prod.mk.inj (Except.ok.inj hadd)).2
    obtain ⟨rest, hrest⟩ := h.store
    rw [h.dataOffset] at hpush hadjust
    obtain ⟨rest', hf₁, hroom⟩ := pushData_spec hpush hrest h.room
    rw [hf₁, h.counter] at hadjust
    have hdata : (parts entries).flatten.length + s.length < 2 ^ 64 := by
      rw [List.length_append, List.length_append] at hroom
      dsimp only at hroom
      omega
    obtain ⟨types, hf₂, htypes⟩ :=
      Stores.adjustAux (e := ⟨ids, s, type⟩) hadjust h.offsets h.sizes h.types
    right
    rw [← hf, hf₂]
    refine ⟨?_, ?_, ?_, ?_, ⟨rest', ?_⟩, ?_, rfl, rfl, htypes⟩
    · change entries.length + 1 ≠ f.idCounter
      rw [h.counter]
      exact Nat.succ_ne_self _
    · rw [List.length_append, List.length_singleton]
    · rw [h.counter] at hlimit
      rw [List.length_append, List.length_singleton]
      omega
    · change ((parts entries).flatten.length + s.length) % 2 ^ 64 = _
      rw [flatten_parts_append, List.length_append]
      exact Nat.mod_eq_of_lt hdata
    · rw [flatten_parts_append]
    · exact hroom

theorem eq_of_narrowCheck32 {n m : Nat} (h : narrowCheck32 n = .ok m) : m = n := by
  by_cases hn : n < 2 ^ 32
  · rw [narrowCheck32_of_lt hn] at h
    exact (Except.ok.inj h).symm
  · rw [narrowCheck32_of_le (Nat.not_lt.mp hn)] at h
    cases h

theorem exists_of_addIndex {idx : List Nat} {id : Nat}
    (h : f.addIndex codec hashFunc idx = .ok (id, f')) :
    ∃ s type, codec.create idx f.type = .ok (s, type) ∧
      (f.checkIndex = true → codec.read s type = .ok idx) ∧
      f.addData hashFunc s idx.length type = .ok (id, f') := by
  obtain ⟨⟨s, type⟩, hcreate, h⟩ := bind_eq_ok h
  dsimp only at h
  obtain ⟨-, h⟩ := ok_of_ite h
  by_cases hcheck : f.checkIndex = true
  · rw [if_pos hcheck] at h
    obtain ⟨sidx, hread, h⟩ := bind_eq_ok h
    by_cases hsame : idx = sidx
    · rw [if_neg (not_not.mpr hsame)] at h
      obtain ⟨idxSize, hsize, h⟩ := bind_eq_ok h
      rw [eq_of_narrowCheck32 hsize] at h
      exact ⟨s, type, hcreate, fun _ => hsame ▸ hread, h⟩
    · rw [if_pos hsame] at h
      cases h
  · rw [if_neg hcheck] at h
    obtain ⟨idxSize, hsize, h⟩ := bind_eq_ok h
    rw [eq_of_narrowCheck32 hsize] at h
    exact ⟨s, type, hcreate, fun h => absurd h hcheck, h⟩

theorem Reaches.stores {start f : ItemIndexFactory DataHashKey} (hstart : Stores start [])
    (h : Reaches codec hashFunc start f entries) : Stores f entries := by
  induction h with
  | start => exact hstart
  | @known f f' entries idx id _ hadd hcounter ih =>
    obtain ⟨s, type, -, -, hdata⟩ := exists_of_addIndex hadd
    obtain ⟨-, -, h⟩ | ⟨hnew, -⟩ := ih.addData hdata
    · exact h
    · exact absurd hcounter hnew
  | @added f f' entries idx id type s _ hcreate hadd hcounter ih =>
    obtain ⟨s', type', hcreate', -, hdata⟩ := exists_of_addIndex hadd
    cases hcreate.symm.trans hcreate'
    obtain ⟨hold, -⟩ | ⟨-, h⟩ := ih.addData hdata
    · exact absurd hold hcounter
    · exact h

section

variable {f : ItemIndexFactory DataHashKey} {entries : List Entry} {id : Nat} {e : Entry}

theorem getElem?_parts (he : entries[id]? = some e) : (parts entries)[id]? = some e.data := by
  rw [parts, List.getElem?_map, he]
  rfl

def nextOffset (entries : List Entry) (id : Nat) : Nat :=
  if id + 1 < entries.length then Packed.offset (parts entries) (id + 1)
  else if auxDataGrow ∣ entries.length then entries.length
  else 0

omit [DecidableEq DataHashKey] in
theorem Stores.offset_at (h : Stores f entries) (hid : id < entries.length) :
    MMVector.at f.idToOffsets id = .ok (Packed.offset (parts entries) id) := by
  have hget : f.idToOffsets[id]? = some (Packed.offset (parts entries) id) := by
    rw [h.offsets, table, List.getElem?_append_left (by
      rwa [List.length_map, List.length_range]), List.getElem?_map, List.getElem?_range hid]
    rfl
  rw [MMVector.at, hget]

omit [DecidableEq DataHashKey] in
theorem Stores.dataEndById (h : Stores f entries) (hid : id < entries.length) :
    f.dataEndById id = .ok (nextOffset entries id) := by
  have hlimit := h.limit
  rw [invalidId] at hlimit
  have hnext : u32 (id + 1) = id + 1 := u32_of_lt (by omega)
  have hle := le_tableSize entries.length
  rw [ItemIndexFactory.dataEndById, hnext, h.lengthOffsets, nextOffset]
  by_cases hinner : id + 1 < entries.length
  · rw [if_pos hinner, if_pos (hinner.trans_le hle), h.offset_at hinner]
  · have hlast : id + 1 = entries.length := Nat.le_antisymm hid (Nat.not_lt.mp hinner)
    rw [if_neg hinner, hlast]
    by_cases hfull : tableSize entries.length = entries.length
    · rw [if_neg (by omega), if_pos ((tableSize_eq_iff _).mp hfull), hfull]
    · have hend := getElem?_table_end
        ((List.range entries.length).map (Packed.offset (parts entries))) 0
      rw [List.length_map, List.length_range, if_neg hfull] at hend
      rw [if_pos (by omega), if_neg fun hdvd => hfull ((tableSize_eq_iff _).mpr hdvd),
        MMVector.at, h.offsets, hend]

omit [DecidableEq DataHashKey] in
theorem Stores.dataSizeById (h : Stores f entries) (hid : id < entries.length) :
    f.dataSizeById id =
      .ok ((nextOffset entries id + 2 ^ 64 - Packed.offset (parts entries) id) % 2 ^ 64) := by
  rw [ItemIndexFactory.dataSizeById, h.dataEndById hid, ok_bind, h.offset_at hid, ok_bind]
  rfl

theorem nextOffset_lt (entries : List Entry) (id : Nat)
    (hdata : (parts entries).flatten.length < 2 ^ 64) (hlimit : entries.length ≤ invalidId) :
    nextOffset entries id < 2 ^ 64 := by
  have hle := Packed.offset_le (parts entries) (id + 1)
  rw [invalidId] at hlimit
  rw [nextOffset]
  split
  · omega
  · split
    · omega
    · exact Nat.two_pow_pos 64

omit [DecidableEq DataHashKey] in
theorem Stores.size_right_iff (h : Stores f entries) (he : entries[id]? = some e) :
    f.dataSizeById id = .ok e.data.length ↔
      nextOffset entries id = Packed.offset (parts entries) (id + 1) := by
  obtain ⟨hid, -⟩ := List.getElem?_eq_some_iff.mp he
  have hsucc := Packed.offset_succ (getElem?_parts he)
  have hle := (Packed.offset_le (parts entries) (id + 1)).trans_lt h.flatten_lt
  have hnext := nextOffset_lt entries id h.flatten_lt h.limit
  rw [h.dataSizeById hid, hsucc]
  rw [hsucc] at hle
  constructor
  · intro heq
    have hmod := Except.ok.inj heq
    omega
  · intro heq
    rw [heq]
    apply congrArg
    omega

omit [DecidableEq DataHashKey] in
theorem Stores.sizes_right_iff (h : Stores f entries) :
    (∀ id e, entries[id]? = some e → f.dataSizeById id = .ok e.data.length) ↔
      EndFits entries := by
  have hall : Packed.offset (parts entries) entries.length = (parts entries).flatten.length := by
    rw [← length_parts, Packed.offset_length]
  have hlast : ∀ id, id + 1 = entries.length → nextOffset entries id =
      if auxDataGrow ∣ entries.length then entries.length else 0 := by
    intro id hid
    rw [nextOffset, hid, if_neg (lt_irrefl _)]
  constructor
  · intro hsizes
    by_cases hnil : entries = []
    · rw [hnil, EndFits, List.length_nil, if_pos (dvd_zero _)]
      rfl
    · have hpos := List.length_pos_iff.mpr hnil
      have hend : entries.length - 1 + 1 = entries.length := Nat.sub_add_cancel hpos
      have he : entries[entries.length - 1]? = some entries[entries.length - 1] :=
        List.getElem?_eq_getElem (Nat.sub_lt hpos Nat.one_pos)
      have hnext := (h.size_right_iff he).mp (hsizes _ _ he)
      rw [hlast _ hend, hend, hall] at hnext
      exact hnext.symm
  · intro hfits id e he
    obtain ⟨hid, -⟩ := List.getElem?_eq_some_iff.mp he
    apply (h.size_right_iff he).mpr
    obtain hinner | hend := Nat.lt_or_eq_of_le (Nat.succ_le_of_lt hid)
    · exact if_pos hinner
    · rw [hlast id hend, ← hfits]
      exact hall.symm.trans (congrArg _ hend.symm)

omit [DecidableEq DataHashKey] in
theorem Stores.indexDataById (h : Stores f entries) (he : entries[id]? = some e)
    (hsize : f.dataSizeById id = .ok e.data.length) : f.indexDataById id = .ok e.data := by
  obtain ⟨hid, -⟩ := List.getElem?_eq_some_iff.mp he
  obtain ⟨rest, hrest⟩ := h.store
  have hle := Packed.offset_le (parts entries) id
  have hpart : UByteArrayAdapter.part f.indexStore (Packed.offset (parts entries) id)
      e.data.length = e.data := by
    rw [UByteArrayAdapter.part, Nat.min_eq_left (by
      rw [hrest, List.length_append]
      omega), hrest]
    exact Packed.drop_take_flatten (getElem?_parts he) rest
  rw [ItemIndexFactory.indexDataById, h.offset_at hid, ok_bind, hsize, ok_bind, hpart]
  rfl

omit [DecidableEq DataHashKey] in
theorem Stores.typeAt (h : Stores f entries) (he : entries[id]? = some e) :
    f.typeAt id = .ok (f.keptType e.type) := by
  rw [ItemIndexFactory.typeAt, keptType]
  by_cases hmultiple : isMultiple f.type = true
  · have hid : id < (entries.map fun e => e.type % 2 ^ 8).length := by
      rw [List.length_map]
      exact (List.getElem?_eq_some_iff.mp he).1
    rw [if_pos hmultiple, if_pos hmultiple, h.types hmultiple, MMVector.at, table,
      List.getElem?_append_left hid, List.getElem?_map, he]
    rfl
  · rw [if_neg hmultiple, if_neg hmultiple]

omit [DecidableEq DataHashKey] in
theorem Stores.indexById (h : Stores f entries) (he : entries[id]? = some e)
    (hdata : f.indexDataById id = .ok e.data) :
    f.indexById codec id = codec.read e.data (f.keptType e.type) := by
  rw [ItemIndexFactory.indexById, hdata, ok_bind, h.typeAt he, ok_bind]

theorem foldlM_eq_foldl {α β : Type} {step : β → α → Except Fault β} {g : β → α → β} {xs : List α}
    (h : ∀ x ∈ xs, ∀ b, step b x = .ok (g b x)) (b : β) :
    xs.foldlM step b = .ok (xs.foldl g b) := by
  induction xs generalizing b with
  | nil => rfl
  | cons x xs ih =>
    rw [List.foldlM_cons, h x List.mem_cons_self, ok_bind,
      ih (fun y hy => h y (List.mem_cons_of_mem _ hy)), List.foldl_cons]

theorem Stores.recalculate (h : Stores f entries)
    (hdata : ∀ id e, entries[id]? = some e → f.indexDataById id = .ok e.data) :
    f.recalculateDeduplicationData hashFunc = .ok { f with hash := hashOf hashFunc entries } := by
  have hlimit := h.limit
  rw [invalidId] at hlimit
  have hcount : u32 f.idCounter = entries.length := by
    rw [h.counter]
    exact u32_of_lt (by omega)
  have hids : List.range entries.length = entries.zipIdx.map Prod.snd := by
    rw [List.zipIdx_map_snd, List.range_eq_range']
  have hstep : ∀ x ∈ entries.zipIdx, ∀ hash, rehash hashFunc f hash x.2 =
      .ok (Function.update hash (hashFunc x.1.data) (some x.2)) := by
    intro x hx hash
    rw [rehash, hdata x.2 x.1 (List.mem_zipIdx_iff_getElem?.mp hx), ok_bind]
    rfl
  rw [recalculateDeduplicationData, hcount, hids, List.foldlM_map, foldlM_eq_foldl hstep, ok_bind]
  rfl

theorem assign_returns {α : Type} {xs vs : List α} {z : α} {n : Nat} {grow : Prop} [Decidable grow]
    (hgrow : grow ↔ tableSize n ≤ n) (hxs : xs.length = n) (hvs : vs = table xs z) (x : α) :
    ∃ v, MMVector.assign (if grow then MMVector.resize vs (n + auxDataGrow) z else vs) n x =
      .ok v := by
  have hlength : vs.length = tableSize n := by rw [hvs, length_table, hxs]
  by_cases hfull : tableSize n ≤ n
  · refine ⟨_, if_pos ?_⟩
    rw [if_pos (hgrow.mpr hfull), MMVector.resize, List.length_append, List.length_take,
      List.length_replicate, auxDataGrow]
    omega
  · refine ⟨_, if_pos ?_⟩
    rw [if_neg fun hg => hfull (hgrow.mp hg), hlength]
    exact Nat.not_le.mp hfull

omit [DecidableEq DataHashKey] in
theorem adjustAux_returns (hoffsets : f.idToOffsets =
      table ((List.range entries.length).map (Packed.offset (parts entries))) 0)
    (hsizes : f.idxSizes = table (entries.map fun e => e.ids.length) 0)
    (htypes : isMultiple f.type = true →
      f.idxTypes = table (entries.map fun e => e.type % 2 ^ 8) 0) (dataOffset idxSize type : Nat) :
    ∃ f', f.adjustAux entries.length dataOffset idxSize type = .ok f' := by
  have hlength : ((List.range entries.length).map (Packed.offset (parts entries))).length =
      entries.length := by rw [List.length_map, List.length_range]
  have hgrow : f.idToOffsets.length ≤ entries.length ↔
      tableSize entries.length ≤ entries.length := by
    rw [hoffsets, length_table, hlength]
  obtain ⟨idToOffsets, hassign⟩ := assign_returns hgrow hlength hoffsets dataOffset
  obtain ⟨idxSizes, hsize⟩ := assign_returns hgrow (List.length_map _) hsizes idxSize
  obtain ⟨idxTypes, htype⟩ : ∃ types, f.assignType (if f.idToOffsets.length ≤ entries.length ∧
      isMultiple f.type = true then MMVector.resize f.idxTypes (entries.length + auxDataGrow) 0
      else f.idxTypes) entries.length type = .ok types := by
    by_cases hmultiple : isMultiple f.type = true
    · rw [assignType, if_pos hmultiple]
      exact assign_returns ((and_iff_left hmultiple).trans hgrow) (List.length_map _)
        (htypes hmultiple) _
    · exact ⟨_, if_neg hmultiple⟩
  refine ⟨{ f with idToOffsets, idxSizes, idxTypes }, ?_⟩
  rw [ItemIndexFactory.adjustAux, hassign, ok_bind, hsize, ok_bind, htype, ok_bind]
  rfl

omit [DecidableEq DataHashKey] in
theorem pushData_returns {used rest idx : Bytes} (hstore : f.indexStore = used ++ rest)
    (hroom : f.offSet + f.indexStore.length + max idx.length f.growSize < 2 ^ 64) :
    ∃ f', f.pushData used.length idx = .ok f' := by
  have hused : used.length ≤ f.indexStore.length := by
    rw [hstore, List.length_append]
    exact Nat.le_add_right _ _
  have hsize : (used.length + idx.length) % 2 ^ 64 = used.length + idx.length :=
    Nat.mod_eq_of_lt (by omega)
  suffices h : ∀ store : Bytes, used.length + idx.length ≤ store.length →
      ∃ store', UByteArrayAdapter.putData store used.length idx = .ok store' by
    rw [ItemIndexFactory.pushData, hsize]
    by_cases hgrow : used.length + idx.length ≥ f.indexStore.length
    · obtain ⟨store', hput⟩ := h (f.indexStore ++ List.replicate
        (max (used.length + idx.length - f.indexStore.length) f.growSize) 0) (by
          rw [List.length_append, List.length_replicate]
          omega)
      rw [if_pos hgrow, UByteArrayAdapter.growStorage, if_pos (by omega), hput, ok_bind]
      exact ⟨_, rfl⟩
    · obtain ⟨store', hput⟩ := h f.indexStore (Nat.le_of_not_le hgrow)
      rw [if_neg hgrow, hput, ok_bind]
      exact ⟨_, rfl⟩
  intro store hle
  rw [UByteArrayAdapter.putData]
  by_cases hnil : idx = []
  · exact ⟨store, if_pos hnil⟩
  · rw [if_neg hnil, hsize, if_neg (Nat.not_lt.mpr hle), if_pos hle]
    exact ⟨_, rfl⟩

/-- A run goes on in every state, unless the ids or the storage are used up. -/
theorem Stores.addIndex_returns (h : Stores f entries) {idx : List Nat} {s : Bytes} {type : Nat}
    (hcreate : codec.create idx f.type = .ok (s, type)) (htype : type ≠ 0)
    (hread : codec.read s type = .ok idx) (hlength : idx.length < 2 ^ 32)
    (hlimit : entries.length < invalidId)
    (hroom : f.offSet + f.indexStore.length + max s.length f.growSize < 2 ^ 64) :
    ∃ id f', f.addIndex codec hashFunc idx = .ok (id, f') := by
  have hadd : f.addIndex codec hashFunc idx = f.addData hashFunc s idx.length type := by
    rw [ItemIndexFactory.addIndex, hcreate, ok_bind]
    dsimp only
    rw [if_pos htype, hread, narrowCheck32_of_lt hlength]
    by_cases hcheck : f.checkIndex = true
    · rw [if_pos hcheck, ok_bind, if_neg (not_not.mpr rfl)]
      rfl
    · rw [if_neg hcheck]
      rfl
  rw [hadd, ItemIndexFactory.addData]
  cases hknown : (if f.useDeduplication then f.hash (hashFunc s) else none) with
  | some id => exact ⟨id, _, rfl⟩
  | none =>
    obtain ⟨rest, hrest⟩ := h.store
    dsimp only
    rw [if_neg (by
      rw [h.counter]
      exact Nat.not_le.mpr hlimit), h.dataOffset]
    obtain ⟨f₁, hpush⟩ := pushData_returns (f := { f with
      hash :=
        if f.useDeduplication then Function.update f.hash (hashFunc s) (some f.idCounter)
        else f.hash
      idCounter := f.idCounter + 1
      dataOffset := ((parts entries).flatten.length + s.length) % 2 ^ 64 }) hrest hroom
    obtain ⟨rest', hf₁, -⟩ := pushData_spec hpush hrest h.room
    rw [hpush, ok_bind, hf₁, h.counter]
    obtain ⟨f₂, hadjust⟩ := adjustAux_returns (f := { f with
      indexStore := (parts entries).flatten ++ s ++ rest'
      hash :=
        if f.useDeduplication then Function.update f.hash (hashFunc s) (some entries.length)
        else f.hash
      idCounter := entries.length + 1
      dataOffset := ((parts entries).flatten.length + s.length) % 2 ^ 64 })
      h.offsets h.sizes h.types (parts entries).flatten.length idx.length type
    rw [hadjust, ok_bind]
    exact ⟨_, _, rfl⟩

theorem addData_frame {f' : ItemIndexFactory DataHashKey} {s : Bytes} {idxSize type : Nat}
    (h : f.addData hashFunc s idxSize type = .ok (id, f')) :
    f'.type = f.type ∧ f'.checkIndex = f.checkIndex ∧ f'.useDeduplication = f.useDeduplication ∧
      (((if f.useDeduplication then f.hash (hashFunc s) else none) = some id ∧
          f'.hash = f.hash ∧ f'.idCounter = f.idCounter) ∨
        ((if f.useDeduplication then f.hash (hashFunc s) else none) = none ∧
          id = f.idCounter ∧ f'.idCounter = f.idCounter + 1 ∧
          f'.hash = if f.useDeduplication then Function.update f.hash (hashFunc s) (some id)
            else f.hash)) := by
  rw [ItemIndexFactory.addData] at h
  cases hknown : (if f.useDeduplication then f.hash (hashFunc s) else none) with
  | some known =>
    rw [hknown] at h
    cases h
    exact ⟨rfl, rfl, rfl, .inl ⟨rfl, rfl, rfl⟩⟩
  | none =>
    rw [hknown] at h
    dsimp only at h
    obtain ⟨-, h⟩ := ok_of_ite_error h
    obtain ⟨f₁, hpush, h⟩ := bind_eq_ok h
    obtain ⟨f₂, hadjust, h⟩ := bind_eq_ok h
    cases h
    obtain ⟨store, -, h₁⟩ := bind_eq_ok hpush
    obtain ⟨_, -, h₂⟩ := bind_eq_ok hadjust
    obtain ⟨_, -, h₂⟩ := bind_eq_ok h₂
    obtain ⟨_, -, h₂⟩ := bind_eq_ok h₂
    cases h₁
    cases h₂
    exact ⟨rfl, rfl, rfl, .inr ⟨rfl, rfl, rfl, rfl⟩⟩

end

/-- In every state that calls of `addIndex` lead to, the indexes are read as they were stored
exactly if the end of the data stands behind the last offset by chance and the bytes decode under
the kept types. -/
theorem reaches_right_iff {indexStore : Bytes} {offSet type growSize : Nat}
    {checkIndex useDeduplication : Bool} (hroom : offSet + indexStore.length < 2 ^ 64)
    {f : ItemIndexFactory DataHashKey} {entries : List Entry}
    (h : Reaches codec hashFunc
      (new indexStore offSet type growSize checkIndex useDeduplication) f entries) :
    Right codec hashFunc f entries ↔ EndFits entries ∧
      ∀ e ∈ entries, codec.read e.data (f.keptType e.type) = .ok e.ids := by
  have hstores := h.stores (stores_new type growSize checkIndex useDeduplication hroom)
  constructor
  · intro hright
    refine ⟨hstores.sizes_right_iff.mp hright.sizes, fun e he => ?_⟩
    obtain ⟨id, hid⟩ := List.mem_iff_getElem?.mp he
    rw [← hstores.indexById hid (hright.data id e hid)]
    exact hright.decodes id e hid
  · rintro ⟨hfits, hdecodes⟩
    have hsizes := hstores.sizes_right_iff.mpr hfits
    have hdata : ∀ id e, entries[id]? = some e → f.indexDataById id = .ok e.data :=
      fun id e he => hstores.indexDataById he (hsizes id e he)
    refine ⟨hsizes, hdata, fun id e he => ?_, hstores.recalculate hdata⟩
    rw [hstores.indexById he (hdata id e he)]
    exact hdecodes e (List.mem_of_getElem? he)

def rleDECodec : ItemIndexCodec where
  create idx type := .ok (ItemIndexPrivateRleDE.create idx, type)
  read data _ := do
    let idx ← ItemIndexPrivateRleDE.ofData data
    idx.putIntoArray

def newRleDE : ItemIndexFactory Bytes := new [] 9 0x10 1 true true

theorem stores_newRleDE : Stores newRleDE [] := stores_new _ _ _ _ (by decide)

def threeLists : List Entry :=
  [⟨[], [0, 0], 0x10⟩, ⟨[5, 7], [2, 2, 10, 4], 0x10⟩, ⟨[2], [1, 1, 4], 0x10⟩]

/-- Behind the empty index two lists are added, and the first of them a second time. -/
theorem exists_threeLists : ∃ f₁ f₂ f₃ f₄,
    Reaches rleDECodec id newRleDE f₁ [⟨[], [0, 0], 0x10⟩] ∧
      f₁.addIndex rleDECodec id [5, 7] = .ok (1, f₂) ∧
      f₂.addIndex rleDECodec id [2] = .ok (2, f₃) ∧ f₃.addIndex rleDECodec id [5, 7] = .ok (1, f₄) ∧
      f₁.type = 0x10 ∧ f₂.type = 0x10 ∧
      f₂.idCounter ≠ f₁.idCounter ∧ f₃.idCounter ≠ f₂.idCounter := by
  have hrun : (do
      let (_, f₁) ← newRleDE.addIndex rleDECodec id []
      let (i, f₂) ← f₁.addIndex rleDECodec id [5, 7]
      let (j, f₃) ← f₂.addIndex rleDECodec id [2]
      let (k, _) ← f₃.addIndex rleDECodec id [5, 7]
      return ((i, j, k), (f₁.type, f₂.type), f₁.idCounter, f₂.idCounter, f₃.idCounter)) =
        .ok ((1, 2, 1), (0x10, 0x10), 1, 2, 3) := by
    decide +kernel
  obtain ⟨⟨_, f₁⟩, hadd₁, hrun⟩ := bind_eq_ok hrun
  obtain ⟨⟨i, f₂⟩, hadd₂, hrun⟩ := bind_eq_ok hrun
  obtain ⟨⟨j, f₃⟩, hadd₃, hrun⟩ := bind_eq_ok hrun
  obtain ⟨⟨k, f₄⟩, hadd₄, hrun⟩ := bind_eq_ok hrun
  simp only [pure, Except.pure, Except.ok.injEq, Prod.mk.injEq] at hrun
  obtain ⟨⟨rfl, rfl, rfl⟩, ⟨ht₁, ht₂⟩, h₁, h₂, h₃⟩ := hrun
  refine ⟨f₁, f₂, f₃, f₄, .added .start rfl hadd₁ ?_, hadd₂, hadd₃, hadd₄, ht₁, ht₂,
    by omega, by omega⟩
  rw [h₁]
  exact Nat.one_ne_zero

theorem reaches_threeLists : ∃ f, Reaches rleDECodec id newRleDE f threeLists := by
  obtain ⟨f₁, f₂, f₃, -, h, hadd₂, hadd₃, -, ht₁, ht₂, hcounter₂, hcounter₃⟩ := exists_threeLists
  have hreaches := (h.added rfl hadd₂ hcounter₂).added rfl hadd₃ hcounter₃
  rw [ht₁, ht₂] at hreaches
  exact ⟨f₃, hreaches⟩

theorem reaches_right_iff_threeLists : ∃ f, Reaches rleDECodec id newRleDE f threeLists ∧
    (Right rleDECodec id f threeLists ↔ EndFits threeLists ∧
      ∀ e ∈ threeLists, rleDECodec.read e.data (f.keptType e.type) = .ok e.ids) := by
  obtain ⟨f, h⟩ := reaches_threeLists
  exact ⟨f, h, reaches_right_iff (by decide) h⟩

/-- The last index takes three bytes, and its size is the negative of its offset. -/
theorem not_right_threeLists : ∃ f, Reaches rleDECodec id newRleDE f threeLists ∧
    f.dataSizeById 2 = .ok (2 ^ 64 - 6) ∧ ¬ Right rleDECodec id f threeLists := by
  obtain ⟨f, h⟩ := reaches_threeLists
  have hsize : f.dataSizeById 2 = .ok (2 ^ 64 - 6) :=
    (h.stores stores_newRleDE).dataSizeById (show 2 < 3 by decide)
  refine ⟨f, h, hsize, fun hright => ?_⟩
  have hthree : f.dataSizeById 2 = .ok 3 := hright.sizes 2 _ rfl
  cases hsize.symm.trans hthree

end Sserialize.ItemIndexFactory
