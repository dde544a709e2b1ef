import Sserialize.ItemIndex.ItemIndexFactoryRun

namespace Sserialize

/-- The bytes of an encoding determine its type, and they are read back. If the factory checks every
index that it adds, then what is not read back is not added. -/
structure ItemIndexCodec.Determines (codec : ItemIndexCodec) (type : Nat) (checkIndex : Bool) :
    Prop where
  type_eq : ∀ a b s ta tb, codec.create a type = .ok (s, ta) → codec.create b type = .ok (s, tb) →
    ta = tb
  reads : checkIndex = true ∨
    ∀ a s ta, codec.create a type = .ok (s, ta) → codec.read s ta = .ok a

namespace ItemIndexFactory

variable {DataHashKey : Type} [DecidableEq DataHashKey] {codec : ItemIndexCodec}
  {hashFunc : Bytes → DataHashKey} {start f f' : ItemIndexFactory DataHashKey}
  {entries entries' : List Entry} {id : Nat} {idx : List Nat}

def Names (codec : ItemIndexCodec) (entries : List Entry) (id : Nat) (idx : List Nat) : Prop :=
  ∃ e, entries[id]? = some e ∧ codec.read e.data e.type = .ok idx

theorem getElem?_of_isPrefix {e : Entry} (h : entries <+: entries') (he : entries[id]? = some e) :
    entries'[id]? = some e := by
  obtain ⟨hid, rfl⟩ := List.getElem?_eq_some_iff.mp he
  exact List.prefix_iff_getElem?.mp h id hid

theorem Names.of_prefix (h : entries <+: entries') (hid : Names codec entries id idx) :
    Names codec entries' id idx := by
  obtain ⟨e, he, hread⟩ := hid
  exact ⟨e, getElem?_of_isPrefix h he, hread⟩

theorem Names.eq {other : List Nat} (h : Names codec entries id idx)
    (h' : Names codec entries id other) : idx = other := by
  obtain ⟨e, he, hread⟩ := h
  obtain ⟨e', he', hread'⟩ := h'
  cases he.symm.trans he'
  cases hread.symm.trans hread'
  rfl

theorem addData_cases {s : Bytes} {idxSize type : Nat}
    (h : f.addData hashFunc s idxSize type = .ok (id, f')) :
    f'.type = f.type ∧
      ((f.hash (hashFunc s) = some id ∧ f'.hash = f.hash ∧ f'.idCounter = f.idCounter) ∨
        (id = f.idCounter ∧ f'.idCounter = f.idCounter + 1 ∧
          ∀ key, f'.hash key = f.hash key ∨ (key = hashFunc s ∧ f'.hash key = some id))) := by
  obtain ⟨htype, -, -, ⟨hknown, hhash, hcounter⟩ | ⟨-, hid, hcounter, hhash⟩⟩ := addData_frame h
  · refine ⟨htype, .inl ⟨?_, hhash, hcounter⟩⟩
    by_cases hdedup : f.useDeduplication = true
    · rwa [if_pos hdedup] at hknown
    · rw [if_neg hdedup] at hknown
      cases hknown
  · refine ⟨htype, .inr ⟨hid, hcounter, fun key => ?_⟩⟩
    rw [hhash]
    by_cases hdedup : f.useDeduplication = true
    · rw [if_pos hdedup]
      by_cases hkey : key = hashFunc s
      · exact .inr ⟨hkey, by rw [hkey, Function.update_self]⟩
      · exact .inl (Function.update_of_ne hkey _ _)
    · exact .inl (by rw [if_neg hdedup])

/-- The entries are encodings under the configured types, and the hash names their bytes. -/
structure Named (codec : ItemIndexCodec) (hashFunc : Bytes → DataHashKey)
    (f : ItemIndexFactory DataHashKey) (entries : List Entry) : Prop where
  counter : f.idCounter = entries.length
  encoded : ∀ e ∈ entries, codec.create e.ids f.type = .ok (e.data, e.type)
  hash : ∀ key id, f.hash key = some id → ∃ e, entries[id]? = some e ∧ hashFunc e.data = key

omit [DecidableEq DataHashKey] in
theorem named_new {indexStore : Bytes} {offSet type growSize : Nat}
    {checkIndex useDeduplication : Bool} : Named codec hashFunc
      (new indexStore offSet type growSize checkIndex useDeduplication) [] where
  counter := rfl
  encoded _ he := absurd he List.not_mem_nil
  hash _ _ h := by cases h

namespace Named

theorem known (h : Named codec hashFunc f entries)
    (hadd : f.addIndex codec hashFunc idx = .ok (id, f'))
    (hcounter : f'.idCounter = f.idCounter) : Named codec hashFunc f' entries := by
  obtain ⟨s, type, -, -, hdata⟩ := exists_of_addIndex hadd
  obtain ⟨htype, ⟨-, hhash, -⟩ | ⟨-, hnext, -⟩⟩ := addData_cases hdata
  · refine ⟨hcounter.trans h.counter, ?_, ?_⟩
    · rw [htype]
      exact h.encoded
    · rw [hhash]
      exact h.hash
  · omega

theorem added {s : Bytes} {type : Nat} (h : Named codec hashFunc f entries)
    (hcreate : codec.create idx f.type = .ok (s, type))
    (hadd : f.addIndex codec hashFunc idx = .ok (id, f')) (hcounter : f'.idCounter ≠ f.idCounter) :
    Named codec hashFunc f' (entries ++ [⟨idx, s, type⟩]) := by
  obtain ⟨s', type', hcreate', -, hdata⟩ := exists_of_addIndex hadd
  cases hcreate.symm.trans hcreate'
  obtain ⟨htype, ⟨-, -, hsame⟩ | ⟨hid, hnext, hhash⟩⟩ := addData_cases hdata
  · exact absurd hsame hcounter
  · refine ⟨?_, ?_, ?_⟩
    · rw [hnext, h.counter, List.length_append, List.length_singleton]
    · intro e he
      rw [htype]
      obtain he | he := List.mem_append.mp he
      · exact h.encoded e he
      · rw [List.mem_singleton.mp he]
        exact hcreate
    · intro key known hknown
      obtain hold | ⟨rfl, hnew⟩ := hhash key
      · obtain ⟨e, he, hkey⟩ := h.hash key known (hold ▸ hknown)
        exact ⟨e, getElem?_of_isPrefix (List.prefix_append _ _) he, hkey⟩
      · have hlast : known = entries.length := by
          rw [← h.counter, ← hid]
          exact (Option.some.inj (hnew.symm.trans hknown)).symm
        exact ⟨_, by rw [hlast, List.getElem?_concat_length], rfl⟩

end Named

theorem Reaches.named (hstart : Named codec hashFunc start [])
    (h : Reaches codec hashFunc start f entries) : Named codec hashFunc f entries := by
  induction h with
  | start => exact hstart
  | known _ hadd hcounter ih => exact ih.known hadd hcounter
  | added _ hcreate hadd hcounter ih => exact ih.added hcreate hadd hcounter

theorem Reaches.config (h : Reaches codec hashFunc start f entries) :
    f.type = start.type ∧ f.checkIndex = start.checkIndex := by
  induction h with
  | start => exact ⟨rfl, rfl⟩
  | known _ hadd _ ih | added _ _ hadd _ ih =>
    obtain ⟨s, type, -, -, hdata⟩ := exists_of_addIndex hadd
    exact ⟨(addData_cases hdata).1.trans ih.1, (addData_frame hdata).2.1.trans ih.2⟩

theorem Reaches.addIndex_names (hstart : Named codec hashFunc start [])
    (hhash : Function.Injective hashFunc) (hcodec : codec.Determines start.type start.checkIndex)
    (h : Reaches codec hashFunc start f entries)
    (hadd : f.addIndex codec hashFunc idx = .ok (id, f')) :
    ∃ entries', Reaches codec hashFunc start f' entries' ∧ entries <+: entries' ∧
      Names codec entries' id idx := by
  have hnamed := h.named hstart
  obtain ⟨htype, hcheck⟩ := h.config
  obtain ⟨s, type, hcreate, hread, hdata⟩ := exists_of_addIndex hadd
  have hread : codec.read s type = .ok idx := by
    rw [htype] at hcreate
    rcases hcodec.reads with hchecked | hreads
    · exact hread (hcheck.trans hchecked)
    · exact hreads idx s type hcreate
  obtain ⟨-, ⟨hknown, -, hsame⟩ | ⟨hid, hnext, -⟩⟩ := addData_cases hdata
  · refine ⟨entries, h.known hadd hsame, List.prefix_rfl, ?_⟩
    obtain ⟨e, he, hkey⟩ := hnamed.hash _ _ hknown
    have hencoded := hnamed.encoded e (List.mem_of_getElem? he)
    rw [hhash hkey, htype] at hencoded
    rw [htype] at hcreate
    refine ⟨e, he, ?_⟩
    rw [hhash hkey, hcodec.type_eq _ _ _ _ _ hencoded hcreate]
    exact hread
  · have hcounter : f'.idCounter ≠ f.idCounter := by omega
    refine ⟨entries ++ [⟨idx, s, type⟩], h.added hcreate hadd hcounter,
      List.prefix_append _ _, ⟨idx, s, type⟩, ?_, hread⟩
    rw [hid, hnamed.counter, List.getElem?_concat_length]

end ItemIndexFactory

namespace ItemIndexFactory

variable {DataHashKey : Type} {codec : ItemIndexCodec} {hashFunc : Bytes → DataHashKey}
  {f f' : ItemIndexFactory DataHashKey} {entries entries' : List Entry} {id : Nat} {idx : List Nat}

/-- The end of the bytes of an index in a store: the begin of the next one or that of the offset
index. -/
def indexEnd (offsets : List Nat) (dataSize pos : Nat) : Except Fault Nat :=
  if pos + 1 = offsets.length then .ok dataSize else MMVector.at offsets (pos + 1)

def flushedDataAt (f : ItemIndexFactory DataHashKey) (pos : Nat) : Except Fault Bytes := do
  let offsets := MMVector.resize f.idToOffsets f.idCounter 0
  let data := f.indexStore.take f.dataOffset
  let indexStart ← MMVector.at offsets pos
  let indexEnd ← indexEnd offsets data.length pos
  return UByteArrayAdapter.part data indexStart (indexEnd - indexStart)

def storeAt (codec : ItemIndexCodec) (f : ItemIndexFactory DataHashKey) (pos : Nat) :
    Except Fault (List Nat) :=
  if pos ≥ f.idCounter then .ok []
  else do
    let data ← f.flushedDataAt pos
    let type ← f.typeAt pos
    codec.read data type

/-- What is encoded is read back under the type that the factory keeps for it, and the same bytes
have the same type. -/
structure Recovers (codec : ItemIndexCodec) (f : ItemIndexFactory DataHashKey) : Prop where
  reads : ∀ a s ta, codec.create a f.type = .ok (s, ta) → codec.read s (f.keptType ta) = .ok a
  type_eq : ∀ a b s ta tb, codec.create a f.type = .ok (s, ta) →
    codec.create b f.type = .ok (s, tb) → f.keptType ta = f.keptType tb

/-- The hash names stored bytes, which are kept under the type that they would be given again. -/
structure Keeps (codec : ItemIndexCodec) (hashFunc : Bytes → DataHashKey)
    (f : ItemIndexFactory DataHashKey) (entries : List Entry) : Prop where
  stores : Stores f entries
  hash : ∀ key id, f.hash key = some id → ∃ e, entries[id]? = some e ∧ hashFunc e.data = key
  kept : ∀ e ∈ entries, ∀ a ta, codec.create a f.type = .ok (e.data, ta) →
    f.keptType e.type = f.keptType ta

theorem Stores.flushedDataAt_eq {e : Entry} (h : Stores f entries) (he : entries[id]? = some e) :
    f.flushedDataAt id = .ok e.data := by
  obtain ⟨hid, -⟩ := List.getElem?_eq_some_iff.mp he
  obtain ⟨rest, hrest⟩ := h.store
  have hdata : f.indexStore.take f.dataOffset = (parts entries).flatten := by
    rw [hrest, h.dataOffset, List.take_left]
  have hlength : (MMVector.resize f.idToOffsets f.idCounter 0).length = entries.length := by
    have hle := le_tableSize entries.length
    rw [MMVector.resize, List.length_append, List.length_take, List.length_replicate, h.counter,
      h.lengthOffsets]
    omega
  have hget : ∀ i < entries.length, MMVector.at (MMVector.resize f.idToOffsets f.idCounter 0) i =
      .ok (Packed.offset (parts entries) i) := by
    intro i hi
    have htake : (f.idToOffsets.take f.idCounter)[i]? = f.idToOffsets[i]? := by
      rw [List.getElem?_take, if_pos (by rwa [h.counter])]
    have hi' : i < (f.idToOffsets.take f.idCounter).length := by
      have hle := le_tableSize entries.length
      rw [List.length_take, h.counter, h.lengthOffsets]
      omega
    have hat := h.offset_at hi
    rw [MMVector.at] at hat ⊢
    rwa [MMVector.resize, List.getElem?_append_left hi', htake]
  have hnext := Packed.offset_succ (getElem?_parts he)
  have hend : indexEnd (MMVector.resize f.idToOffsets f.idCounter 0) (parts entries).flatten.length
      id = .ok (Packed.offset (parts entries) (id + 1)) := by
    rw [indexEnd, hlength]
    by_cases hlast : id + 1 = entries.length
    · rw [if_pos hlast, hlast, ← length_parts, Packed.offset_length]
    · rw [if_neg hlast]
      exact hget (id + 1) (by omega)
  have hle := Packed.offset_le (parts entries) id
  rw [ItemIndexFactory.flushedDataAt, hdata, hget id hid, ok_bind, hend, ok_bind,
    hnext, Nat.add_sub_cancel_left, UByteArrayAdapter.part, Nat.min_eq_left hle]
  have hslice := Packed.drop_take_flatten (getElem?_parts he) []
  rw [List.append_nil] at hslice
  rw [hslice]
  rfl

theorem Stores.storeAt_eq {e : Entry} (h : Stores f entries) (he : entries[id]? = some e) :
    f.storeAt codec id = codec.read e.data (f.keptType e.type) := by
  have hid : ¬ id ≥ f.idCounter := by
    rw [h.counter]
    exact Nat.not_le.mpr (List.getElem?_eq_some_iff.mp he).1
  rw [storeAt, if_neg hid, h.flushedDataAt_eq he, ok_bind, h.typeAt he, ok_bind]

theorem Stores.storeAt_extend (h : Stores f entries) (h' : Stores f' entries')
    (htype : f'.type = f.type) (hsub : entries <+: entries') (hid : id < entries.length) :
    f'.storeAt codec id = f.storeAt codec id := by
  have he : entries[id]? = some entries[id] := List.getElem?_eq_getElem hid
  rw [h.storeAt_eq he, h'.storeAt_eq (getElem?_of_isPrefix hsub he), keptType, keptType, htype]

variable [DecidableEq DataHashKey]

theorem Keeps.addIndex (h : Keeps codec hashFunc f entries) (hhash : Function.Injective hashFunc)
    (hcodec : Recovers codec f) (hadd : f.addIndex codec hashFunc idx = .ok (id, f')) :
    ∃ entries', Keeps codec hashFunc f' entries' ∧ entries <+: entries' ∧ f'.type = f.type ∧
      id < entries'.length ∧ f'.storeAt codec id = .ok idx := by
  obtain ⟨s, type, hcreate, -, hdata⟩ := exists_of_addIndex hadd
  obtain ⟨htype, hcases⟩ := addData_cases hdata
  have hkept : ∀ t, f'.keptType t = f.keptType t := fun t => by rw [keptType, keptType, htype]
  have hread := hcodec.reads idx s type hcreate
  obtain ⟨hknown, hhash', hsame⟩ | ⟨hid, hnext, hhash'⟩ := hcases
  · obtain ⟨-, -, hstores⟩ | ⟨hnew, -⟩ := h.stores.addData hdata
    · obtain ⟨e, he, hkey⟩ := h.hash _ _ hknown
      have hdata' : e.data = s := hhash hkey
      refine ⟨entries, ⟨hstores, ?_, ?_⟩, List.prefix_rfl, htype,
        (List.getElem?_eq_some_iff.mp he).choose, ?_⟩
      · rw [hhash']
        exact h.hash
      · intro e he a ta ha
        rw [htype] at ha
        rw [hkept, hkept]
        exact h.kept e he a ta ha
      · rw [← hdata'] at hcreate hread
        rw [hstores.storeAt_eq he, hkept, h.kept e (List.mem_of_getElem? he) idx type hcreate]
        exact hread
    · exact absurd hsame hnew
  · obtain ⟨hold, -⟩ | ⟨-, hstores⟩ := h.stores.addData hdata
    · omega
    · have hlast : (entries ++ [⟨idx, s, type⟩])[id]? = some ⟨idx, s, type⟩ := by
        rw [hid, h.stores.counter, List.getElem?_concat_length]
      refine ⟨_, ⟨hstores, ?_, ?_⟩, List.prefix_append _ _, htype,
        (List.getElem?_eq_some_iff.mp hlast).choose, ?_⟩
      · intro key known hknown
        obtain hold | ⟨rfl, hnew⟩ := hhash' key
        · obtain ⟨e, he, hkey⟩ := h.hash key known (hold ▸ hknown)
          exact ⟨e, getElem?_of_isPrefix (List.prefix_append _ _) he, hkey⟩
        · obtain rfl : id = known := Option.some.inj (hnew.symm.trans hknown)
          exact ⟨_, hlast, rfl⟩
      · intro e he a ta ha
        rw [htype] at ha
        rw [hkept, hkept]
        obtain he | he := List.mem_append.mp he
        · exact h.kept e he a ta ha
        · obtain rfl := List.mem_singleton.mp he
          exact hcodec.type_eq idx a s type ta hcreate ha
      · rw [hstores.storeAt_eq hlast, hkept]
        exact hread

end ItemIndexFactory

end Sserialize
