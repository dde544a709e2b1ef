import Sserialize.ItemIndex.ItemIndexFactoryNames

namespace Sserialize.ItemIndexFactory

variable {DataHashKey : Type} [DecidableEq DataHashKey] {codec : ItemIndexCodec}
  {hashFunc : Bytes → DataHashKey} {start f f' : ItemIndexFactory DataHashKey}
  {entries later : List Entry} {id : Nat} {s : Bytes} {idx : List Nat}

/-- The key of the data of every entry has its id, and there are no other keys. -/
structure Hashed (hashFunc : Bytes → DataHashKey) (f : ItemIndexFactory DataHashKey)
    (entries : List Entry) : Prop where
  deduplicates : f.useDeduplication = true
  names : ∀ key id, f.hash key = some id ↔ ∃ e, entries[id]? = some e ∧ hashFunc e.data = key

theorem addData_hash (hdedup : f.useDeduplication = true) {idxSize type : Nat}
    (h : f.addData hashFunc s idxSize type = .ok (id, f')) :
    f'.useDeduplication = true ∧ f'.hash (hashFunc s) = some id ∧
      ((f'.idCounter = f.idCounter ∧ f'.hash = f.hash) ∨
        (f'.idCounter ≠ f.idCounter ∧ id = f.idCounter ∧ f.hash (hashFunc s) = none ∧
          f'.hash = Function.update f.hash (hashFunc s) (some id))) := by
  obtain ⟨-, -, hdedup', ⟨hknown, hhash, hcounter⟩ | ⟨hfree, rfl, hcounter, hhash⟩⟩ :=
    addData_frame h
  · rw [if_pos hdedup] at hknown
    exact ⟨hdedup'.trans hdedup, hhash ▸ hknown, .inl ⟨hcounter, hhash⟩⟩
  · rw [if_pos hdedup] at hfree hhash
    refine ⟨hdedup'.trans hdedup, ?_, .inr ⟨by omega, rfl, hfree, hhash⟩⟩
    rw [hhash, Function.update_self]

theorem getElem?_append_singleton {xs : List Entry} {x e : Entry} {n : Nat} :
    (xs ++ [x])[n]? = some e ↔ xs[n]? = some e ∨ (n = xs.length ∧ e = x) := by
  grind

theorem Reaches.hashed (hstart : Hashed hashFunc start []) (hstores : Stores start [])
    (h : Reaches codec hashFunc start f entries) : Hashed hashFunc f entries := by
  induction h with
  | start => exact hstart
  | known _ hadd hcounter ih =>
    obtain ⟨s, type, -, -, hdata⟩ := exists_of_addIndex hadd
    obtain ⟨hdedup, -, ⟨-, hhash⟩ | ⟨hnew, -⟩⟩ := addData_hash ih.deduplicates hdata
    · exact ⟨hdedup, fun key id => hhash ▸ ih.names key id⟩
    · exact absurd hcounter hnew
  | @added f f' entries idx id type s h hcreate hadd hcounter ih =>
    obtain ⟨s', type', hcreate', -, hdata⟩ := exists_of_addIndex hadd
    cases hcreate.symm.trans hcreate'
    obtain ⟨hdedup, -, ⟨hold, -⟩ | ⟨-, hid, hfree, hhash⟩⟩ := addData_hash ih.deduplicates hdata
    · exact absurd hold hcounter
    rw [(h.stores hstores).counter] at hid
    refine ⟨hdedup, fun key id' => ?_⟩
    simp only [getElem?_append_singleton, or_and_right, exists_or, ← ih.names]
    rw [hhash, Function.update_apply]
    by_cases hkey : key = hashFunc s
    · simp [hkey, hfree, hid, eq_comm]
    · simp [hkey, Ne.symm hkey]

omit [DecidableEq DataHashKey] in
theorem Hashed.mono {g : ItemIndexFactory DataHashKey} {key : DataHashKey}
    (h : Hashed hashFunc f entries) (hg : Hashed hashFunc g later) (hlater : entries <+: later)
    (hid : f.hash key = some id) : g.hash key = some id := by
  obtain ⟨e, he, hkey⟩ := (h.names key id).mp hid
  exact (hg.names key id).mpr ⟨e, getElem?_of_isPrefix hlater he, hkey⟩

/-- If all indexes have one type and the hash tells all data apart, then the id that `addIndex`
returns stays the name of the list: the store of every later state has the list there, and exactly
this list is given the id again. -/
theorem addIndex_deduplicates (hinj : Function.Injective hashFunc) {indexStore : Bytes}
    {offSet type growSize : Nat} {checkIndex : Bool}
    (hroom : offSet + indexStore.length < 2 ^ 64)
    (hstart : start = new indexStore offSet type growSize checkIndex true)
    (hsingle : isMultiple type = false)
    (htype : ∀ a s t, codec.create a type = .ok (s, t) → t = type)
    (hreads : checkIndex = true ∨
      ∀ a s t, codec.create a type = .ok (s, t) → codec.read s t = .ok a)
    (h : Reaches codec hashFunc start f entries)
    (hadd : f.addIndex codec hashFunc idx = .ok (id, f')) :
    ∃ entries', Reaches codec hashFunc start f' entries' ∧ entries <+: entries' ∧
      ∀ g later, Reaches codec hashFunc start g later → entries' <+: later →
        g.storeAt codec id = .ok idx ∧ ∀ other id' g',
          g.addIndex codec hashFunc other = .ok (id', g') → (id' = id ↔ other = idx) := by
  have hstores : Stores start [] := hstart ▸ stores_new type growSize checkIndex true hroom
  have hnamed : Named codec hashFunc start [] := hstart ▸ named_new
  have hhashed : Hashed hashFunc start [] := by
    rw [hstart]
    exact ⟨rfl, by simp [new]⟩
  have hcodec : codec.Determines start.type start.checkIndex := by
    rw [hstart]
    exact ⟨fun _ _ _ _ _ ha hb => (htype _ _ _ ha).trans (htype _ _ _ hb).symm, hreads⟩
  obtain ⟨s, t, hcreate, -, hdata⟩ := exists_of_addIndex hadd
  have hid := (addData_hash (h.hashed hhashed hstores).deduplicates hdata).2.1
  obtain ⟨entries', hreaches, hprefix, hnames⟩ := h.addIndex_names hnamed hinj hcodec hadd
  refine ⟨entries', hreaches, hprefix, fun g later hg hlater => ?_⟩
  have hnames' := hnames.of_prefix hlater
  have hconfig := hg.config.1
  refine ⟨?_, fun other id' g' hadd' => ⟨?_, ?_⟩⟩
  · obtain ⟨e, he, hread⟩ := hnames'
    have hencoded := (hg.named hnamed).encoded e (List.mem_of_getElem? he)
    rw [hconfig, hstart] at hencoded
    rw [(hg.stores hstores).storeAt_eq he, keptType, hconfig, hstart, new, hsingle,
      ← htype _ _ _ hencoded]
    exact hread
  · rintro rfl
    obtain ⟨later', -, hprefix', hother⟩ := hg.addIndex_names hnamed hinj hcodec hadd'
    have hid' := hnames'.of_prefix hprefix'
    exact hother.eq hid'
  · rintro rfl
    obtain ⟨s', t', hcreate', -, hdata'⟩ := exists_of_addIndex hadd'
    rw [hconfig, ← h.config.1] at hcreate'
    cases hcreate.symm.trans hcreate'
    have hhashed' := hg.hashed hhashed hstores
    have hknown := (hreaches.hashed hhashed hstores).mono hhashed' hlater hid
    obtain ⟨-, hid', ⟨-, hhash⟩ | ⟨-, -, hfree, -⟩⟩ := addData_hash hhashed'.deduplicates hdata'
    · rw [hhash, hknown] at hid'
      exact (Option.some.inj hid').symm
    · cases hknown.symm.trans hfree

/-- A list is added, then another one, and the first of them again. -/
theorem addIndex_deduplicates_threeLists : ∃ f₁ f₂ f₃ f₄ : ItemIndexFactory Bytes,
    f₁.addIndex rleDECodec (fun data => data) [5, 7] = .ok (1, f₂) ∧
      f₂.addIndex rleDECodec (fun data => data) [2] = .ok (2, f₃) ∧
      f₃.addIndex rleDECodec (fun data => data) [5, 7] = .ok (1, f₄) ∧
      f₃.storeAt rleDECodec 1 = .ok [5, 7] ∧
      ∀ idx f, f₃.addIndex rleDECodec (fun data => data) idx = .ok (1, f) → idx = [5, 7] := by
  obtain ⟨f₁, f₂, f₃, f₄, h, hadd₂, hadd₃, hadd₄, -, -, -, hcounter⟩ := exists_threeLists
  obtain ⟨entries, hreaches, -, hnames⟩ := addIndex_deduplicates (fun _ _ h => h) (by decide) rfl
    rfl (fun _ _ _ h => (Prod.mk.inj (Except.ok.inj h)).2.symm) (.inl rfl) h hadd₂
  obtain ⟨hstore, hiff⟩ := hnames f₃ _ (hreaches.added rfl hadd₃ hcounter) (List.prefix_append _ _)
  exact ⟨f₁, f₂, f₃, f₄, hadd₂, hadd₃, hadd₄, hstore, fun idx f hadd => (hiff idx 1 f hadd).mp rfl⟩

end Sserialize.ItemIndexFactory
