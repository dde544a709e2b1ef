import Sserialize.Containers.HashBasedFlatTrieNodes
import Sserialize.Library.SignedBisection

namespace Sserialize

def OADHashTable.find {K V : Type} [DecidableEq K] (t : OADHashTable K V) (key : K) : Option Nat :=
  match t.findBucket key with
  | none => none
  | some pos => if t.slot pos ≠ 0 then some (t.slot pos - 1) else none

namespace HashBasedFlatTrie

open Utf8 (encode)
open PrefixTree (lcp Closure)
open HalvingSearch

variable {V : Type}

/-- `StaticString::make_special`: the size of a special string, which is stored with 28 bits. -/
def makeSpecial (size : Nat) : Except Fault Nat :=
  let size := u32 size
  if size % 2 ^ 28 ≠ size then .error .outOfRange else .ok size

def myComp (keys : List Bytes) (a i : Nat) : Bool := a < (keys.getD i []).length

def upperBoundSize (keys : List Bytes) (nodeBegin size : Nat) : Nat :=
  search (myComp keys size) (keys.length - nodeBegin) nodeBegin (keys.length - nodeBegin)

/-- The function is not implemented for `prefixMatch`. -/
def findNode (t : HashBasedFlatTrie V) (str : Bytes) (prefixMatch : Bool) :
    Except Fault (Option Node) :=
  if prefixMatch then .error .unsupportedFeature
  else do
    let size ← makeSpecial str.length
    match t.ht.find (str.take size) with
    | none => return none
    | some nodeBegin =>
      let nodeEnd := upperBoundSize (keys t.ht) nodeBegin ((keys t.ht).getD nodeBegin []).length
      return some { nodeBegin := nodeBegin, nodeEnd := nodeEnd }

/-- The string has no node if it is not stored, and otherwise the range of the strings that start
with it. -/
def FindsNode (t : HashBasedFlatTrie V) (str : Bytes) : Prop :=
  ∃ r, t.findNode str false = .ok r ∧ (r = none ↔ str ∉ keys t.ht) ∧
    ∀ n, r = some n → ∀ i, (n.nodeBegin ≤ i ∧ i < n.nodeEnd) ↔
      ∃ key, (keys t.ht)[i]? = some key ∧ str <+: key

/-- A string that is not stored is short enough to be looked up, and one that is stored is in front
of longer strings only, where the search compares, and is a prefix of none. -/
def Findable (keys : List Bytes) (str : Bytes) : Prop :=
  (str ∉ keys ∧ u32 str.length < 2 ^ 28 ∧ str.take (u32 str.length) ∉ keys) ∨
    ∃ b, keys[b]? = some str ∧ (∀ key ∈ keys, str <+: key → key = str) ∧
      ∀ j, 0 < j → 0 < (keys.length - b) / 2 ^ j →
        str.length < (keys.getD (b + (keys.length - b) / 2 ^ j) []).length

theorem find_spec {ht : OADHashTable Bytes V} (h : ht.Valid) (str : Bytes) :
    (str ∉ keys ht ∧ ht.find str = none) ∨
      ∃ b, (keys ht)[b]? = some str ∧ ht.find str = some b := by
  by_cases hmem : str ∈ OrderedMap.keys ht.valueStorage
  · obtain ⟨pos, i, hi, hfind, hslot, hkey⟩ := OADHashTable.findBucket_of_mem h hmem
    refine .inr ⟨i, ?_, ?_⟩
    · rw [keys, OrderedMap.keys, List.getElem?_map, List.getElem?_eq_getElem hi]
      exact congrArg some hkey
    · have hne : ht.slot pos ≠ 0 := by omega
      rw [OADHashTable.find, hfind]
      dsimp only
      rw [if_pos hne, hslot, Nat.add_sub_cancel]
  · refine .inl ⟨hmem, ?_⟩
    rw [OADHashTable.find]
    cases hfind : ht.findBucket str with
    | none => rfl
    | some pos =>
      have hzero := OADHashTable.slot_of_not_mem h hmem hfind
      exact if_neg (not_not.mpr hzero)

theorem makeSpecial_of_lt {size : Nat} (h : u32 size < 2 ^ 28) : makeSpecial size = .ok (u32 size) := by
  have hsame : ¬ u32 size % 2 ^ 28 ≠ u32 size := not_not.mpr (Nat.mod_eq_of_lt h)
  exact if_neg hsame

theorem makeSpecial_of_ge {size : Nat} (h : 2 ^ 28 ≤ u32 size) :
    makeSpecial size = .error .outOfRange := by
  have hlt := Nat.mod_lt (u32 size) (Nat.two_pow_pos 28)
  have hne : u32 size % 2 ^ 28 ≠ u32 size := by omega
  exact if_pos hne

theorem upperBoundSize_spec {keys : List Bytes} {b : Nat} {str : Bytes} (hb : keys[b]? = some str) :
    b < upperBoundSize keys b str.length ∧
      (keys.getD (upperBoundSize keys b str.length - 1) []).length ≤ str.length ∧
      (upperBoundSize keys b str.length = b + 1 ↔
        ∀ j, 0 < j → 0 < (keys.length - b) / 2 ^ j →
          str.length < (keys.getD (b + (keys.length - b) / 2 ^ j) []).length) := by
  obtain ⟨hlt, hget⟩ := List.getElem?_eq_some_iff.mp hb
  have hfirst : myComp keys str.length b = false := by
    rw [myComp, List.getD_eq_getElem _ _ hlt, hget]
    exact decide_eq_false (Nat.lt_irrefl _)
  have hlen : 0 < keys.length - b := by omega
  have hlt' : b < upperBoundSize keys b str.length := lt_search hlen (Nat.le_refl _) hfirst
  refine ⟨hlt', ?_, ?_⟩
  · have hnot := not_before_search hlt'
    exact Nat.le_of_not_lt (of_decide_eq_false hnot)
  · rw [upperBoundSize, search_eq_succ_iff hlen (Nat.le_refl _) hfirst]
    simp only [myComp, decide_eq_true_eq]

theorem findNode_eq (t : HashBasedFlatTrie V) (str : Bytes) (hlen : u32 str.length < 2 ^ 28) :
    t.findNode str false = .ok ((t.ht.find (str.take (u32 str.length))).map fun nodeBegin =>
      ⟨nodeBegin, upperBoundSize (keys t.ht) nodeBegin ((keys t.ht).getD nodeBegin []).length⟩) := by
  rw [findNode, if_neg Bool.false_ne_true, makeSpecial_of_lt hlen]
  dsimp only [ok_bind]
  cases t.ht.find (str.take (u32 str.length)) with
  | none => rfl
  | some nodeBegin => rfl

theorem findsNode_iff {t : HashBasedFlatTrie V} (h : t.ht.Valid)
    (hshort : ∀ key ∈ keys t.ht, key.length < 2 ^ 28) (str : Bytes) :
    t.FindsNode str ↔ Findable (keys t.ht) str := by
  by_cases hmem : str ∈ keys t.ht
  · have hlt := hshort str hmem
    have hsame : u32 str.length = str.length := u32_of_lt (by omega)
    have hfind : ∃ b, (keys t.ht)[b]? = some str ∧ t.ht.find str = some b := by
      rcases find_spec h str with ⟨hnot, -⟩ | hfound
      · exact absurd hmem hnot
      · exact hfound
    obtain ⟨b, hb, hfind⟩ := hfind
    obtain ⟨hblt, hget⟩ := List.getElem?_eq_some_iff.mp hb
    have hself : (keys t.ht).getD b [] = str := by rw [List.getD_eq_getElem _ _ hblt, hget]
    have hresult := findNode_eq t str (by omega)
    rw [hsame, List.take_length, hfind, Option.map_some, hself] at hresult
    have hnodup : (keys t.ht).Nodup := h.nodup
    have huniq : ∀ i, (keys t.ht)[i]? = some str → i = b := by
      intro i hi
      obtain ⟨hilt, higet⟩ := List.getElem?_eq_some_iff.mp hi
      exact hnodup.getElem_inj_iff.mp (higet.trans hget.symm)
    obtain ⟨hend, hlast, hiff⟩ := upperBoundSize_spec hb
    constructor
    · rintro ⟨r, hr, -, hrange⟩
      obtain rfl := Except.ok.inj (hresult.symm.trans hr)
      have hstart := hrange _ rfl
      dsimp only at hstart
      -- the last string of the range is not longer
      have hone : upperBoundSize (keys t.ht) b str.length = b + 1 := by
        obtain ⟨key, hkey, hprefix⟩ := (hstart (upperBoundSize (keys t.ht) b str.length - 1)).mp (by omega)
        obtain ⟨hklt, hkget⟩ := List.getElem?_eq_some_iff.mp hkey
        rw [List.getD_eq_getElem _ _ hklt, hkget] at hlast
        rw [← hprefix.eq_of_length_le hlast] at hkey
        have hpos := huniq _ hkey
        omega
      refine .inr ⟨b, hb, ?_, hiff.mp hone⟩
      intro key hkey hprefix
      obtain ⟨i, hi, rfl⟩ := List.getElem_of_mem hkey
      have hin := (hstart i).mpr ⟨_, List.getElem?_eq_getElem hi, hprefix⟩
      have hib : i = b := by omega
      subst hib
      exact hget
    · rintro (⟨hnot, -⟩ | ⟨b', hb', hprefix, hhalves⟩)
      · exact absurd hmem hnot
      · obtain rfl := huniq b' hb'
        have hone := hiff.mpr hhalves
        refine ⟨_, hresult, ?_, ?_⟩
        · exact iff_of_false (by simp) (not_not.mpr hmem)
        · intro n hn i
          obtain rfl := Option.some.inj hn
          dsimp only
          rw [hone]
          constructor
          · intro hi
            obtain rfl : i = b' := by omega
            exact ⟨str, hb, List.prefix_rfl⟩
          · rintro ⟨key, hkey, hstart⟩
            obtain rfl := hprefix key (List.mem_of_getElem? hkey) hstart
            have hib := huniq i hkey
            omega
  · have hstored : Findable (keys t.ht) str ↔
        u32 str.length < 2 ^ 28 ∧ str.take (u32 str.length) ∉ keys t.ht := by
      constructor
      · rintro (⟨-, hfree⟩ | ⟨b, hb, -⟩)
        · exact hfree
        · exact absurd (List.mem_of_getElem? hb) hmem
      · exact fun hfree => .inl ⟨hmem, hfree⟩
    rw [hstored]
    by_cases hlen : u32 str.length < 2 ^ 28
    · have hresult := findNode_eq t _ hlen
      constructor
      · rintro ⟨r, hr, hnone, -⟩
        obtain rfl := Except.ok.inj (hresult.symm.trans hr)
        refine ⟨hlen, ?_⟩
        intro htake
        have hnull := hnone.mpr hmem
        rcases find_spec h (str.take (u32 str.length)) with ⟨hnot, -⟩ | ⟨b, -, hfind⟩
        · exact hnot htake
        · rw [hfind] at hnull
          cases hnull
      · rintro ⟨-, htake⟩
        rcases find_spec h (str.take (u32 str.length)) with ⟨-, hfind⟩ | ⟨b, hb, -⟩
        · rw [hfind] at hresult
          refine ⟨none, hresult, iff_of_true rfl hmem, ?_⟩
          intro n hn
          cases hn
        · exact absurd (List.mem_of_getElem? hb) htake
    · refine iff_of_false ?_ fun hfree => hlen hfree.1
      rintro ⟨r, hr, -⟩
      rw [findNode, if_neg Bool.false_ne_true, makeSpecial_of_ge (Nat.le_of_not_lt hlen)] at hr
      cases hr

variable [Inhabited V]

theorem length_le_of_inserted {fuel : Nat} {t t' : HashBasedFlatTrie V} {ops : List (Op V)}
    (hrun : run fuel t ops = some (.ok t')) :
    ∀ s ∈ inserted ops, (encode s).length ≤ maxStringSize := by
  induction ops generalizing t with
  | nil =>
    intro s hs
    cases hs
  | cons op ops ih =>
    rw [run] at hrun
    split at hrun
    · cases hrun
    · cases hrun
    · rename_i t₁ hstep
      have hrest := ih hrun
      cases op with
      | finalize sort => exact hrest
      | insert s =>
        intro s' hs'
        rcases List.mem_cons.mp hs' with rfl | hs'
        · by_contra hlong
          have herror : t.insert fuel (encode s') = some (.error .outOfBounds) :=
            if_pos (Nat.lt_of_not_le hlong)
          rw [step, herror] at hstep
          cases hstep
        · exact hrest s' hs'

omit [Inhabited V] in
theorem inserted_append (ops ops' : List (Op V)) :
    inserted (ops ++ ops') = inserted ops ++ inserted ops' := by
  induction ops with
  | nil => rfl
  | cons op ops ih =>
    rw [List.cons_append, inserted_cons, ih, ← List.append_assoc, ← inserted_cons]

/-- In every finalized trie a string is found if no other starts with it and the search meets longer
strings only. -/
theorem hashBasedFlatTrie_findNode {fuel : Nat} {ops : List (Op V)} {sort : KeySort V}
    {t : HashBasedFlatTrie V} (hrun : run fuel new (ops ++ [.finalize sort]) = some (.ok t))
    (str : Bytes) : t.FindsNode str ↔ Findable (keys t.ht) str := by
  obtain ⟨S, hstrings, -, hmem⟩ := run_finalize hrun
  have hinserted := length_le_of_inserted hrun
  rw [inserted_append] at hinserted
  refine findsNode_iff hstrings.valid ?_ str
  intro key hkey
  rw [hstrings.keys] at hkey
  obtain ⟨s, hs, rfl⟩ := List.mem_map.mp hkey
  obtain ⟨a, ha, b, -, rfl⟩ := (hmem s).mp hs
  have hle := length_encode_le (PrefixTree.lcp_prefix_left a b)
  have hbound := hinserted a (List.mem_append_left _ ha)
  rw [maxStringSize] at hbound
  omega

/-- Two strings without a common prefix: the empty string is an inner node in front of both. -/
theorem hashBasedFlatTrie_findNode_two :
    ∃ t : HashBasedFlatTrie Nat, run 1 new ([.insert ['b'], .insert ['c', 'a']] ++
        [.finalize (KeySort.byCodes Nat)]) = some (.ok t) ∧
      (t.FindsNode (encode ['b']) ↔ Findable (keys t.ht) (encode ['b'])) := by
  have hends : ((run 1 (new : HashBasedFlatTrie Nat) ([.insert ['b'], .insert ['c', 'a']] ++
      [.finalize (KeySort.byCodes Nat)])).map fun r => r.isOk) = some true := by decide +kernel
  cases hrun : run 1 (new : HashBasedFlatTrie Nat) ([.insert ['b'], .insert ['c', 'a']] ++
      [.finalize (KeySort.byCodes Nat)]) with
  | none =>
    rw [hrun] at hends
    cases hends
  | some r =>
    cases r with
    | error e =>
      rw [hrun] at hends
      cases hends
    | ok t => exact ⟨t, rfl, hashBasedFlatTrie_findNode hrun (encode ['b'])⟩

/-- A string in front of a longer one that starts with it. -/
theorem not_findsNode :
    ¬ ∀ (fuel : Nat) (ops : List (Op Nat)) (sort : KeySort Nat) (t : HashBasedFlatTrie Nat),
      run fuel new (ops ++ [.finalize sort]) = some (.ok t) → ∀ str, t.FindsNode str := by
  intro h
  have hvalue : ((run 1 (new : HashBasedFlatTrie Nat) ([.insert ['a'], .insert ['a', 'c']] ++
      [.finalize (KeySort.byCodes Nat)])).map fun r => r.map fun t =>
        (keys t.ht, (t.findNode (encode ['a']) false).map fun n =>
          n.map fun n => (n.nodeBegin, n.nodeEnd))) =
      some (.ok ([['a'], ['a', 'c']].map encode, .ok (some (0, 1)))) := by decide +kernel
  cases hrun : run 1 (new : HashBasedFlatTrie Nat) ([.insert ['a'], .insert ['a', 'c']] ++
      [.finalize (KeySort.byCodes Nat)]) with
  | none =>
    rw [hrun] at hvalue
    cases hvalue
  | some r =>
    cases r with
    | error e =>
      rw [hrun] at hvalue
      cases hvalue
    | ok t =>
      rw [hrun] at hvalue
      obtain ⟨hkeys, hnode⟩ := Prod.mk.inj (some_ok_inj hvalue)
      obtain ⟨r, hr, -, hrange⟩ := h 1 _ _ t hrun (encode ['a'])
      rw [hr] at hnode
      obtain ⟨n, rfl, hends⟩ := Option.map_eq_some_iff.mp (Except.ok.inj hnode)
      obtain ⟨-, hend⟩ := Prod.mk.inj hends
      have hsecond := (hrange n rfl 1).mpr ⟨encode ['a', 'c'], by rw [hkeys]; rfl, by decide⟩
      omega

end HashBasedFlatTrie

end Sserialize
