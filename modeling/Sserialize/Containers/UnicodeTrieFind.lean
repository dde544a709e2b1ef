import Sserialize.Containers.UnicodeTrieStep

namespace Sserialize

open PrefixTree

namespace TrieHeap

variable {V : Type} {h : TrieHeap V} {ps : Nat → List Char}

theorem encode_isPrefix {x y : List Char} : Utf8.encode x <+: Utf8.encode y ↔ x <+: y := by
  constructor
  · intro hpre
    induction x generalizing y with
    | nil => exact List.nil_prefix
    | cons a x ih =>
      cases y with
      | nil => exact absurd (List.prefix_nil.mp hpre) (encode_ne_nil a x)
      | cons b y =>
        obtain ⟨t, ht⟩ := hpre
        have hleft := Utf8.next_encodeChar a (Utf8.encode x ++ t)
        have hright := Utf8.next_encode b y
        rw [← List.append_assoc, ← Utf8.encode_cons, ht, hright] at hleft
        obtain ⟨hcode, hrest⟩ := Prod.mk.inj (Except.ok.inj hleft)
        obtain rfl : b = a := Char.ext (UInt32.toNat_inj.mp hcode)
        exact List.cons_prefix_cons.mpr ⟨rfl, ih ⟨t, hrest.symm⟩⟩
  · rintro ⟨t, rfl⟩
    rw [Utf8.encode_append]
    exact List.prefix_append _ _

theorem matchBytes_append_right (n s : Bytes) : matchBytes n (n ++ s) = some ([], s) := by
  induction n with
  | nil => rfl
  | cons c n ih => rw [List.cons_append, matchBytes, if_pos rfl, ih]

theorem matchBytes_append_left (n s : Bytes) : matchBytes (s ++ n) s = some (n, []) := by
  induction s with
  | nil => cases n <;> rfl
  | cons c s ih => rw [List.cons_append, matchBytes, if_pos rfl, ih]

theorem matchBytes_of_not_isPrefix {n s : Bytes} (hn : ¬ n <+: s) (hs : ¬ s <+: n) :
    matchBytes n s = none := by
  induction n generalizing s with
  | nil => exact absurd List.nil_prefix hn
  | cons c n ih =>
    cases s with
    | nil => exact absurd List.nil_prefix hs
    | cons d s =>
      rw [matchBytes]
      split
      · rename_i heq
        subst heq
        rw [List.prefix_cons_inj] at hn hs
        exact ih hn hs
      · rfl

/-- What the search for `s` returns: the node with the shortest path that starts with `s`, where
only `s` itself counts without a prefix match. -/
structure Found (h : TrieHeap V) (ps : Nat → List Char) (s : List Char) (prefixMatch : Bool)
    (result : Option Nat) : Prop where
  some : ∀ i, result = some i → i < h.size ∧ s <+: ps i ∧ (prefixMatch = false → ps i = s) ∧
    ∀ j, j < h.size → s <+: ps j → ps i <+: ps j
  none : result = none → ∀ j, j < h.size → s <+: ps j → prefixMatch = false ∧ ps j ≠ s

theorem found_none {s : List Char} (prefixMatch : Bool)
    (hnone : ∀ j, j < h.size → ¬ s <+: ps j) : Found h ps s prefixMatch none where
  some i hi := by cases hi
  none _ j hj hpre := absurd hpre (hnone j hj)

theorem findLoop_last (prefixMatch : Bool) (i : Nat) (n : Bytes) {fuel : Nat} (hfuel : 0 < fuel) :
    h.findLoop prefixMatch fuel i n [] =
      some (.ok (if n ≠ [] ∧ prefixMatch = false then none else some i)) := by
  obtain ⟨k, rfl⟩ : ∃ k, fuel = k + 1 := ⟨fuel - 1, by omega⟩
  rw [findLoop, if_pos rfl]

theorem findLoop_spec (hw : Wf h ps) (prefixMatch : Bool) {base r str : List Char} {cur : Nat}
    (hpos : Position h ps base r str cur) {fuel : Nat}
    (hfuel : r.length + (if str = [] then 1 else 0) < fuel) :
    ∃ result, h.findLoop prefixMatch fuel cur (Utf8.encode str) (Utf8.encode r) =
      some (.ok result) ∧ Found h ps (base ++ r) prefixMatch result := by
  induction fuel generalizing base r str cur with
  | zero => omega
  | succ fuel ih =>
    have hpath := hpos.path
    cases r with
    | nil =>
      have hstr : str = [] := by
        rcases hpos.entry with hnil | ⟨q, c, cs, rs, -, -, -, hr, -⟩
        · exact hnil
        · cases hr
      subst hstr
      refine ⟨some cur, by rw [Utf8.encode_nil, findLoop_last prefixMatch cur [] (Nat.succ_pos _)]; simp, ?_, ?_⟩
      · rintro i hi
        obtain rfl := Option.some.inj hi
        exact ⟨hpos.lt, by rw [hpath], fun _ => hpath, fun j _ hpre => by rwa [hpath]⟩
      · intro hnone
        cases hnone
    | cons a r =>
      rw [findLoop, if_neg (encode_ne_nil a r)]
      by_cases hstrpre : str <+: a :: r
      · -- the string of the node ends first
        obtain ⟨r', hr⟩ := hstrpre
        have hs : base ++ a :: r = ps cur ++ r' := by rw [← hr, hpath, List.append_assoc]
        rw [← hr, Utf8.encode_append, matchBytes_append_right]
        dsimp only
        cases r' with
        | nil =>
          rw [List.append_nil] at hs hr
          rw [hr, Utf8.encode_nil, if_neg fun hne => hne.2 rfl]
          refine ⟨some cur, ?_, ?_, ?_⟩
          · rw [findLoop_last prefixMatch cur [] (by rw [List.length_cons] at hfuel; omega)]
            simp
          · rintro i hi
            obtain rfl := Option.some.inj hi
            rw [List.append_nil, hs]
            exact ⟨hpos.lt, List.prefix_rfl, fun _ => rfl, fun j _ hpre => hpre⟩
          · intro hnone
            cases hnone
        | cons e es =>
          rw [hr, hs, if_pos ⟨rfl, encode_ne_nil e es⟩, Utf8.next_encode]
          dsimp only
          cases hlookup : OrderedMap.lookup e.val.toNat (h.node cur).children with
          | none =>
            refine ⟨none, rfl, found_none prefixMatch fun j hj hpre => ?_⟩
            have hnext : ps cur ++ [e] <+: ps j := by
              refine List.IsPrefix.trans ⟨es, ?_⟩ hpre
              rw [List.append_assoc, List.singleton_append]
            obtain ⟨k, cs, hk, hchild, -⟩ := hw.descend_next hpos.lt hj hnext
            exact hw.lookup_eq_none hpos.lt hlookup hk cs hchild
          | some k =>
            obtain ⟨hk, cs, hchild⟩ := (hw.lookup_eq_some hpos.lt).mp hlookup
            have hpos' := Position.child hk hpos.lt hchild es
            dsimp only
            rw [hpos'.bytes]
            refine ih hpos' ?_
            rw [if_neg (List.cons_ne_nil e cs)]
            rw [← hr, List.length_append] at hfuel
            by_cases hnil : str = []
            · rw [if_pos hnil, hnil, List.length_nil] at hfuel
              omega
            · have hstrpos := List.length_pos_iff.mpr hnil
              rw [if_neg hnil] at hfuel
              omega
      · -- the node is entered by the first code point
        obtain ⟨q, c, cs, rs, -, -, rfl, hr, hchild⟩ := hpos.entry.resolve_left (by
          rintro rfl
          exact hstrpre List.nil_prefix)
        obtain ⟨rfl, rfl⟩ := List.cons_eq_cons.mp hr
        have hbelow : ∀ j, j < h.size → base ++ a :: r <+: ps j → ps cur <+: ps j := by
          intro j hj hpre
          refine hpos.below hw rfl ⟨j, hj, rfl⟩ (List.IsPrefix.trans ⟨r, ?_⟩ hpre)
          rw [List.append_assoc, List.singleton_append]
        by_cases hrpre : a :: r <+: a :: cs
        · obtain ⟨str', hstr'⟩ := hrpre
          have hne : str' ≠ [] := by
            rintro rfl
            rw [List.append_nil] at hstr'
            exact hstrpre (by rw [hstr'])
          have hpre : base ++ a :: r <+: ps cur := by
            rw [hpath, ← hstr', ← List.append_assoc]
            exact List.prefix_append _ _
          rw [← hstr', Utf8.encode_append, matchBytes_append_left]
          dsimp only
          rw [if_neg fun h => h.2 rfl, findLoop_last prefixMatch cur _ (by
            rw [List.length_cons] at hfuel
            omega)]
          have hne' : Utf8.encode str' ≠ [] := fun hnil => hne (encode_eq_nil.mp hnil)
          cases prefixMatch with
          | true =>
            refine ⟨some cur, by simp, ?_, fun hnone => by cases hnone⟩
            rintro i hi
            obtain rfl := Option.some.inj hi
            exact ⟨hpos.lt, hpre, fun htrue => Bool.noConfusion htrue, hbelow⟩
          | false =>
            refine ⟨none, by simp [hne'], fun i hi => (by cases hi), fun _ j hj hprej => ⟨rfl, ?_⟩⟩
            intro heq
            have hle := (hbelow j hj hprej).length_le
            rw [heq, hpath, ← hstr', List.length_append, List.length_append,
              List.length_append] at hle
            have hpos' := List.length_pos_iff.mpr hne
            omega
        · rw [matchBytes_of_not_isPrefix (fun h => hstrpre (encode_isPrefix.mp h))
            fun h => hrpre (encode_isPrefix.mp h)]
          refine ⟨none, rfl, found_none prefixMatch fun j hj hpre => ?_⟩
          have hcur := hbelow j hj hpre
          rw [hpath] at hcur
          rcases List.prefix_or_prefix_of_prefix hpre hcur with hle | hle
          · exact hrpre ((List.prefix_append_right_inj base).mp hle)
          · exact hstrpre ((List.prefix_append_right_inj base).mp hle)

end TrieHeap

end Sserialize
