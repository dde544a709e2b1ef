import Sserialize.Containers.HashBasedFlatTrieFinalize

namespace Sserialize.HashBasedFlatTrie

open Utf8 (encode)
open PrefixTree (lcp Closure Group missing)

variable {V : Type} [Inhabited V]

structure HasStrings (ht : OADHashTable Bytes V) (S : List (List Char)) : Prop where
  valid : ht.Valid
  keys : keys ht = S.map encode
  size : ht.size ≤ ht.sizeMax

variable {S : List (List Char)} {ht : OADHashTable Bytes V}

omit [Inhabited V] in
theorem HasStrings.nodup (h : HasStrings ht S) : S.Nodup := by
  have hnodup : (HashBasedFlatTrie.keys ht).Nodup := h.valid.nodup
  rw [h.keys] at hnodup
  exact hnodup.of_map

omit [Inhabited V] in
theorem HasStrings.length (h : HasStrings ht S) : S.length = ht.size := by
  have hlen := congrArg List.length h.keys
  rw [HashBasedFlatTrie.keys, OrderedMap.keys, List.length_map, List.length_map] at hlen
  exact hlen.symm

omit [Inhabited V] in
theorem HasStrings.mem (h : HasStrings ht S) (s : List Char) :
    encode s ∈ OrderedMap.keys ht.valueStorage ↔ s ∈ S := by
  have hkeys : OrderedMap.keys ht.valueStorage = S.map encode := h.keys
  rw [hkeys, List.mem_map_of_injective Utf8.encode_injective]

theorem exists_strings {l : List Bytes} (h : ∀ x ∈ l, ∃ s, x = encode s) :
    ∃ S : List (List Char), l = S.map encode := by
  induction l with
  | nil => exact ⟨[], rfl⟩
  | cons x l ih =>
    rw [List.forall_mem_cons] at h
    obtain ⟨s, rfl⟩ := h.1
    obtain ⟨S, rfl⟩ := ih h.2
    exact ⟨s :: S, rfl⟩

variable {fuel : Nat}

theorem sort_spec {ht ht' : OADHashTable Bytes V} (h : HasStrings ht S) (sort : KeySort V)
    (hstep : ht.step fuel (.sort sort.op) = some (.ok ht')) :
    ∃ S', HasStrings ht' S' ∧ S'.Pairwise (· < ·) ∧ ∀ s, s ∈ S' ↔ s ∈ S := by
  obtain ⟨hvalid, hvalues, -⟩ := OADHashTable.step_spec h.valid hstep
  rw [OADHashTable.Op.apply] at hvalues
  have hperm : (HashBasedFlatTrie.keys ht').Perm (S.map encode) := by
    rw [← h.keys, HashBasedFlatTrie.keys, hvalues]
    exact (sort.op.perm ht.valueStorage).map Prod.fst
  obtain ⟨S', hS'⟩ := exists_strings (l := HashBasedFlatTrie.keys ht') (by
    intro x hx
    obtain ⟨s, -, rfl⟩ := List.mem_map.mp (hperm.mem_iff.mp hx)
    exact ⟨s, rfl⟩)
  have hstrings : HasStrings ht' S' :=
    ⟨hvalid, hS', OADHashTable.step_size h.valid h.size hstep⟩
  have hmem : ∀ s, s ∈ S' ↔ s ∈ S := by
    intro s
    rw [hS'] at hperm
    rw [← List.mem_map_of_injective Utf8.encode_injective, hperm.mem_iff,
      List.mem_map_of_injective Utf8.encode_injective]
  refine ⟨S', hstrings, ?_, hmem⟩
  have hsorted := sort.op.sorted ht.valueStorage
  have hnot : (HashBasedFlatTrie.keys ht').Pairwise fun a b =>
      ∀ s s', a = encode s → b = encode s' → ¬ s' < s := by
    rw [HashBasedFlatTrie.keys, hvalues, OrderedMap.keys, List.pairwise_map]
    refine hsorted.imp ?_
    intro a b hlt s s' ha hb hgt
    have hsmaller := unicodeIsSmaller_encode s' s
    rw [decide_eq_true hgt, ← ha, ← hb] at hsmaller
    rw [sort.smaller b a true hsmaller] at hlt
    cases hlt
  rw [hS', List.pairwise_map] at hnot
  refine (hnot.and hstrings.nodup).imp ?_
  rintro s s' ⟨hle, hne⟩
  exact lt_of_le_of_ne (not_lt.mp (hle s s' rfl rfl)) hne

theorem foldl_insertOps {M : List (List Char)} {m : List (Bytes × V)} (hnodup : M.Nodup)
    (hnew : ∀ s ∈ M, encode s ∉ OrderedMap.keys m) :
    (insertOps M).foldl OADHashTable.Op.apply m =
      m ++ M.map fun s => (encode s, default) := by
  induction M generalizing m with
  | nil => exact (List.append_nil m).symm
  | cons s M ih =>
    rw [List.forall_mem_cons] at hnew
    rw [List.nodup_cons] at hnodup
    have hrest : ∀ s' ∈ M, encode s' ∉ OrderedMap.keys (m ++ [(encode s, default)]) := by
      intro s' hs' hmem
      rw [OrderedMap.keys_append, List.mem_append] at hmem
      rcases hmem with hmem | hmem
      · exact hnew.2 s' hs' hmem
      · have heq := Utf8.encode_injective (List.mem_singleton.mp hmem)
        exact hnodup.1 (heq ▸ hs')
    rw [insertOps, List.map_cons, List.foldl_cons, OADHashTable.Op.apply, OrderedMap.insert,
      if_neg hnew.1]
    change (insertOps M).foldl _ _ = _
    rw [ih hnodup.2 hrest, List.append_assoc, List.map_cons]
    rfl

theorem insertOps_spec {ht ht' : OADHashTable Bytes V} {S M : List (List Char)}
    (h : HasStrings ht S) (hnodup : M.Nodup) (hnew : ∀ s ∈ M, s ∉ S)
    (hrun : ht.run fuel (insertOps M) = some (.ok ht')) : HasStrings ht' (S ++ M) := by
  obtain ⟨hvalid, hvalues⟩ := OADHashTable.run_spec h.valid hrun
  rw [foldl_insertOps hnodup fun s hs => by rw [h.mem]; exact hnew s hs] at hvalues
  refine ⟨hvalid, ?_, (OADHashTable.run_size h.valid h.size hrun).1⟩
  have hkeys := h.keys
  rw [HashBasedFlatTrie.keys] at hkeys ⊢
  rw [hvalues, OrderedMap.keys_append, hkeys, List.map_append, OrderedMap.keys, List.map_map]
  rfl

def finalizeOps (sort : KeySort V) (S : List (List Char)) : List (OADHashTable.Op Bytes V) :=
  .sort sort.op :: (insertOps (missing S) ++ [.sort sort.op])

variable {t : HashBasedFlatTrie V}

theorem finalize_eq (h : HasStrings t.ht S) (fuel : Nat) (sort : KeySort V) :
    t.finalize fuel sort =
      match t.ht.run fuel (finalizeOps sort S) with
      | none => none
      | some (.error e) => some (.error e)
      | some (.ok ht) => some (.ok { t with ht := ht }) := by
  rw [finalize, finalizeOps, OADHashTable.run, OADHashTable.step]
  cases hsort : t.ht.sort fuel sort.op with
  | none => rfl
  | some ht₁ =>
    have hstep : t.ht.step fuel (.sort sort.op) = some (.ok ht₁) := by
      rw [OADHashTable.step, hsort]
      rfl
    obtain ⟨S₁, hstrings, hsorted, hmem⟩ := sort_spec h sort hstep
    obtain ⟨M, hmissing, hinserts⟩ := finalizeNode_spec (V := V) fuel S₁.length [] S₁
      (Nat.le_refl _) hsorted fun s _ => List.nil_prefix
    have hM : M = missing S := by
      rw [hmissing.eq_missing, PrefixTree.missing_congr hmem]
    have hnode := hinserts ht₁ 0 hstrings.valid (by
      rw [range, hstrings.keys, Nat.zero_add, List.drop_zero, List.take_of_length_le (by simp)])
    rw [Nat.zero_add, hstrings.length, Utf8.encode_nil, List.length_nil, hM] at hnode
    rw [Option.map_some]
    dsimp only
    rw [hnode, OADHashTable.run_append]
    cases hrun : ht₁.run fuel (insertOps (missing S)) with
    | none => rfl
    | some r =>
      cases r with
      | error e => rfl
      | ok ht₂ =>
        dsimp only
        rw [OADHashTable.run, OADHashTable.step]
        cases ht₂.sort fuel sort.op <;> rfl

theorem finalize_spec {t t' : HashBasedFlatTrie V} (h : HasStrings t.ht S) {sort : KeySort V}
    (hfinal : t.finalize fuel sort = some (.ok t')) :
    ∃ S', HasStrings t'.ht S' ∧ S'.Pairwise (· < ·) ∧ (∀ s, s ∈ S' ↔ Closure S s) ∧
      t'.ht.size = t.ht.size + (missing S).length ∧ t'.ht.sizeMax = t.ht.sizeMax := by
  rw [finalize_eq h] at hfinal
  split at hfinal
  · cases hfinal
  · cases hfinal
  · rename_i ht₃ hrun
    obtain rfl := some_ok_inj hfinal
    have hmax := (OADHashTable.run_size h.valid h.size hrun).2
    rw [finalizeOps, OADHashTable.run] at hrun
    split at hrun
    · cases hrun
    · cases hrun
    · rename_i ht₁ hstep₁
      obtain ⟨S₁, hstrings₁, -, hmem₁⟩ := sort_spec h sort hstep₁
      rw [OADHashTable.run_append] at hrun
      split at hrun
      · cases hrun
      · cases hrun
      · rename_i ht₂ hrun₂
        have hmissing := PrefixTree.isMissing_missing S
        have hstrings₂ := insertOps_spec hstrings₁ (hmissing.sorted.imp fun hlt => hlt.ne)
          (fun s hs => by
            rw [hmem₁]
            exact ((hmissing.mem s).mp hs).2) hrun₂
        rw [OADHashTable.run] at hrun
        split at hrun
        · cases hrun
        · cases hrun
        · rename_i ht₃' hstep₃
          obtain rfl := some_ok_inj hrun
          obtain ⟨S₃, hstrings₃, hsorted₃, hmem₃⟩ := sort_spec hstrings₂ sort hstep₃
          refine ⟨S₃, hstrings₃, hsorted₃, ?_, ?_, hmax⟩
          · intro s
            rw [hmem₃, List.mem_append, hmem₁, hmissing.mem]
            constructor
            · rintro (hs | hs)
              · exact PrefixTree.closure_of_mem hs
              · exact hs.1
            · intro hs
              by_cases hmem : s ∈ S
              · exact .inl hmem
              · exact .inr ⟨hs, hmem⟩
          · have hlen₁ : S₁.length = S.length := by
              exact ((List.perm_ext_iff_of_nodup hstrings₁.nodup h.nodup).mpr hmem₁).length_eq
            have hlen₃ : S₃.length = (S₁ ++ missing S).length :=
              ((List.perm_ext_iff_of_nodup hstrings₃.nodup hstrings₂.nodup).mpr hmem₃).length_eq
            rw [List.length_append, hlen₁, h.length, hstrings₃.length] at hlen₃
            exact hlen₃

theorem not_overflows_insertOps {sizeMax : Nat} {m : List (Bytes × V)} {M : List (List Char)}
    (op : SortOp (Bytes × V)) (h : m.length + M.length ≤ sizeMax) :
    ¬ OADHashTable.Overflows sizeMax m (insertOps M ++ [.sort op]) := by
  induction M generalizing m with
  | nil =>
    rintro (hlt | hrest)
    · rw [OADHashTable.Op.apply, (op.perm m).length_eq] at hlt
      exact absurd hlt (by simpa using h)
    · exact hrest
  | cons s M ih =>
    have hle := OrderedMap.length_insert_le (encode s) default m
    rw [List.length_cons] at h
    rintro (hlt | hrest)
    · rw [OADHashTable.Op.apply] at hlt
      omega
    · exact ih (by rw [OADHashTable.Op.apply]; omega) hrest

/-- `finalize` returns exactly if the growth of the table ends and the inner nodes can be
counted. -/
theorem finalize_returns (h : HasStrings t.ht S) (sort : KeySort V) :
    (∃ fuel t', t.finalize fuel sort = some (.ok t')) ↔
      t.ht.RunReady (finalizeOps sort S) ∧ t.ht.size + (missing S).length ≤ t.ht.sizeMax := by
  rw [← OADHashTable.run_ends h.valid]
  constructor
  · rintro ⟨fuel, t', hfinal⟩
    obtain ⟨S', hstrings, -, -, hsize, hmax⟩ := finalize_spec h hfinal
    refine ⟨?_, ?_⟩
    · rw [finalize_eq h] at hfinal
      split at hfinal
      · cases hfinal
      · cases hfinal
      · rename_i ht hrun
        exact ⟨fuel, .ok ht, hrun⟩
    · rw [← hsize, ← hmax]
      exact hstrings.size
  · rintro ⟨⟨fuel, r, hrun⟩, hsize⟩
    refine ⟨fuel, ?_⟩
    rw [finalize_eq h, hrun]
    cases r with
    | ok ht => exact ⟨_, rfl⟩
    | error e =>
      rcases OADHashTable.run_error h.valid hrun with hlt | hrest
      · rw [OADHashTable.Op.apply, (sort.op.perm t.ht.valueStorage).length_eq] at hlt
        have hle := h.size
        rw [OADHashTable.size] at hle
        omega
      · refine absurd hrest (not_overflows_insertOps sort.op ?_)
        rw [OADHashTable.Op.apply, (sort.op.perm t.ht.valueStorage).length_eq]
        exact hsize

/-- The operations of a trie. A string is given by its code points. -/
inductive Op (V : Type) where
  | insert (s : List Char)
  | finalize (sort : KeySort V)

def step (fuel : Nat) (t : HashBasedFlatTrie V) : Op V → Option (Except Fault (HashBasedFlatTrie V))
  | .insert s => t.insert fuel (encode s)
  | .finalize sort => t.finalize fuel sort

def run (fuel : Nat) (t : HashBasedFlatTrie V) :
    List (Op V) → Option (Except Fault (HashBasedFlatTrie V))
  | [] => some (.ok t)
  | op :: ops =>
    match t.step fuel op with
    | none => none
    | some (.error e) => some (.error e)
    | some (.ok t) => run fuel t ops

def inserted : List (Op V) → List (List Char)
  | [] => []
  | .insert s :: ops => s :: inserted ops
  | .finalize _ :: ops => inserted ops

/-- The string is stored, or it is short enough, the string data and the value pointers have room
and the growth of the table ends; for `finalize`, the inner nodes can be counted and the growth of
the table ends. -/
def Op.Ready (t : HashBasedFlatTrie V) : Op V → Prop
  | .insert s => (encode s).length ≤ maxStringSize ∧ (t.ht.count (encode s) = true ∨
      t.stringData.length < noff ∧ t.ht.Grows (encode s) ∧ t.ht.size < t.ht.sizeMax)
  | .finalize sort => ∃ S : List (List Char), keys t.ht = S.map encode ∧
      t.ht.RunReady (finalizeOps sort S) ∧ t.ht.size + (missing S).length ≤ t.ht.sizeMax

def RunReady (t : HashBasedFlatTrie V) : List (Op V) → Prop
  | [] => True
  | op :: ops => op.Ready t ∧ ∀ fuel t', t.step fuel op = some (.ok t') → RunReady t' ops

omit [Inhabited V] in
theorem hasStrings_new : HasStrings (new : HashBasedFlatTrie V).ht [] :=
  ⟨OADHashTable.valid_new _ _ _, rfl, Nat.zero_le _⟩

theorem run_singleton (fuel : Nat) (ht : OADHashTable Bytes V) (s : List Char) :
    ht.run fuel (insertOps [s]) = ht.insert fuel (encode s) := by
  rw [insertOps, List.map_singleton, OADHashTable.run, OADHashTable.step]
  cases ht.insert fuel (encode s) with
  | none => rfl
  | some r => cases r <;> rfl

omit [Inhabited V] in
theorem count_eq (h : HasStrings ht S) (s : List Char) : ht.count (encode s) = decide (s ∈ S) := by
  rw [OADHashTable.count_spec h.valid]
  exact decide_eq_decide.mpr (h.mem s)

theorem insert_spec {t t' : HashBasedFlatTrie V} {s : List Char} (h : HasStrings t.ht S)
    (hinsert : t.insert fuel (encode s) = some (.ok t')) :
    HasStrings t'.ht (if s ∈ S then S else S ++ [s]) := by
  rw [HashBasedFlatTrie.insert, count_eq h] at hinsert
  split at hinsert
  · cases hinsert
  by_cases hmem : s ∈ S
  · rw [if_pos (decide_eq_true hmem)] at hinsert
    obtain rfl := some_ok_inj hinsert
    rw [if_pos hmem]
    exact h
  · rw [if_neg (by simpa using hmem)] at hinsert
    rw [if_neg hmem]
    split at hinsert
    · cases hinsert
    split at hinsert
    · cases hinsert
    · cases hinsert
    · rename_i ht hht
      obtain rfl := some_ok_inj hinsert
      rw [← run_singleton] at hht
      exact insertOps_spec h (List.nodup_singleton s) (by simpa using hmem) hht

theorem insert_returns (h : HasStrings t.ht S) (s : List Char) :
    (∃ fuel t', t.insert fuel (encode s) = some (.ok t')) ↔ (Op.insert s : Op V).Ready t := by
  have hready : t.ht.RunReady (insertOps [s]) ↔ t.ht.Grows (encode s) :=
    ⟨fun hrun => hrun.1, fun hgrows => ⟨hgrows, fun _ _ _ => trivial⟩⟩
  have hends : _ ↔ t.ht.RunReady (insertOps [s]) := OADHashTable.run_ends h.valid
  rw [hready] at hends
  simp only [run_singleton] at hends
  rw [Op.Ready, ← hends]
  constructor
  · rintro ⟨fuel, t', hinsert⟩
    have hstrings := insert_spec h hinsert
    rw [HashBasedFlatTrie.insert] at hinsert
    split at hinsert
    · cases hinsert
    rename_i hshort
    refine ⟨by omega, ?_⟩
    by_cases hcount : t.ht.count (encode s) = true
    · exact .inl hcount
    · refine .inr ?_
      rw [if_neg hcount] at hinsert
      split at hinsert
      · cases hinsert
      rename_i hroom
      split at hinsert
      · cases hinsert
      · cases hinsert
      · rename_i ht hht
        obtain rfl := some_ok_inj hinsert
        have hmem : s ∉ S := by
          rw [count_eq h] at hcount
          simpa using hcount
        rw [if_neg hmem] at hstrings
        have hlen := hstrings.length
        have hsize := hstrings.size
        rw [List.length_append, List.length_singleton, h.length] at hlen
        rw [← run_singleton] at hht
        have hmax := (OADHashTable.run_size h.valid h.size hht).2
        rw [run_singleton] at hht
        exact ⟨by omega, ⟨fuel, .ok ht, hht⟩, by rw [← hmax]; dsimp only at hlen hsize; omega⟩
  · rintro ⟨hshort, hcount | ⟨hroom, ⟨fuel, r, hht⟩, hsize⟩⟩
    · refine ⟨0, t, ?_⟩
      rw [HashBasedFlatTrie.insert, if_neg (by omega), if_pos hcount]
    · by_cases hcount : t.ht.count (encode s) = true
      · refine ⟨0, t, ?_⟩
        rw [HashBasedFlatTrie.insert, if_neg (by omega), if_pos hcount]
      · refine ⟨fuel, ?_⟩
        rw [HashBasedFlatTrie.insert, if_neg (by omega), if_neg hcount, if_neg (by omega), hht]
        cases r with
        | ok ht => exact ⟨_, rfl⟩
        | error e =>
          rw [← run_singleton] at hht
          rcases OADHashTable.run_error h.valid hht with hlt | hrest
          · have hmem := (count_eq h s).symm.trans (Bool.eq_false_iff.mpr hcount)
            rw [decide_eq_false_iff_not, ← h.mem] at hmem
            rw [OADHashTable.Op.apply, OrderedMap.insert, if_neg hmem, List.length_append,
              List.length_singleton] at hlt
            rw [OADHashTable.size] at hsize
            omega
          · exact absurd hrest fun h => h

variable {r : Except Fault (HashBasedFlatTrie V)}

theorem insert_mono {fuel fuel' : Nat} {a : Bytes} (hle : fuel ≤ fuel')
    (h : t.insert fuel a = some r) : t.insert fuel' a = some r := by
  rw [HashBasedFlatTrie.insert] at h ⊢
  split
  · rename_i hlong
    rwa [if_pos hlong] at h
  rename_i hshort
  rw [if_neg hshort] at h
  split
  · rename_i hcount
    rwa [if_pos hcount] at h
  rename_i hcount
  rw [if_neg hcount] at h
  split
  · rename_i hfull
    rwa [if_pos hfull] at h
  rename_i hroom
  rw [if_neg hroom] at h
  cases hht : t.ht.insert fuel a with
  | none =>
    rw [hht] at h
    cases h
  | some r' =>
    have hstep : t.ht.step fuel (.insert a) = some r' := hht
    have hht' : t.ht.insert fuel' a = some r' := OADHashTable.step_mono hle hstep
    rw [hht] at h
    rw [hht']
    exact h

theorem step_mono {fuel fuel' : Nat} {op : Op V} (hstrings : HasStrings t.ht S)
    (hle : fuel ≤ fuel') (h : t.step fuel op = some r) : t.step fuel' op = some r := by
  cases op with
  | insert s => exact insert_mono hle h
  | finalize sort =>
    rw [step, finalize_eq hstrings] at h ⊢
    cases hrun : t.ht.run fuel (finalizeOps sort S) with
    | none =>
      rw [hrun] at h
      cases h
    | some r' =>
      rw [hrun] at h
      rw [OADHashTable.run_mono hle hrun]
      exact h

theorem step_returns (h : HasStrings t.ht S) (op : Op V) :
    (∃ fuel t', t.step fuel op = some (.ok t')) ↔ op.Ready t := by
  cases op with
  | insert s => exact insert_returns h s
  | finalize sort =>
    rw [Op.Ready]
    constructor
    · intro hfinal
      exact ⟨S, h.keys, (finalize_returns h sort).mp hfinal⟩
    · rintro ⟨S', hkeys, hready⟩
      exact (finalize_returns ⟨h.valid, hkeys, h.size⟩ sort).mpr hready

/-- The strings after an operation are the inserted ones, so far `T`, and some of their longest
common prefixes. -/
theorem step_spec {t t' : HashBasedFlatTrie V} {S T : List (List Char)} {op : Op V}
    (h : HasStrings t.ht S) (hsub : ∀ s ∈ T, s ∈ S) (hclosure : ∀ s ∈ S, Closure T s)
    (hstep : t.step fuel op = some (.ok t')) :
    ∃ S', HasStrings t'.ht S' ∧ (∀ s ∈ T ++ inserted [op], s ∈ S') ∧
      ∀ s ∈ S', Closure (T ++ inserted [op]) s := by
  cases op with
  | insert s =>
    have hgrow : ∀ x ∈ S, Closure (T ++ [s]) x := by
      intro x hx
      obtain ⟨a, ha, b, hb, heq⟩ := hclosure x hx
      exact ⟨a, List.mem_append_left [s] ha, b, List.mem_append_left [s] hb, heq⟩
    refine ⟨_, insert_spec h hstep, ?_, ?_⟩
    · intro x hx
      rcases List.mem_append.mp hx with hx | hx
      · split
        · exact hsub x hx
        · exact List.mem_append_left [s] (hsub x hx)
      · obtain rfl := List.mem_singleton.mp hx
        split
        · assumption
        · exact List.mem_append_right S List.mem_cons_self
    · intro x hx
      split at hx
      · exact hgrow x hx
      · rcases List.mem_append.mp hx with hx | hx
        · exact hgrow x hx
        · exact PrefixTree.closure_of_mem (List.mem_append_right T hx)
  | finalize sort =>
    obtain ⟨S', hstrings, -, hmem, -⟩ := finalize_spec h hstep
    rw [inserted, inserted, List.append_nil]
    refine ⟨S', hstrings, ?_, ?_⟩
    · intro s hs
      exact (hmem s).mpr (PrefixTree.closure_of_mem (hsub s hs))
    · intro s hs
      exact (PrefixTree.closure_congr hsub hclosure s).mp ((hmem s).mp hs)

omit [Inhabited V] in
theorem inserted_cons (op : Op V) (ops : List (Op V)) :
    inserted (op :: ops) = inserted [op] ++ inserted ops := by
  cases op <;> rfl

variable {ops : List (Op V)}

theorem run_spec {t t' : HashBasedFlatTrie V} {S T : List (List Char)} (h : HasStrings t.ht S)
    (hsub : ∀ s ∈ T, s ∈ S) (hclosure : ∀ s ∈ S, Closure T s)
    (hrun : run fuel t ops = some (.ok t')) :
    ∃ S', HasStrings t'.ht S' ∧ (∀ s ∈ T ++ inserted ops, s ∈ S') ∧
      ∀ s ∈ S', Closure (T ++ inserted ops) s := by
  induction ops generalizing t S T with
  | nil =>
    obtain rfl := some_ok_inj hrun
    rw [inserted, List.append_nil]
    exact ⟨S, h, hsub, hclosure⟩
  | cons op ops ih =>
    rw [run] at hrun
    split at hrun
    · cases hrun
    · cases hrun
    · rename_i t₁ hstep
      obtain ⟨S₁, hstrings₁, hsub₁, hclosure₁⟩ := step_spec h hsub hclosure hstep
      have hrest := ih hstrings₁ hsub₁ hclosure₁ hrun
      rwa [List.append_assoc, ← inserted_cons] at hrest

theorem run_mono {fuel fuel' : Nat} {S T : List (List Char)} (h : HasStrings t.ht S)
    (hsub : ∀ s ∈ T, s ∈ S) (hclosure : ∀ s ∈ S, Closure T s) (hle : fuel ≤ fuel')
    (hrun : run fuel t ops = some r) : run fuel' t ops = some r := by
  induction ops generalizing t S T with
  | nil => exact hrun
  | cons op ops ih =>
    rw [run] at hrun ⊢
    cases hstep : t.step fuel op with
    | none =>
      rw [hstep] at hrun
      cases hrun
    | some r' =>
      rw [hstep] at hrun
      rw [step_mono h hle hstep]
      cases r' with
      | error e => exact hrun
      | ok t₁ =>
        obtain ⟨S₁, hstrings₁, hsub₁, hclosure₁⟩ := step_spec h hsub hclosure hstep
        exact ih hstrings₁ hsub₁ hclosure₁ hrun

theorem run_returns {S T : List (List Char)} (h : HasStrings t.ht S) (hsub : ∀ s ∈ T, s ∈ S)
    (hclosure : ∀ s ∈ S, Closure T s) :
    (∃ fuel t', run fuel t ops = some (.ok t')) ↔ RunReady t ops := by
  induction ops generalizing t S T with
  | nil => exact ⟨fun _ => trivial, fun _ => ⟨0, t, rfl⟩⟩
  | cons op ops ih =>
    constructor
    · rintro ⟨fuel, t', hrun⟩
      rw [run] at hrun
      split at hrun
      · cases hrun
      · cases hrun
      · rename_i t₁ hstep
        refine ⟨(step_returns h op).mp ⟨fuel, t₁, hstep⟩, ?_⟩
        intro fuel₂ t₂ hstep₂
        have hsame := step_mono h (Nat.le_max_left fuel fuel₂) hstep
        rw [step_mono h (Nat.le_max_right fuel fuel₂) hstep₂] at hsame
        obtain rfl := some_ok_inj hsame
        obtain ⟨S₁, hstrings₁, hsub₁, hclosure₁⟩ := step_spec h hsub hclosure hstep
        exact (ih hstrings₁ hsub₁ hclosure₁).mp ⟨fuel, t', hrun⟩
    · rintro ⟨hready, hrest⟩
      obtain ⟨fuel, t₁, hstep⟩ := (step_returns h op).mpr hready
      obtain ⟨S₁, hstrings₁, hsub₁, hclosure₁⟩ := step_spec h hsub hclosure hstep
      obtain ⟨fuel', t', hrun⟩ := (ih hstrings₁ hsub₁ hclosure₁).mpr (hrest fuel t₁ hstep)
      refine ⟨max fuel fuel', t', ?_⟩
      rw [run, step_mono h (Nat.le_max_left fuel fuel') hstep]
      exact run_mono hstrings₁ hsub₁ hclosure₁ (Nat.le_max_right fuel fuel') hrun

theorem run_append (fuel : Nat) (t : HashBasedFlatTrie V) (ops ops' : List (Op V)) :
    run fuel t (ops ++ ops') =
      match run fuel t ops with
      | none => none
      | some (.error e) => some (.error e)
      | some (.ok t) => run fuel t ops' := by
  induction ops generalizing t with
  | nil => rfl
  | cons op ops ih =>
    rw [List.cons_append, run, run]
    cases t.step fuel op with
    | none => rfl
    | some r =>
      cases r with
      | error e => rfl
      | ok t₁ => exact ih t₁

theorem run_finalize {sort : KeySort V}
    (hrun : run fuel new (ops ++ [.finalize sort]) = some (.ok t)) :
    ∃ S, HasStrings t.ht S ∧ S.Pairwise (· < ·) ∧ ∀ s, s ∈ S ↔ Closure (inserted ops) s := by
  rw [run_append] at hrun
  split at hrun
  · cases hrun
  · cases hrun
  · rename_i t₁ hrun₁
    obtain ⟨S₁, hstrings₁, hsub₁, hclosure₁⟩ := run_spec (T := []) hasStrings_new (by simp)
      (by simp) hrun₁
    rw [List.nil_append] at hsub₁ hclosure₁
    rw [run] at hrun
    split at hrun
    · cases hrun
    · cases hrun
    · rename_i t₂ hstep
      obtain rfl := some_ok_inj hrun
      obtain ⟨S, hstrings, hsorted, hmem, -⟩ := finalize_spec hstrings₁ hstep
      refine ⟨S, hstrings, hsorted, fun s => ?_⟩
      rw [hmem, PrefixTree.closure_congr hsub₁ hclosure₁]

end Sserialize.HashBasedFlatTrie
