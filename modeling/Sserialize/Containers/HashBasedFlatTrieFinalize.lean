import Sserialize.Containers.HashBasedFlatTrie

namespace Sserialize.HashBasedFlatTrie

open Utf8 (encode)
open PrefixTree (Group IsMissing IsMissingBelow)

theorem drop_encode (p s : List Char) :
    (encode (p ++ s)).drop (encode p).length = encode s := by
  rw [Utf8.encode_append, List.drop_left]

variable {p s : List Char}

theorem length_encode_le (h : p <+: s) : (encode p).length ≤ (encode s).length := by
  obtain ⟨r, rfl⟩ := h
  rw [Utf8.encode_append, List.length_append]
  exact Nat.le_add_right _ _

theorem length_encode_lt (h : p <+: s) : (encode p).length < (encode s).length ↔ s ≠ p := by
  constructor
  · rintro hlt rfl
    exact Nat.lt_irrefl _ hlt
  · intro hne
    obtain ⟨c, hc⟩ := PrefixTree.exists_next h hne
    have hle := length_encode_le hc
    have hpos := Utf8.lt_length_utf8EncodeChar c
    rw [Utf8.encode_append, List.length_append, Utf8.encode_cons, List.length_append] at hle
    omega

theorem take_encode (h : p <+: s) : (encode s).take (encode p).length = encode p := by
  obtain ⟨r, rfl⟩ := h
  rw [Utf8.encode_append, List.take_left]

theorem next_drop {c : Char} (h : p ++ [c] <+: s) :
    ∃ rest, Utf8.next ((encode s).drop (encode p).length) = .ok (c.val.toNat, rest) ∧
      (encode s).length - rest.length = (encode (p ++ [c])).length := by
  obtain ⟨r, rfl⟩ := h
  refine ⟨encode r, ?_, ?_⟩
  · rw [List.append_assoc, drop_encode]
    exact Utf8.next_encode c r
  · rw [Utf8.encode_append (p ++ [c]) r, List.length_append, Nat.add_sub_cancel]

section Range

variable {α β : Type} {l l₁ l₂ : List α} {b n : Nat}

theorem range_map (f : α → β) (l : List α) (b e : Nat) :
    range (l.map f) b e = (range l b e).map f := by
  rw [range, range, ← List.map_take, ← List.map_drop]

theorem range_left {e : Nat} (h : range l b e = l₁ ++ l₂) (hn : l₁.length = n)
    (he : b + n ≤ e) : range l b (b + n) = l₁ := by
  have htake := congrArg (List.take l₁.length) h
  rwa [List.take_left, range, List.take_drop, List.take_take, hn, Nat.min_eq_left he] at htake

theorem range_right {e : Nat} (h : range l b e = l₁ ++ l₂) (hn : l₁.length = n) :
    range l (b + n) e = l₂ := by
  have hdrop := congrArg (List.drop l₁.length) h
  rwa [List.drop_left, range, List.drop_drop, hn] at hdrop

theorem range_append (extra : List α) (h : (range l b (b + n)).length = n) :
    range (l ++ extra) b (b + n) = range l b (b + n) := by
  rw [range, List.length_drop, List.length_take] at h
  rw [range, range]
  by_cases hn : n = 0
  · subst hn
    rw [List.drop_of_length_le (by simp), List.drop_of_length_le (by simp)]
  · rw [List.take_append_of_le_length (by omega)]

theorem getElem?_of_range {a : α} {e : Nat} (h : range l b e = a :: l₁) : l[b]? = some a := by
  have hhead := congrArg (fun l => l[0]?) h
  rw [List.getElem?_cons_zero, range, List.getElem?_drop, Nat.add_zero] at hhead
  have hb : b < (l.take e).length := (List.getElem?_eq_some_iff.mp hhead).1
  rw [List.length_take] at hb
  rwa [List.getElem?_take, if_pos (by omega)] at hhead

end Range

theorem upperBound_group {p : List Char} {c : Char} {L₁ L₂ : List (List Char)}
    (hfirst : ∀ s ∈ L₁, p ++ [c] <+: s) (hrest : ∀ s ∈ L₂, ∃ c', c < c' ∧ p ++ [c'] <+: s) :
    upperBound c.val.toNat (encode p).length ((L₁ ++ L₂).map encode) = .ok L₁.length := by
  induction L₁ with
  | nil =>
    cases L₂ with
    | nil => rfl
    | cons s L₂ =>
      obtain ⟨c', hlt, hc'⟩ := hrest s List.mem_cons_self
      obtain ⟨rest, hnext, -⟩ := next_drop hc'
      have hval : c.val.toNat < c'.val.toNat := hlt
      rw [List.nil_append, List.map_cons, upperBound, hnext, ok_bind]
      exact if_pos hval
  | cons s L₁ ih =>
    rw [List.forall_mem_cons] at hfirst
    obtain ⟨rest, hnext, -⟩ := next_drop hfirst.1
    rw [List.cons_append, List.map_cons, upperBound, hnext, ok_bind]
    dsimp only
    rw [if_neg (Nat.lt_irrefl _), ih hfirst.2, ok_bind, List.length_cons]

theorem childEnd_group {keys : List Bytes} {b e : Nat} {p : List Char} {c : Char}
    {L₁ L₂ : List (List Char)} (hrange : range keys b e = (L₁ ++ L₂).map encode)
    (hgroup : Group p c L₁ L₂) :
    childEnd keys b e (encode p).length = .ok (b + L₁.length, (encode (p ++ [c])).length) := by
  have hupper := upperBound_group hgroup.first hgroup.rest
  cases L₁ with
  | nil => exact absurd rfl hgroup.ne_nil
  | cons s L₁ =>
    obtain ⟨rest, hnext, hlen⟩ := next_drop (hgroup.first s List.mem_cons_self)
    rw [List.cons_append, List.map_cons] at hrange hupper
    rw [childEnd, hrange]
    dsimp only
    rw [hnext, ok_bind]
    dsimp only
    rw [hupper, ok_bind, hlen]

theorem nodePos_spec {s : List Char} {L : List (List Char)} (hsorted : (s :: L).Pairwise (· < ·))
    (rounds : Nat) {p : List Char} (hp : ∀ x ∈ s :: L, p <+: x)
    (hrounds : (encode s).length - (encode p).length ≤ rounds) :
    ∃ p', (∀ x ∈ s :: L, p' <+: x) ∧
      (s = p' ∨ s ≠ p' ∧ ∃ c L₁ L₂, s :: L = L₁ ++ L₂ ∧ Group p' c L₁ L₂ ∧ L₂ ≠ []) ∧
      ∀ (keys : List Bytes) (b : Nat), range keys b (b + (s :: L).length) = (s :: L).map encode →
        nodePos keys b (b + (s :: L).length) (encode s).length rounds (encode p).length =
          .ok (encode p').length := by
  have hps := hp s List.mem_cons_self
  induction rounds generalizing p with
  | zero =>
    have heq : s = p := by
      by_contra hne
      have hlt := (length_encode_lt hps).mpr hne
      omega
    exact ⟨p, hp, .inl heq, fun _ _ _ => rfl⟩
  | succ rounds ih =>
    by_cases hne : s = p
    · have hnot : ¬ (encode p).length < (encode s).length :=
        fun hlt => (length_encode_lt hps).mp hlt hne
      exact ⟨p, hp, .inl hne, fun _ _ _ => if_neg hnot⟩
    have hlt := (length_encode_lt hps).mpr hne
    have hbelow : ∀ x ∈ s :: L, ∃ c, p ++ [c] <+: x := by
      intro x hx
      refine PrefixTree.exists_next (hp x hx) ?_
      rintro rfl
      rcases List.mem_cons.mp hx with rfl | hx
      · exact hne rfl
      · exact lt_asymm (List.rel_of_pairwise_cons hsorted hx)
          (PrefixTree.lt_of_isPrefix hps fun heq => hne heq.symm)
    obtain ⟨c, L₁, L₂, heq, hgroup⟩ :=
      PrefixTree.exists_group (List.cons_ne_nil s L) hsorted hbelow
    have hlen : (s :: L).length = L₁.length + L₂.length := by rw [heq, List.length_append]
    by_cases hend : L₂ = []
    · rw [hend, List.append_nil] at heq
      rw [hend, List.length_nil] at hlen
      have hnext : ∀ x ∈ s :: L, p ++ [c] <+: x := by
        rw [heq]
        exact hgroup.first
      have hpos := Utf8.lt_length_utf8EncodeChar c
      have hlong : (encode (p ++ [c])).length =
          (encode p).length + (String.utf8EncodeChar c).length := by
        rw [Utf8.encode_append, List.length_append, Utf8.encode_cons, List.length_append,
          Utf8.encode_nil, List.length_nil, Nat.add_zero]
      obtain ⟨p', hp', hcase, hnode⟩ := ih hnext (by omega) (hnext s List.mem_cons_self)
      refine ⟨p', hp', hcase, ?_⟩
      intro keys b hrange
      have hall : Group p c (s :: L) [] := ⟨List.cons_ne_nil s L, hnext, by simp⟩
      have hchild := childEnd_group (by rwa [List.append_nil]) hall
      rw [nodePos, if_pos hlt, hchild, ok_bind]
      dsimp only
      rw [if_pos rfl]
      exact hnode keys b hrange
    · refine ⟨p, hp, .inr ⟨hne, c, L₁, L₂, heq, hgroup, hend⟩, ?_⟩
      intro keys b hrange
      have hpos := List.length_pos_iff.mpr hend
      have hrange' := hrange
      rw [heq] at hrange'
      rw [← heq] at hrange'
      have hchild := childEnd_group (hrange.trans (by rw [heq])) hgroup
      rw [nodePos, if_pos hlt, hchild, ok_bind]
      dsimp only
      rw [if_neg (by omega)]

section Finalize

variable {V : Type} [Inhabited V]

def insertOps (M : List (List Char)) : List (OADHashTable.Op Bytes V) :=
  M.map fun s => .insert (encode s)

omit [Inhabited V] in
theorem insertOps_append (M M' : List (List Char)) :
    (insertOps (M ++ M') : List (OADHashTable.Op Bytes V)) = insertOps M ++ insertOps M' :=
  List.map_append

theorem keys_insertOps {fuel : Nat} {ht ht' : OADHashTable Bytes V} {M : List (List Char)}
    (h : ht.Valid) (hrun : ht.run fuel (insertOps M) = some (.ok ht')) :
    ht'.Valid ∧ ∃ extra, keys ht' = keys ht ++ extra := by
  induction M generalizing ht with
  | nil =>
    obtain rfl := some_ok_inj hrun
    exact ⟨h, [], (List.append_nil _).symm⟩
  | cons s M ih =>
    rw [insertOps, List.map_cons, OADHashTable.run] at hrun
    split at hrun
    · cases hrun
    · cases hrun
    · rename_i ht₁ hstep
      obtain ⟨hvalid, hvalues, -⟩ := OADHashTable.step_spec h hstep
      obtain ⟨hvalid', extra, hkeys⟩ := ih hvalid hrun
      refine ⟨hvalid', ?_⟩
      rw [hkeys, keys, hvalues, OADHashTable.Op.apply, OrderedMap.insert]
      by_cases hmem : encode s ∈ OrderedMap.keys ht.valueStorage
      · rw [if_pos hmem]
        exact ⟨extra, rfl⟩
      · rw [if_neg hmem, OrderedMap.keys_append, List.append_assoc]
        exact ⟨_, rfl⟩

/-- On a node with the strings `L` below `p` the recursion inserts the strings `M`. -/
def Inserts (fuel : Nat)
    (finalizeNode : OADHashTable Bytes V → Nat → Nat → Nat →
      Option (Except Fault (OADHashTable Bytes V)))
    (p : List Char) (L M : List (List Char)) : Prop :=
  ∀ ht b, ht.Valid → range (keys ht) b (b + L.length) = L.map encode →
    finalizeNode ht b (b + L.length) (encode p).length = ht.run fuel (insertOps M)

/-- The recursion inserts what is missing of every node with at most `n` strings. -/
def InsertsMissing (fuel : Nat)
    (finalizeNode : OADHashTable Bytes V → Nat → Nat → Nat →
      Option (Except Fault (OADHashTable Bytes V))) (n : Nat) : Prop :=
  ∀ (p : List Char) (L : List (List Char)), L.length ≤ n → L.Pairwise (· < ·) →
    (∀ s ∈ L, p <+: s) → ∃ M, IsMissing L M ∧ Inserts fuel finalizeNode p L M

theorem finalizeChildren_spec {fuel n : Nat}
    {node : OADHashTable Bytes V → Nat → Nat → Nat → Option (Except Fault (OADHashTable Bytes V))}
    (hnode : InsertsMissing fuel node n) {p : List Char} (rounds : Nat) {L : List (List Char)}
    (hrounds : L.length ≤ rounds) (hsorted : L.Pairwise (· < ·))
    (hbelow : ∀ s ∈ L, ∃ c, p ++ [c] <+: s) (hn : L.length ≤ n + 1)
    (hsmall : ∀ c, (∀ s ∈ L, p ++ [c] <+: s) → L.length ≤ n) :
    ∃ M, IsMissingBelow p L M ∧ Inserts fuel
      (fun ht b e pos => finalizeChildren node e pos rounds ht b) p L M := by
  induction rounds generalizing L with
  | zero =>
    obtain rfl := List.eq_nil_of_length_eq_zero (Nat.le_zero.mp hrounds)
    exact ⟨[], PrefixTree.isMissingBelow_nil p, fun _ _ _ _ => rfl⟩
  | succ rounds ih =>
    by_cases hL : L = []
    · subst hL
      refine ⟨[], PrefixTree.isMissingBelow_nil p, ?_⟩
      intro ht b _ _
      exact if_pos rfl
    · obtain ⟨c, L₁, L₂, rfl, hgroup⟩ := PrefixTree.exists_group hL hsorted hbelow
      have hlen : (L₁ ++ L₂).length = L₁.length + L₂.length := List.length_append
      have hpos₁ := List.length_pos_iff.mpr hgroup.ne_nil
      have hle : L₁.length ≤ n := by
        by_cases hend : L₂ = []
        · subst hend
          have hall := hsmall c (by rw [List.append_nil]; exact hgroup.first)
          omega
        · have hpos₂ := List.length_pos_iff.mpr hend
          omega
      rw [List.pairwise_append] at hsorted
      obtain ⟨M₁, hmissing₁, hinserts₁⟩ := hnode (p ++ [c]) L₁ hle hsorted.1 hgroup.first
      obtain ⟨M₂, hmissing₂, hinserts₂⟩ := ih (L := L₂) (by omega) hsorted.2.1
        (fun s hs => hbelow s (List.mem_append_right L₁ hs)) (by omega) (fun _ _ => by omega)
      refine ⟨M₁ ++ M₂, IsMissingBelow.append hgroup hmissing₁ hmissing₂, ?_⟩
      intro ht b hvalid hrange
      have hne : b ≠ b + (L₁ ++ L₂).length := by omega
      have hrange₁ : range (keys ht) b (b + L₁.length) = L₁.map encode :=
        range_left (hrange.trans List.map_append) (List.length_map encode) (by omega)
      dsimp only
      rw [finalizeChildren, if_neg hne, childEnd_group hrange hgroup]
      dsimp only
      rw [hinserts₁ ht b hvalid hrange₁, insertOps_append, OADHashTable.run_append]
      cases hrun : ht.run fuel (insertOps M₁) with
      | none => rfl
      | some r =>
        cases r with
        | error e => rfl
        | ok ht₁ =>
          obtain ⟨hvalid₁, extra, hkeys⟩ := keys_insertOps hvalid hrun
          have hsum : b + (L₁ ++ L₂).length = b + L₁.length + L₂.length := by omega
          have hwhole : range (keys ht₁) b (b + (L₁ ++ L₂).length) = (L₁ ++ L₂).map encode := by
            rw [hkeys, range_append extra, hrange]
            rw [hrange, List.length_map]
          have hrange₂ : range (keys ht₁) (b + L₁.length) (b + (L₁ ++ L₂).length) =
              L₂.map encode :=
            range_right (hwhole.trans List.map_append) (List.length_map encode)
          dsimp only
          rw [hsum] at hrange₂ ⊢
          exact hinserts₂ ht₁ _ hvalid₁ hrange₂

/-- What `finalizeNode` does with the table behind an insertion. -/
def behindInsert (inserted : Option (Except Fault (OADHashTable Bytes V)))
    (next : OADHashTable Bytes V → Option (Except Fault (OADHashTable Bytes V))) :
    Option (Except Fault (OADHashTable Bytes V)) :=
  match inserted with
  | none => none
  | some (.error e) => some (.error e)
  | some (.ok ht) => next ht

theorem finalizeNode_spec (fuel depth : Nat) :
    InsertsMissing fuel (finalizeNode fuel (depth + 1) : OADHashTable Bytes V → _) depth := by
  induction depth with
  | zero =>
    intro p L hn _ _
    obtain rfl := List.eq_nil_of_length_eq_zero (Nat.le_zero.mp hn)
    exact ⟨[], ⟨List.Pairwise.nil, fun s => by simp [PrefixTree.Closure]⟩, fun _ _ _ _ => if_pos rfl⟩
  | succ depth ih =>
    intro p L hn hsorted hp
    cases L with
    | nil =>
      exact ⟨[], ⟨List.Pairwise.nil, fun s => by simp [PrefixTree.Closure]⟩,
        fun _ _ _ _ => if_pos rfl⟩
    | cons s L =>
      obtain ⟨p', hp', hcase, hpos⟩ := nodePos_spec hsorted (encode s).length hp (Nat.sub_le _ _)
      have hstart : ∀ (ht : OADHashTable Bytes V) (b : Nat),
          range (keys ht) b (b + (s :: L).length) = (s :: L).map encode →
          finalizeNode fuel (depth + 2) ht b (b + (s :: L).length) (encode p).length =
            if (encode s).length > (encode p').length then
              behindInsert (ht.insert fuel (encode p')) fun ht =>
                finalizeChildren (finalizeNode fuel (depth + 1)) (b + (s :: L).length)
                  (encode p').length (s :: L).length ht b
            else
              finalizeChildren (finalizeNode fuel (depth + 1)) (b + (s :: L).length)
                (encode p').length (s :: L).length ht (b + 1) := by
        intro ht b hrange
        have hne : b ≠ b + (s :: L).length := by
          rw [List.length_cons]
          omega
        have hfirst := getElem?_of_range hrange
        rw [finalizeNode, if_neg hne, hfirst]
        dsimp only
        rw [hpos (keys ht) b hrange]
        dsimp only
        rewrite [take_encode (hp' s List.mem_cons_self), Nat.add_sub_cancel_left]
        rfl
      have hlen : (s :: L).length = 1 + L.length := by rw [List.length_cons, Nat.add_comm]
      rcases hcase with rfl | ⟨hne, c, L₁, L₂, heq, hgroup, hend⟩
      · have hbelow : ∀ x ∈ L, ∃ c, s ++ [c] <+: x := by
          intro x hx
          refine PrefixTree.exists_next (hp' x (List.mem_cons_of_mem s hx)) ?_
          exact (List.rel_of_pairwise_cons hsorted hx).ne'
        obtain ⟨M, hmissing, hinserts⟩ := finalizeChildren_spec ih (s :: L).length (by omega)
          (List.pairwise_cons.mp hsorted).2 hbelow (by omega) (fun _ _ => by omega)
        refine ⟨M, hmissing.of_first fun x hx => hp' x (List.mem_cons_of_mem s hx), ?_⟩
        intro ht b hvalid hrange
        have hsum : b + (s :: L).length = b + 1 + L.length := by omega
        have hrange' : range (keys ht) (b + 1) (b + (s :: L).length) = L.map encode :=
          range_right (hrange.trans (List.singleton_append).symm) rfl
        rw [hsum] at hrange'
        have hrest := hinserts ht (b + 1) hvalid hrange'
        rw [hstart ht b hrange, if_neg (Nat.lt_irrefl _), hsum]
        exact hrest
      · have hbelow : ∀ x ∈ s :: L, ∃ c, p' ++ [c] <+: x := by
          rw [heq]
          intro x hx
          rcases List.mem_append.mp hx with hx | hx
          · exact ⟨c, hgroup.first x hx⟩
          · obtain ⟨d, -, hd⟩ := hgroup.rest x hx
            exact ⟨d, hd⟩
        have hsmall : ∀ d, (∀ x ∈ s :: L, p' ++ [d] <+: x) → (s :: L).length ≤ depth := by
          intro d hall
          rw [heq] at hall
          obtain ⟨x, hx⟩ := List.exists_mem_of_ne_nil L₁ hgroup.ne_nil
          obtain ⟨y, hy⟩ := List.exists_mem_of_ne_nil L₂ hend
          have hsame := PrefixTree.prefix_lcp (hall x (List.mem_append_left L₂ hx))
            (hall y (List.mem_append_right L₁ hy))
          rw [hgroup.lcp_eq hx hy] at hsame
          have hle := hsame.length_le
          rw [List.length_append, List.length_singleton] at hle
          omega
        obtain ⟨M, hmissing, hinserts⟩ := finalizeChildren_spec ih (s :: L).length (Nat.le_refl _)
          hsorted hbelow hn hsmall
        refine ⟨p' :: M, ?_, ?_⟩
        · rw [heq] at hmissing ⊢
          exact hmissing.of_group hgroup hend
        · intro ht b hvalid hrange
          have hlong := (length_encode_lt (hp' s List.mem_cons_self)).mpr hne
          rw [hstart ht b hrange, if_pos hlong, insertOps, List.map_cons, OADHashTable.run,
            OADHashTable.step]
          cases hinsert : ht.insert fuel (encode p') with
          | none => rfl
          | some r =>
            cases r with
            | error e => rfl
            | ok ht₁ =>
              have hrun : ht.run fuel (insertOps [p']) = some (.ok ht₁) := by
                rw [insertOps, List.map_singleton, OADHashTable.run, OADHashTable.step, hinsert]
                rfl
              obtain ⟨hvalid₁, extra, hkeys⟩ := keys_insertOps hvalid hrun
              dsimp only [behindInsert]
              refine hinserts ht₁ b hvalid₁ ?_
              rw [hkeys, range_append extra, hrange]
              rw [hrange, List.length_map]

end Finalize

end Sserialize.HashBasedFlatTrie
