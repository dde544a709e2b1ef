import Sserialize.Containers.HashBasedFlatTrieRun

namespace Sserialize.HashBasedFlatTrie

open Utf8 (encode)
open PrefixTree (lcp Closure Group)

def Node.strings (S : List (List Char)) (n : Node) : List (List Char) :=
  range S n.nodeBegin n.nodeEnd

/-- The ranges are not empty and follow each other from `b` to `e`. -/
def Consecutive : Nat → Nat → List Node → Prop
  | b, e, [] => b = e
  | b, e, child :: children =>
    child.nodeBegin = b ∧ b < child.nodeEnd ∧ Consecutive child.nodeEnd e children

/-- The strings of the node are those of `L` that start with `p`. -/
def Node.Holds (S L : List (List Char)) (p : List Char) (n : Node) : Prop :=
  ∀ x, x ∈ n.strings S ↔ x ∈ L ∧ p <+: x

/-- The children of a node with the string `s`: their ranges follow each other behind the first
string and hold the strings that go on with their code point. -/
structure Splits (S : List (List Char)) (n : Node) (s : List Char) (children : List Node) :
    Prop where
  consecutive : Consecutive (n.nodeBegin + 1) n.nodeEnd children
  next : ∃ cs : List Char, cs.Pairwise (· < ·) ∧
    List.Forall₂ (fun c child => child.Holds S S (s ++ [c])) cs children

/-- The range of a node with the string `s` is the strings that start with it. -/
structure IsNode (S : List (List Char)) (n : Node) (s : List Char) : Prop where
  lt : n.nodeBegin < n.nodeEnd
  le : n.nodeEnd ≤ S.length
  str : S[n.nodeBegin]? = some s
  holds : n.Holds S S s

section Children

variable {S L : List (List Char)} {p : List Char} {b : Nat}

theorem childrenFrom_spec (rounds : Nat) (hrounds : L.length ≤ rounds)
    (hrange : range S b (b + L.length) = L) (hsorted : L.Pairwise (· < ·))
    (hbelow : ∀ s ∈ L, ∃ c, p ++ [c] <+: s) :
    ∃ children, childrenFrom (S.map encode) (b + L.length) (encode p).length rounds b =
        .ok children ∧
      Consecutive b (b + L.length) children ∧ ∃ cs : List Char, cs.Pairwise (· < ·) ∧
        (∀ c ∈ cs, ∃ s ∈ L, p ++ [c] <+: s) ∧
        List.Forall₂ (fun c child => child.Holds S L (p ++ [c])) cs children := by
  induction rounds generalizing L b with
  | zero =>
    obtain rfl := List.eq_nil_of_length_eq_zero (Nat.le_zero.mp hrounds)
    exact ⟨[], rfl, rfl, [], List.Pairwise.nil, by simp, List.Forall₂.nil⟩
  | succ rounds ih =>
    by_cases hL : L = []
    · subst hL
      exact ⟨[], if_pos rfl, rfl, [], List.Pairwise.nil, by simp, List.Forall₂.nil⟩
    obtain ⟨c, L₁, L₂, rfl, hgroup⟩ := PrefixTree.exists_group hL hsorted hbelow
    have hlen : (L₁ ++ L₂).length = L₁.length + L₂.length := List.length_append
    have hpos := List.length_pos_iff.mpr hgroup.ne_nil
    have hsum : b + (L₁ ++ L₂).length = b + L₁.length + L₂.length := by omega
    rw [List.pairwise_append] at hsorted
    have hrange₁ : range S b (b + L₁.length) = L₁ := range_left hrange rfl (by omega)
    have hrange₂ : range S (b + L₁.length) (b + L₁.length + L₂.length) = L₂ := by
      rw [← hsum]
      exact range_right hrange rfl
    obtain ⟨children, hchildren, hconsecutive, cs, hcs, hmem, hholds⟩ := ih (L := L₂) (by omega)
      hrange₂ hsorted.2.1 fun s hs => hbelow s (List.mem_append_right L₁ hs)
    have hgreater : ∀ c' ∈ cs, c < c' := by
      intro c' hc'
      obtain ⟨s, hs, hnext⟩ := hmem c' hc'
      obtain ⟨d, hlt, hd⟩ := hgroup.rest s hs
      have heq := List.prefix_of_prefix_length_le hnext hd (by simp)
      have hlast := List.append_cancel_left (heq.eq_of_length (by simp))
      rwa [List.singleton_inj.mp hlast]
    have hend : childEnd (S.map encode) b (b + (L₁ ++ L₂).length) (encode p).length =
        .ok (b + L₁.length, (encode (p ++ [c])).length) :=
      childEnd_group (by rw [range_map, hrange]) hgroup
    refine ⟨{ nodeBegin := b, nodeEnd := b + L₁.length } :: children, ?_,
      ⟨rfl, by dsimp only; omega, by rw [hsum]; exact hconsecutive⟩,
      c :: cs, List.pairwise_cons.mpr ⟨hgreater, hcs⟩, ?_, List.Forall₂.cons ?_ ?_⟩
    · rw [childrenFrom, if_neg (by omega), hend, ok_bind]
      dsimp only
      rw [hsum, hchildren, ok_bind]
    · rw [List.forall_mem_cons]
      refine ⟨?_, ?_⟩
      · obtain ⟨s, hs⟩ := List.exists_mem_of_ne_nil L₁ hgroup.ne_nil
        exact ⟨s, List.mem_append_left L₂ hs, hgroup.first s hs⟩
      · intro c' hc'
        obtain ⟨s, hs, hnext⟩ := hmem c' hc'
        exact ⟨s, List.mem_append_right L₁ hs, hnext⟩
    · intro x
      rw [Node.strings, hrange₁]
      exact hgroup.mem_iff x
    · -- the strings of the first child go on with a smaller code point
      refine List.Forall₂.imp ?_ ((List.forall₂_and_left cs children).mpr ⟨hgreater, hholds⟩)
      rintro c' child ⟨hlt, hchild⟩ x
      rw [hchild x, List.mem_append]
      refine and_congr_left fun hnext => ⟨.inr, ?_⟩
      rintro (hx | hx)
      · exact absurd (PrefixTree.lt_of_next hlt (hgroup.first x hx) hnext) (lt_irrefl x)
      · exact hx

end Children

section Nodes

variable {V : Type} {t : HashBasedFlatTrie V} {S : List (List Char)}

theorem mem_of_mem_range {b e : Nat} {x : List Char} (h : x ∈ range S b e) : x ∈ S :=
  List.mem_of_mem_take (List.mem_of_mem_drop h)

theorem range_sorted (hsorted : S.Pairwise (· < ·)) (b e : Nat) :
    (range S b e).Pairwise (· < ·) :=
  (hsorted.sublist (List.take_sublist e S)).sublist (List.drop_sublist b _)

theorem length_range {b e : Nat} (he : e ≤ S.length) : (range S b e).length = e - b := by
  rw [range, List.length_drop, List.length_take, Nat.min_eq_left he]

theorem isNode_of_range {n : Node} {q : List Char} (hsorted : S.Pairwise (· < ·))
    (hclosed : ∀ s ∈ S, ∀ s' ∈ S, lcp s s' ∈ S) (hlt : n.nodeBegin < n.nodeEnd)
    (hle : n.nodeEnd ≤ S.length) (hmem : n.Holds S S q) : ∃ s, IsNode S n s := by
  have hlen := length_range (b := n.nodeBegin) hle
  have hsorted' := range_sorted hsorted n.nodeBegin n.nodeEnd
  cases hrange : range S n.nodeBegin n.nodeEnd with
  | nil =>
    rw [hrange, List.length_nil] at hlen
    omega
  | cons s D =>
    rw [hrange] at hsorted'
    refine ⟨s, hlt, hle, getElem?_of_range hrange, ?_⟩
    unfold Node.Holds Node.strings at hmem ⊢
    rw [hrange] at hmem ⊢
    exact PrefixTree.first_isPrefix hclosed hsorted' hmem

theorem children_spec {n : Node} {s : List Char} (hkeys : keys t.ht = S.map encode)
    (hsorted : S.Pairwise (· < ·)) (hnode : IsNode S n s) :
    ∃ children, n.children t = .ok children ∧ Splits S n s children := by
  have hlt := hnode.lt
  have hfirst : range S n.nodeBegin n.nodeEnd =
      s :: range S (n.nodeBegin + 1) n.nodeEnd := by
    have hget : (S.take n.nodeEnd)[n.nodeBegin]? = some s := by
      rw [List.getElem?_take, if_pos hlt, hnode.str]
    obtain ⟨hbound, hget⟩ := List.getElem?_eq_some_iff.mp hget
    rw [range, List.drop_eq_getElem_cons hbound, hget, range]
  have hlen := length_range (b := n.nodeBegin + 1) hnode.le
  have hend : n.nodeBegin + 1 + (range S (n.nodeBegin + 1) n.nodeEnd).length = n.nodeEnd := by
    omega
  have hsorted' := range_sorted hsorted n.nodeBegin n.nodeEnd
  rw [hfirst] at hsorted'
  have hmem : ∀ x, x ∈ s :: range S (n.nodeBegin + 1) n.nodeEnd ↔ x ∈ S ∧ s <+: x := by
    rw [← hfirst]
    exact hnode.holds
  have hbelow : ∀ x ∈ range S (n.nodeBegin + 1) n.nodeEnd, ∃ c, s ++ [c] <+: x := by
    intro x hx
    exact PrefixTree.exists_next ((hmem x).mp (List.mem_cons_of_mem s hx)).2
      (List.rel_of_pairwise_cons hsorted' hx).ne'
  obtain ⟨children, hchildren, hconsecutive, cs, hcs, -, hholds⟩ := childrenFrom_spec
    (n.nodeEnd - n.nodeBegin) (by omega) (by rw [hend]) (List.pairwise_cons.mp hsorted').2 hbelow
  rw [hend] at hchildren hconsecutive
  refine ⟨children, ?_, hconsecutive, cs, hcs, hholds.imp ?_⟩
  · rw [Node.children, hkeys, List.getElem?_map, hnode.str]
    exact hchildren
  · intro c child hchild x
    rw [hchild x]
    refine and_congr_left fun hnext => ⟨mem_of_mem_range, fun hx => ?_⟩
    have hstart : s <+: x := (List.prefix_append s [c]).trans hnext
    rcases List.mem_cons.mp ((hmem x).mpr ⟨hx, hstart⟩) with rfl | hx
    · have hle := hnext.length_le
      rw [List.length_append, List.length_singleton] at hle
      omega
    · exact hx

theorem Consecutive.mem {b e : Nat} {children : List Node} (h : Consecutive b e children)
    {child : Node} (hmem : child ∈ children) :
    b ≤ child.nodeBegin ∧ child.nodeBegin < child.nodeEnd ∧ child.nodeEnd ≤ e := by
  have hle : ∀ {children : List Node} {b : Nat}, Consecutive b e children → b ≤ e := by
    intro children
    induction children with
    | nil => exact fun h => Nat.le_of_eq h
    | cons first children ih =>
      rintro b ⟨-, hlt, hrest⟩
      exact hlt.le.trans (ih hrest)
  induction children generalizing b with
  | nil => cases hmem
  | cons first children ih =>
    obtain ⟨hbegin, hlt, hrest⟩ := h
    rcases List.mem_cons.mp hmem with rfl | hmem
    · exact ⟨hbegin.ge, by omega, hle hrest⟩
    · have hchild := ih hrest hmem
      exact ⟨by omega, hchild.2⟩

theorem Consecutive.exists_child {b e i : Nat} {children : List Node} (h : Consecutive b e children)
    (hb : b ≤ i) (he : i < e) : ∃ child ∈ children, child.nodeBegin ≤ i ∧ i < child.nodeEnd := by
  induction children generalizing b with
  | nil =>
    have heq : b = e := h
    omega
  | cons first children ih =>
    obtain ⟨hbegin, -, hrest⟩ := h
    by_cases hi : i < first.nodeEnd
    · exact ⟨first, List.mem_cons_self, by omega, hi⟩
    · obtain ⟨child, hmem, hchild⟩ := ih hrest (by omega)
      exact ⟨child, List.mem_cons_of_mem first hmem, hchild⟩

/-- Every node that is visited from the root is the range of the strings that start with its
string. -/
theorem reachable_spec [Inhabited V] (hstrings : HasStrings t.ht S) (hsorted : S.Pairwise (· < ·))
    (hclosed : ∀ s ∈ S, ∀ s' ∈ S, lcp s s' ∈ S) (hne : S ≠ []) {n : Node} (h : Reachable t n) :
    ∃ s, IsNode S n s := by
  induction h with
  | root =>
    have hpos := List.length_pos_iff.mpr hne
    have hlen := hstrings.length
    refine isNode_of_range (q := []) hsorted hclosed ?_ ?_ ?_
    · rw [root]
      dsimp only
      omega
    · exact hlen.ge
    · intro x
      rw [Node.strings, root, range, List.drop_zero, List.take_of_length_le hlen.le]
      exact (and_iff_left List.nil_prefix).symm
  | @child n child children _ hchildren hmem ih =>
    obtain ⟨s, hnode⟩ := ih
    obtain ⟨children', hchildren', hsplits⟩ := children_spec hstrings.keys hsorted hnode
    rw [hchildren] at hchildren'
    obtain rfl := Except.ok.inj hchildren'
    obtain ⟨hbegin, hlt, hend⟩ := hsplits.consecutive.mem hmem
    obtain ⟨cs, -, hholds⟩ := hsplits.next
    obtain ⟨c, hchild⟩ : ∃ c, child.Holds S S (s ++ [c]) := by
      obtain ⟨i, hi, rfl⟩ := List.getElem_of_mem hmem
      have hget := List.forall₂_iff_get.mp hholds
      exact ⟨_, hget.2 i (by rw [hget.1]; exact hi) hi⟩
    exact isNode_of_range hsorted hclosed hlt (hend.trans hnode.le) hchild

theorem exists_reachable [Inhabited V] (hstrings : HasStrings t.ht S)
    (hsorted : S.Pairwise (· < ·)) (hclosed : ∀ s ∈ S, ∀ s' ∈ S, lcp s s' ∈ S) (hne : S ≠ [])
    {i : Nat} (hi : i < S.length) : ∃ n, Reachable t n ∧ n.nodeBegin = i := by
  have hbelow : ∀ size (n : Node), Reachable t n → n.nodeEnd - n.nodeBegin ≤ size →
      n.nodeBegin ≤ i → i < n.nodeEnd → ∃ n, Reachable t n ∧ n.nodeBegin = i := by
    intro size
    induction size with
    | zero =>
      intro n _ hsize hbegin hend
      omega
    | succ size ih =>
      intro n hreach hsize hbegin hend
      by_cases heq : n.nodeBegin = i
      · exact ⟨n, hreach, heq⟩
      · obtain ⟨s, hnode⟩ := reachable_spec hstrings hsorted hclosed hne hreach
        obtain ⟨children, hchildren, hsplits⟩ := children_spec hstrings.keys hsorted hnode
        obtain ⟨child, hmem, hchild⟩ := hsplits.consecutive.exists_child (i := i) (by omega) hend
        have hbounds := hsplits.consecutive.mem hmem
        exact ih child (Reachable.child hreach hchildren hmem) (by omega) hchild.1 hchild.2
  refine hbelow t.root.nodeEnd t.root Reachable.root (Nat.sub_le _ _) (Nat.zero_le i) ?_
  rw [root, ← hstrings.length]
  exact hi

end Nodes

structure IsTrie {V : Type} (t : HashBasedFlatTrie V) (S : List (List Char)) : Prop where
  keys : keys t.ht = S.map encode
  sorted : S.Pairwise (· < ·)
  /-- A visited node is the range of the strings that start with its string, and its children split
  the others. -/
  node : ∀ n, Reachable t n → ∃ s children, IsNode S n s ∧ n.children t = .ok children ∧
    Splits S n s children
  visited : ∀ i < S.length, ∃ n, Reachable t n ∧ n.nodeBegin = i

variable {V : Type} [Inhabited V]

/-- Every run of insertions that ends with `finalize`: it returns exactly if each of its operations
is ready, and then the keys are the inserted strings and the longest common prefixes of every two of
them. -/
theorem hashBasedFlatTrie_finalize (ops : List (Op V)) (sort : KeySort V)
    (hne : inserted ops ≠ []) :
    ((∃ fuel t, run fuel new (ops ++ [.finalize sort]) = some (.ok t)) ↔
      RunReady new (ops ++ [.finalize sort])) ∧
    ∀ fuel t, run fuel new (ops ++ [.finalize sort]) = some (.ok t) →
      ∃ S, IsTrie t S ∧ ∀ s, s ∈ S ↔
        s ∈ inserted ops ∨ ∃ a ∈ inserted ops, ∃ b ∈ inserted ops, s = lcp a b := by
  refine ⟨run_returns (T := []) hasStrings_new (by simp) (by simp), ?_⟩
  intro fuel t hrun
  obtain ⟨S, hstrings, hsorted, hmem⟩ := run_finalize hrun
  have hclosed : ∀ s ∈ S, ∀ s' ∈ S, lcp s s' ∈ S := by
    intro s hs s' hs'
    rw [hmem] at hs hs' ⊢
    exact PrefixTree.closure_lcp hs hs'
  have hpos : S ≠ [] := by
    obtain ⟨s, hs⟩ := List.exists_mem_of_ne_nil _ hne
    exact List.ne_nil_of_mem ((hmem s).mpr (PrefixTree.closure_of_mem hs))
  refine ⟨S, ⟨hstrings.keys, hsorted, ?_, ?_⟩, ?_⟩
  · intro n hreach
    obtain ⟨s, hnode⟩ := reachable_spec hstrings hsorted hclosed hpos hreach
    obtain ⟨children, hchildren, hsplits⟩ := children_spec hstrings.keys hsorted hnode
    exact ⟨s, children, hnode, hchildren, hsplits⟩
  · intro i hi
    exact exists_reachable hstrings hsorted hclosed hpos hi
  · intro s
    rw [hmem]
    exact ⟨.inr, fun h => h.elim PrefixTree.closure_of_mem id⟩

theorem hashBasedFlatTrie_finalize_two :
    ((∃ fuel t, run fuel new ([.insert ['ä', 'b'], .insert ['ä', 'c']] ++
        [.finalize (KeySort.byCodes Nat)]) = some (.ok t)) ↔
      RunReady new ([.insert ['ä', 'b'], .insert ['ä', 'c']] ++
        [.finalize (KeySort.byCodes Nat)])) ∧
    ∀ fuel t, run fuel new ([.insert ['ä', 'b'], .insert ['ä', 'c']] ++
        [.finalize (KeySort.byCodes Nat)]) = some (.ok t) →
      ∃ S, IsTrie t S ∧ ∀ s, s ∈ S ↔ s ∈ [['ä', 'b'], ['ä', 'c']] ∨
        ∃ a ∈ [['ä', 'b'], ['ä', 'c']], ∃ b ∈ [['ä', 'b'], ['ä', 'c']], s = lcp a b :=
  hashBasedFlatTrie_finalize [.insert ['ä', 'b'], .insert ['ä', 'c']] (KeySort.byCodes Nat)
    (List.cons_ne_nil _ _)

example : ((run 1 (new : HashBasedFlatTrie Nat) [.insert ['ä', 'b'], .insert ['ä', 'c'],
    .finalize (KeySort.byCodes Nat)]).map fun r => r.map fun t => keys t.ht) =
      some (.ok ([['ä'], ['ä', 'b'], ['ä', 'c']].map encode)) := by
  decide +kernel

end Sserialize.HashBasedFlatTrie
