import Sserialize.Containers.HuffmanTree
import Sserialize.Library.PrefixCode

namespace Sserialize.HuffmanTree

open PrefixCode

variable {TValue : Type}

mutual

def Node.paths : Node TValue → List (TValue × List Nat)
  | .endNode value => [(value, [])]
  | .innerNode children => pathsChildren children 0

def pathsChildren : List (Node TValue) → Nat → List (TValue × List Nat)
  | [], _ => []
  | node :: children, i =>
    (node.paths.map fun entry => (entry.1, i :: entry.2)) ++ pathsChildren children (i + 1)

end

def Node.symbols (node : Node TValue) : List TValue := node.paths.map Prod.fst

def Node.words (node : Node TValue) : List (List Nat) := node.paths.map Prod.snd

theorem mem_pathsChildren {children : List (Node TValue)} {i : Nat} {symbol : TValue}
    {path : List Nat} : (symbol, path) ∈ pathsChildren children i ↔
      ∃ j tail node, children[j]? = some node ∧ path = (i + j) :: tail ∧
        (symbol, tail) ∈ node.paths := by
  induction children generalizing i with
  | nil => simp [pathsChildren]
  | cons node children ih =>
    rw [pathsChildren, List.mem_append, ih]
    constructor
    · rintro (hhead | ⟨j, tail, child, hchild, rfl, hmem⟩)
      · obtain ⟨⟨symbol', tail⟩, hmem, heq⟩ := List.mem_map.mp hhead
        obtain ⟨rfl, rfl⟩ := Prod.mk.inj heq
        exact ⟨0, tail, node, rfl, rfl, hmem⟩
      · exact ⟨j + 1, tail, child, hchild, by rw [Nat.add_assoc, Nat.add_comm 1 j], hmem⟩
    · rintro ⟨j, tail, child, hchild, rfl, hmem⟩
      cases j with
      | zero =>
        obtain rfl := Option.some.inj hchild
        exact .inl (List.mem_map.mpr ⟨(symbol, tail), hmem, rfl⟩)
      | succ j =>
        exact .inr ⟨j, tail, child, hchild, by rw [Nat.add_assoc, Nat.add_comm 1 j], hmem⟩

mutual

theorem Node.prefixFree : ∀ node : Node TValue, PrefixFree node.words
  | .endNode _ => List.pairwise_singleton _ _
  | .innerNode children => prefixFree_children children 0

theorem prefixFree_children : ∀ (children : List (Node TValue)) (i : Nat),
    PrefixFree ((pathsChildren children i).map Prod.snd)
  | [], _ => List.Pairwise.nil
  | node :: children, i => by
    rw [pathsChildren, List.map_append, PrefixFree, List.pairwise_append]
    refine ⟨?_, prefixFree_children children (i + 1), ?_⟩
    · have hnode := node.prefixFree
      rw [PrefixFree, Node.words, List.pairwise_map] at hnode
      rw [List.map_map, List.pairwise_map]
      refine hnode.imp ?_
      intro a b hab
      simp only [Function.comp_apply, List.prefix_cons_inj]
      exact hab
    · intro p hp q hq
      obtain ⟨entry, hentry, rfl⟩ := List.mem_map.mp hp
      obtain ⟨⟨t, q'⟩, hother, rfl⟩ := List.mem_map.mp hq
      obtain ⟨⟨s, p'⟩, -, rfl⟩ := List.mem_map.mp hentry
      obtain ⟨j, tail, child, -, rfl, -⟩ := mem_pathsChildren.mp hother
      simp only [List.cons_prefix_cons]
      exact ⟨fun h => by omega, fun h => by omega⟩

end

/-- The inner nodes have children, and not more than the alphabet has characters. -/
inductive Node.Wf (alphabetSize : Nat) : Node TValue → Prop
  | endNode (value : TValue) : Wf alphabetSize (.endNode value)
  | innerNode (children : List (Node TValue)) (hne : children ≠ [])
      (hlen : children.length ≤ alphabetSize) (h : ∀ node ∈ children, Wf alphabetSize node) :
      Wf alphabetSize (.innerNode children)

variable {node : Node TValue}

theorem Node.Wf.paths_ne_nil {alphabetSize : Nat} (h : node.Wf alphabetSize) : node.paths ≠ [] := by
  induction h with
  | endNode value => exact List.cons_ne_nil _ _
  | innerNode children hne hlen _ ih =>
    obtain ⟨child, children, rfl⟩ := List.exists_cons_of_ne_nil hne
    have hchild := ih child List.mem_cons_self
    rw [paths, pathsChildren]
    intro hnil
    rw [List.append_eq_nil_iff, List.map_eq_nil_iff] at hnil
    exact hchild hnil.1

theorem Node.Wf.char_lt {alphabetSize : Nat} (h : node.Wf alphabetSize) :
    ∀ entry ∈ node.paths, ∀ c ∈ entry.2, c < alphabetSize := by
  induction h with
  | endNode value =>
    intro entry hentry c hc
    rw [paths, List.mem_singleton] at hentry
    rw [hentry] at hc
    cases hc
  | innerNode children _ hlen _ ih =>
    rintro ⟨symbol, path⟩ hentry c hc
    obtain ⟨j, tail, child, hchild, rfl, hmem⟩ := mem_pathsChildren.mp hentry
    obtain ⟨hj, rfl⟩ := List.getElem?_eq_some_iff.mp hchild
    rw [List.mem_cons] at hc
    rcases hc with rfl | hc
    · omega
    · exact ih _ (List.getElem_mem hj) _ hmem c hc

def HuffmanCodePoint.append (alphabetBitLength : Nat) (cp : HuffmanCodePoint) :
    List Nat → HuffmanCodePoint
  | [] => cp
  | i :: path =>
    append alphabetBitLength
      { code := cp.code <<< alphabetBitLength ||| i,
        codeLength := cp.codeLength + alphabetBitLength } path

def HuffmanCodePoint.ofPath (alphabetBitLength : Nat) (path : List Nat) : HuffmanCodePoint :=
  append alphabetBitLength { code := 0, codeLength := 0 } path

section

variable [DecidableEq TValue]

/-- What `codePointMap` adds for the leaves below a prefix. -/
def codePoints (alphabetBitLength : Nat) (cp : HuffmanCodePoint)
    (entries : List (TValue × List Nat)) : List (TValue × HuffmanCodePoint) :=
  entries.map fun entry => (entry.1, cp.append alphabetBitLength entry.2)

omit [DecidableEq TValue] in
theorem keys_codePoints (alphabetBitLength : Nat) (cp : HuffmanCodePoint)
    (entries : List (TValue × List Nat)) :
    OrderedMap.keys (codePoints alphabetBitLength cp entries) = entries.map Prod.fst := by
  rw [OrderedMap.keys, codePoints, List.map_map]
  rfl

theorem append_char {alphabetBitLength i code codeLength : Nat} (hcode : code < 2 ^ codeLength)
    (hi : i < 2 ^ alphabetBitLength) (hlen : codeLength + alphabetBitLength ≤ 32) :
    u32 (code <<< alphabetBitLength) = code <<< alphabetBitLength ∧
      (codeLength + alphabetBitLength) % 2 ^ 8 = codeLength + alphabetBitLength ∧
      code <<< alphabetBitLength ||| i < 2 ^ (codeLength + alphabetBitLength) := by
  have hshift : code <<< alphabetBitLength < 2 ^ (codeLength + alphabetBitLength) := by
    rw [Nat.shiftLeft_eq, Nat.pow_add]
    exact Nat.mul_lt_mul_of_pos_right hcode (Nat.two_pow_pos _)
  have hpow : 2 ^ (codeLength + alphabetBitLength) ≤ 2 ^ 32 :=
    Nat.pow_le_pow_right (by decide) hlen
  have hpowi : 2 ^ alphabetBitLength ≤ 2 ^ (codeLength + alphabetBitLength) :=
    Nat.pow_le_pow_right (by decide) (by omega)
  exact ⟨u32_of_lt (by omega), Nat.mod_eq_of_lt (by omega),
    Nat.or_lt_two_pow hshift (by omega)⟩

mutual

theorem codePointMapRecurse_eq (alphabetBitLength : Nat) :
    ∀ (node : Node TValue) (dest : List (TValue × HuffmanCodePoint)) (cp : HuffmanCodePoint),
      node.Wf (2 ^ alphabetBitLength) → cp.code < 2 ^ cp.codeLength →
      (∀ entry ∈ node.paths, cp.codeLength + alphabetBitLength * entry.2.length ≤ 32) →
      node.symbols.Nodup → (∀ symbol ∈ node.symbols, symbol ∉ OrderedMap.keys dest) →
      codePointMapRecurse alphabetBitLength dest node cp.code cp.codeLength =
        dest ++ codePoints alphabetBitLength cp node.paths
  | .endNode value, dest, cp, _, _, _, _, hdest => by
    rw [codePointMapRecurse, OrderedMap.assign_of_not_mem]
    · rfl
    · exact hdest value (List.mem_singleton.mpr rfl)
  | .innerNode children, dest, cp, .innerNode _ _ hsize hwf, hcode, hlen, hnodup, hdest => by
    rw [codePointMapRecurse]
    exact codePointMapChildren_eq alphabetBitLength children dest 0 cp hwf hcode
      (by rwa [Nat.zero_add]) hlen hnodup hdest

theorem codePointMapChildren_eq (alphabetBitLength : Nat) :
    ∀ (children : List (Node TValue)) (dest : List (TValue × HuffmanCodePoint)) (i : Nat)
      (cp : HuffmanCodePoint),
      (∀ node ∈ children, node.Wf (2 ^ alphabetBitLength)) → cp.code < 2 ^ cp.codeLength →
      i + children.length ≤ 2 ^ alphabetBitLength →
      (∀ entry ∈ pathsChildren children i,
        cp.codeLength + alphabetBitLength * entry.2.length ≤ 32) →
      ((pathsChildren children i).map Prod.fst).Nodup →
      (∀ symbol ∈ (pathsChildren children i).map Prod.fst, symbol ∉ OrderedMap.keys dest) →
      codePointMapChildren alphabetBitLength dest children i cp.code cp.codeLength =
        dest ++ codePoints alphabetBitLength cp (pathsChildren children i)
  | [], dest, _, _, _, _, _, _, _, _ => by
    rw [codePointMapChildren, pathsChildren, codePoints, List.map_nil, List.append_nil]
  | node :: children, dest, i, cp, hwf, hcode, hi, hlen, hnodup, hdest => by
    rw [List.forall_mem_cons] at hwf
    rw [List.length_cons] at hi
    rw [pathsChildren, List.map_append, List.map_map] at hnodup hdest
    rw [pathsChildren] at hlen
    have hfirst : ∀ entry ∈ node.paths,
        cp.codeLength + alphabetBitLength + alphabetBitLength * entry.2.length ≤ 32 := by
      intro entry hentry
      have hle := hlen (entry.1, i :: entry.2)
        (List.mem_append_left _ (List.mem_map.mpr ⟨entry, hentry, rfl⟩))
      rw [List.length_cons, Nat.mul_succ] at hle
      omega
    obtain ⟨entry, hentry⟩ := List.exists_mem_of_ne_nil _ hwf.1.paths_ne_nil
    have hshort := hfirst entry hentry
    obtain ⟨hu32, hmod, hcode'⟩ := append_char hcode (show i < 2 ^ alphabetBitLength by omega)
      (by omega)
    obtain ⟨hnodup₁, hnodup₂, hdisjoint⟩ := List.nodup_append'.mp hnodup
    have hnode := codePointMapRecurse_eq alphabetBitLength node dest
      { code := cp.code <<< alphabetBitLength ||| i,
        codeLength := cp.codeLength + alphabetBitLength } hwf.1 hcode' hfirst hnodup₁
      fun symbol hsymbol => hdest symbol (List.mem_append_left _ hsymbol)
    rw [codePointMapChildren, hu32, hmod, hnode,
      codePointMapChildren_eq alphabetBitLength children _ (i + 1) cp hwf.2 hcode (by omega)
        (fun entry hentry => hlen entry (List.mem_append_right _ hentry)) hnodup₂ ?_,
      pathsChildren, List.append_assoc]
    · congr 1
      rw [codePoints, codePoints, codePoints, List.map_append, List.map_map]
      rfl
    · intro symbol hsymbol hkeys
      rw [OrderedMap.keys_append, List.mem_append, keys_codePoints] at hkeys
      rcases hkeys with hkeys | hkeys
      · exact hdest symbol (List.mem_append_right _ hsymbol) hkeys
      · exact hdisjoint hkeys hsymbol

end

theorem codePointMap_eq (alphabetBitLength : Nat) (root : Node TValue)
    (hwf : root.Wf (2 ^ alphabetBitLength)) (hnodup : root.symbols.Nodup)
    (hlen : ∀ entry ∈ root.paths, alphabetBitLength * entry.2.length ≤ 32) :
    codePointMap alphabetBitLength root =
      root.paths.map fun entry => (entry.1, .ofPath alphabetBitLength entry.2) := by
  have hrec := codePointMapRecurse_eq alphabetBitLength root [] { code := 0, codeLength := 0 } hwf
    Nat.one_pos (by simpa using hlen) hnodup (fun _ _ => List.not_mem_nil)
  rw [codePointMap, hrec, List.nil_append]
  rfl

end

theorem at_cons (node : Node TValue) (c : Nat) (chars : List Nat) (deflt : TValue) :
    node.at (c :: chars) deflt = deflt := by
  generalize hchars : c :: chars = all
  fun_induction Node.at node all deflt with
  | case1 => cases hchars
  | case2 => cases hchars
  | case3 => rfl
  | case4 c' chars' _ _ ih => exact ih hchars
  | case5 => rfl

/-- What is required of the tree of an alphabet: the code is prefix free, `codePointMap` lists the
symbols with their root paths, a walk over the path of a symbol returns the symbol whatever the
default is, and a concatenation of paths is one of no other symbols, as many as these. -/
structure CodeSpec [DecidableEq TValue] (alphabetBitLength : Nat) (symbols : List TValue)
    (root : Node TValue) : Prop where
  prefixFree : PrefixFree root.words
  symbols : root.symbols.Perm symbols
  codePointMap : (codePointMap alphabetBitLength root).Perm
    (root.paths.map fun entry => (entry.1, .ofPath alphabetBitLength entry.2))
  «at» : ∀ entry ∈ root.paths, ∀ deflt, root.at entry.2 deflt = entry.1
  concat : ∀ front back : List (TValue × List Nat), (∀ entry ∈ front, entry ∈ root.paths) →
    (∀ entry ∈ back, entry ∈ root.paths) → front.length = back.length →
    (front.map Prod.snd).flatten = (back.map Prod.snd).flatten → front = back

theorem entry_eq_of_word {a b : TValue × List Nat} (ha : a ∈ node.paths) (hb : b ∈ node.paths)
    (hword : a.2 = b.2) : a = b :=
  List.inj_on_of_nodup_map node.prefixFree.nodup ha hb hword

theorem concat_inj {front back : List (TValue × List Nat)}
    (hfront : ∀ entry ∈ front, entry ∈ node.paths) (hback : ∀ entry ∈ back, entry ∈ node.paths)
    (hlen : front.length = back.length)
    (hflat : (front.map Prod.snd).flatten = (back.map Prod.snd).flatten) : front = back := by
  have hwords : ∀ {entries : List (TValue × List Nat)}, (∀ entry ∈ entries, entry ∈ node.paths) →
      ∀ word ∈ entries.map Prod.snd, word ∈ node.words := by
    intro entries hentries word hword
    obtain ⟨entry, hentry, rfl⟩ := List.mem_map.mp hword
    exact List.mem_map_of_mem (hentries entry hentry)
  have hmap := node.prefixFree.flatten_inj (hwords hfront) (hwords hback)
    (by simpa using hlen) hflat
  clear hflat
  induction front generalizing back with
  | nil => exact (List.eq_nil_of_length_eq_zero hlen.symm).symm
  | cons a front ih =>
    cases back with
    | nil => cases hlen
    | cons b back =>
      rw [List.forall_mem_cons] at hfront hback
      rw [List.map_cons, List.map_cons, List.cons.injEq] at hmap
      rw [entry_eq_of_word hfront.1 hback.1 hmap.1,
        ih hfront.2 hback.2 (Nat.succ.inj hlen) hmap.2]

theorem not_at_of_two {root : Node TValue} {a b : TValue × List Nat} (ha : a ∈ root.paths)
    (hb : b ∈ root.paths) (hne : a.1 ≠ b.1) : ∃ deflt, root.at a.2 deflt ≠ a.1 := by
  obtain ⟨s, p⟩ := a
  obtain ⟨t, q⟩ := b
  cases p with
  | nil =>
    have hword : ([] : List Nat) = q :=
      root.prefixFree.eq_of_isPrefix (List.mem_map_of_mem ha) (List.mem_map_of_mem hb)
        List.nil_prefix
    exact absurd (congrArg Prod.fst (entry_eq_of_word ha hb hword)) hne
  | cons c p =>
    refine ⟨t, ?_⟩
    rw [at_cons]
    exact hne.symm

variable [DecidableEq TValue]

theorem codeSpec_endNode (alphabetBitLength : Nat) (symbol : TValue) :
    CodeSpec alphabetBitLength [symbol] (.endNode symbol) where
  prefixFree := Node.prefixFree _
  symbols := List.Perm.refl _
  codePointMap := List.Perm.refl _
  «at» := by
    intro entry hentry deflt
    rw [Node.paths, List.mem_singleton] at hentry
    rw [hentry, Node.at]
  concat _ _ hfront hback hlen hflat := concat_inj hfront hback hlen hflat

/-- `create` yields a tree that `at` can walk exactly when the alphabet has one symbol. -/
theorem huffman_codeSpec_iff (digits alphabetBitLength : Nat) (probs : List (TValue × Nat))
    (hsymbols : (probs.map Prod.fst).Nodup) :
    (∃ root, create digits alphabetBitLength probs = some root ∧
      CodeSpec alphabetBitLength (probs.map Prod.fst) root) ↔ probs.length = 1 := by
  constructor
  · rintro ⟨root, hcreate, hspec⟩
    match probs, hsymbols with
    | [], _ => cases hcreate
    | [_], _ => rfl
    | (s, _) :: (t, _) :: _, hsymbols =>
      have hmem : ∀ symbol ∈ s :: t :: _, ∃ entry ∈ root.paths, entry.1 = symbol :=
        fun symbol hsymbol => List.mem_map.mp (hspec.symbols.mem_iff.mpr hsymbol)
      obtain ⟨a, ha, rfl⟩ := hmem s List.mem_cons_self
      obtain ⟨b, hb, rfl⟩ := hmem t (List.mem_cons_of_mem _ List.mem_cons_self)
      have hne : a.1 ≠ b.1 := by
        intro heq
        refine (List.nodup_cons.mp hsymbols).1 ?_
        rw [heq]
        exact List.mem_cons_self
      obtain ⟨deflt, hat⟩ := not_at_of_two ha hb hne
      exact absurd (hspec.at a ha deflt) hat
  · intro hone
    match probs, hone with
    | [(symbol, _)], _ => exact ⟨.endNode symbol, rfl, codeSpec_endNode alphabetBitLength symbol⟩

theorem huffman_codeSpec_iff_two :
    (∃ root, create 32 1 [(7, 1), (9, 1)] = some root ∧ CodeSpec 1 [7, 9] root) ↔
      [((7 : Nat), 1), (9, 1)].length = 1 :=
  huffman_codeSpec_iff 32 1 [(7, 1), (9, 1)] (by decide)

/-- Of two symbols neither is found by its path. -/
theorem huffman_not_codeSpec :
    ¬ ∃ root, create 32 1 [((7 : Nat), 1), (9, 1)] = some root ∧ CodeSpec 1 [7, 9] root := by
  rintro ⟨root, hcreate, hspec⟩
  obtain rfl : Node.innerNode [.endNode 7, .endNode 9] = root := Option.some.inj hcreate
  have hat := hspec.at (7, [0]) List.mem_cons_self 9
  rw [at_cons] at hat
  cases hat

end Sserialize.HuffmanTree
