import Sserialize.Library.OrderedMap
import Sserialize.Library.PrefixTree
import Sserialize.Strings.Utf8

/-!
# `UnicodeTrie::Trie`

The nodes are on a heap with the addresses below `size`. A node has the bytes of its edge, and the
code point that these start with is its key in the map of the parent. `fresh` is the value of a new
node.
-/

namespace Sserialize

structure TrieNode (V : Type) where
  str : Bytes
  parent : Option Nat
  children : List (Nat × Nat)
  value : V

structure TrieHeap (V : Type) where
  size : Nat
  node : Nat → TrieNode V

structure UnicodeTrie (V : Type) where
  heap : TrieHeap V
  root : Option Nat

namespace TrieHeap

variable {V : Type} (h : TrieHeap V)

def alloc (n : TrieNode V) : TrieHeap V where
  size := h.size + 1
  node := Function.update h.node h.size n

def modify (i : Nat) (f : TrieNode V → TrieNode V) : TrieHeap V where
  size := h.size
  node := Function.update h.node i (f (h.node i))

def reparent (p : Nat) (children : List (Nat × Nat)) : TrieHeap V :=
  children.foldl (fun h x => h.modify x.2 fun n => { n with parent := some p }) h

variable (fresh : V)

def addChild (current key : Nat) (str : Bytes) : TrieHeap V :=
  (h.alloc ⟨str, some current, [], fresh⟩).modify current fun n =>
    { n with children := SortedMap.assign key h.size n.children }

/-- The node keeps its string up to `cRest`. A new child of it takes over the rest with the children
and the value. -/
def splitNode (current key : Nat) (cRest : Bytes) : TrieHeap V :=
  let n := h.node current
  ((h.alloc ⟨cRest, some current, n.children, n.value⟩).reparent h.size n.children).modify current
    fun m => ⟨m.str.take (m.str.length - cRest.length), m.parent, [(key, h.size)], fresh⟩

def commonPrefix : Nat → Bytes → Bytes → Except Fault (Bytes × Bytes)
  | 0, c, s => .ok (c, s)
  | rounds + 1, c, s =>
    if c ≠ [] ∧ s ≠ [] then do
      let (sCode, s') ← Utf8.next s
      let (cCode, c') ← Utf8.next c
      if sCode = cCode then commonPrefix rounds c' s' else .ok (c, s)
    else .ok (c, s)

/-- What a round of `nodeAt` does: it goes on with a child or it ends at a node. -/
inductive Move (V : Type) where
  | down (current : Nat) (rest : Bytes)
  | done (h : TrieHeap V) (current : Nat)

def peekBoth (c s : Bytes) : Except Fault Unit := do
  let _ ← Utf8.next s
  if c ≠ [] then do
    let _ ← Utf8.next c
    return ()
  else .ok ()

/-- A round of `nodeAt`. -/
def nodeAtStep (current : Nat) (s : Bytes) : Except Fault (Move V) :=
  if s = [] then .ok (.done h current)
  else do
    let n := h.node current
    peekBoth n.str s
    let (cRest, rest) ← commonPrefix n.str.length n.str s
    if cRest = [] then
      if rest = [] then return .done h current
      else do
        let (key, _) ← Utf8.next rest
        match OrderedMap.lookup key n.children with
        | some child => return .down child rest
        | none => return .done (h.addChild fresh current key rest) h.size
    else if rest = [] then do
      let (cKey, _) ← Utf8.next cRest
      return .done (h.splitNode fresh current cKey cRest) current
    else do
      let (key, _) ← Utf8.next rest
      let (cKey, _) ← Utf8.next cRest
      let split := h.splitNode fresh current cKey cRest
      return .done (split.addChild fresh current key rest) split.size

def nodeAtLoop : Nat → Nat → Bytes → Option (Except Fault (TrieHeap V × Nat))
  | 0, _, _ => none
  | fuel + 1, current, s =>
    match h.nodeAtStep fresh current s with
    | .error e => some (.error e)
    | .ok (.done h' i) => some (.ok (h', i))
    | .ok (.down child rest) => nodeAtLoop fuel child rest

def matchBytes : Bytes → Bytes → Option (Bytes × Bytes)
  | [], s => some ([], s)
  | c :: n, [] => some (c :: n, [])
  | c :: n, d :: s => if d = c then matchBytes n s else none

/-- The loop of `findNode`: the node with what is left of its string and of the search string. -/
def findLoop (prefixMatch : Bool) : Nat → Nat → Bytes → Bytes → Option (Except Fault (Option Nat))
  | 0, _, _, _ => none
  | fuel + 1, i, nStr, s =>
    if s = [] then
      some (.ok (if nStr ≠ [] ∧ prefixMatch = false then none else some i))
    else
      match matchBytes nStr s with
      | none => some (.ok none)
      | some (nStr', s') =>
        if nStr' = [] ∧ s' ≠ [] then
          match Utf8.next s' with
          | .error e => some (.error e)
          | .ok (key, _) =>
            match OrderedMap.lookup key (h.node i).children with
            | some child => findLoop prefixMatch fuel child (h.node child).str s'
            | none => some (.ok none)
        else findLoop prefixMatch fuel i nStr' s'

end TrieHeap

namespace UnicodeTrie

variable {V : Type} (fresh : V)

def new : UnicodeTrie V := ⟨⟨0, fun _ => ⟨[], none, [], fresh⟩⟩, none⟩

def nodeAt (fuel : Nat) (t : UnicodeTrie V) (s : Bytes) :
    Option (Except Fault (UnicodeTrie V × Nat)) :=
  let (h, r) := match t.root with
    | some r => (t.heap, r)
    | none => (t.heap.alloc ⟨[], none, [], fresh⟩, t.heap.size)
  (h.nodeAtLoop fresh fuel r s).map fun run => do
    let (h', i) ← run
    return (⟨h', some r⟩, i)

def insert (fuel : Nat) (t : UnicodeTrie V) (s : Bytes) (v : Option V) :
    Option (Except Fault (UnicodeTrie V)) :=
  (nodeAt fresh fuel t s).map fun run => do
    let (t', i) ← run
    return { t' with heap := t'.heap.modify i fun n => { n with value := v.getD n.value } }

def insertAll (fuel : Nat) : UnicodeTrie V → List (Bytes × Option V) →
    Option (Except Fault (UnicodeTrie V))
  | t, [] => some (.ok t)
  | t, (s, v) :: ops =>
    match insert fresh fuel t s v with
    | none => none
    | some (.error e) => some (.error e)
    | some (.ok t') => insertAll fuel t' ops

def findNode (fuel : Nat) (t : UnicodeTrie V) (s : Bytes) (prefixMatch : Bool) :
    Option (Except Fault (Option Nat)) :=
  match t.root with
  | none => some (.ok none)
  | some r => t.heap.findLoop prefixMatch fuel r (t.heap.node r).str s

/-- The nodes with the strings on the way to them. -/
inductive IsPath (t : UnicodeTrie V) : Nat → Bytes → Prop where
  | root {r : Nat} : t.root = some r → IsPath t r (t.heap.node r).str
  | child {i key c : Nat} {s : Bytes} : IsPath t i s → (key, c) ∈ (t.heap.node i).children →
      IsPath t c (s ++ (t.heap.node c).str)

end UnicodeTrie

end Sserialize

/-!
## The nodes of a `UnicodeTrie::Trie`

Every node has the string on the way to it as its path. The paths are ghost state: `ps i` is the
path of the node with the address `i`, in code points.
-/

namespace Sserialize

open PrefixTree

namespace TrieHeap

variable {V : Type}

/-- `i` is the child of `q` for the code point `c`. -/
structure IsChild (h : TrieHeap V) (ps : Nat → List Char) (q i : Nat) (c : Char) (cs : List Char) :
    Prop where
  key : (c.val.toNat, i) ∈ (h.node q).children
  parent : (h.node i).parent = some q
  str : (h.node i).str = Utf8.encode (c :: cs)
  path : ps i = ps q ++ c :: cs

structure Wf (h : TrieHeap V) (ps : Nat → List Char) : Prop where
  pos : 0 < h.size
  root_str : (h.node 0).str = []
  root_parent : (h.node 0).parent = none
  root_path : ps 0 = []
  up : ∀ i, 0 < i → i < h.size → ∃ q c cs, q < h.size ∧ IsChild h ps q i c cs
  down : ∀ q, q < h.size → ∀ key i, (key, i) ∈ (h.node q).children →
    0 < i ∧ i < h.size ∧ ∃ c cs, key = c.val.toNat ∧ IsChild h ps q i c cs
  sorted : ∀ q, q < h.size → SortedMap.Sorted (h.node q).children

variable {h : TrieHeap V} {ps : Nat → List Char}

variable {cs : List Char}

theorem IsChild.length_lt {q i : Nat} {c : Char} (hi : IsChild h ps q i c cs) :
    (ps q).length < (ps i).length := by
  rw [hi.path, List.length_append, List.length_cons]
  omega

theorem IsChild.next {q i : Nat} {c : Char} (hi : IsChild h ps q i c cs) : ps q ++ [c] <+: ps i := by
  rw [hi.path]
  exact ⟨cs, by rw [List.append_assoc, List.singleton_append]⟩

theorem IsChild.isPrefix {q i : Nat} {c : Char} (hi : IsChild h ps q i c cs) : ps q <+: ps i := by
  rw [hi.path]
  exact List.prefix_append _ _

theorem isPrefix_next_unique {p s : List Char} {c d : Char} (hc : p ++ [c] <+: s)
    (hd : p ++ [d] <+: s) : c = d := by
  by_contra hne
  have hlcp := lcp_of_ne hne hc hd
  rw [lcp_self] at hlcp
  have hlen := hc.length_le
  rw [hlcp, List.length_append, List.length_singleton] at hlen
  omega

namespace Wf

variable {c : Char}

theorem child_unique (hw : Wf h ps) {q i j : Nat} (hq : q < h.size) {cs ds : List Char}
    (hi : IsChild h ps q i c cs) (hj : IsChild h ps q j c ds) : i = j :=
  (hw.sorted q hq).eq hi.key hj.key

theorem child_eq (hw : Wf h ps) {q i j : Nat} (hq : q < h.size) {c d : Char} {cs ds : List Char}
    (hi : IsChild h ps q i c cs) (hj : IsChild h ps q j d ds) {s : List Char} (hs : ps i <+: s)
    (hs' : ps j <+: s) : i = j := by
  obtain rfl := isPrefix_next_unique (hi.next.trans hs) (hj.next.trans hs')
  exact hw.child_unique hq hi hj

theorem eq_zero (hw : Wf h ps) {i : Nat} (hi : i < h.size) (hpath : ps i = []) : i = 0 := by
  by_contra hne
  obtain ⟨q, c, cs, -, hchild⟩ := hw.up i (Nat.pos_of_ne_zero hne) hi
  have hlt := hchild.length_lt
  rw [hpath, List.length_nil] at hlt
  omega

theorem descend (hw : Wf h ps) {i j : Nat} (hi : i < h.size) (hj : j < h.size)
    (hpre : ps i <+: ps j) :
    i = j ∨ ∃ k c cs, k < h.size ∧ IsChild h ps i k c cs ∧ ps k <+: ps j := by
  induction hn : (ps j).length using Nat.strong_induction_on generalizing i j with
  | _ n ih =>
  subst hn
  by_cases hj0 : j = 0
  · subst hj0
    rw [hw.root_path, List.prefix_nil] at hpre
    exact .inl (hw.eq_zero hi hpre)
  obtain ⟨p, c, cs, hp, hjp⟩ := hw.up j (Nat.pos_of_ne_zero hj0) hj
  have hplt := hjp.length_lt
  -- a node on the way to the parent is a node on the way to the child
  have habove : ∀ q, q < h.size → ps q <+: ps p →
      q = j ∨ ∃ k c cs, k < h.size ∧ IsChild h ps q k c cs ∧ ps k <+: ps j := by
    intro q hq hqp
    rcases ih _ hplt hq hp hqp rfl with rfl | ⟨k, d, ds, hk, hkq, hkp⟩
    · exact .inr ⟨j, c, cs, hj, hjp, List.prefix_rfl⟩
    · exact .inr ⟨k, d, ds, hk, hkq, hkp.trans hjp.isPrefix⟩
  rcases List.prefix_or_prefix_of_prefix hpre hjp.isPrefix with hip | hpi
  · exact habove i hi hip
  by_cases hi0 : i = 0
  · subst hi0
    exact habove 0 hi (by rw [hw.root_path]; exact List.nil_prefix)
  obtain ⟨q, d, ds, hq, hiq⟩ := hw.up i (Nat.pos_of_ne_zero hi0) hi
  have hile := hpre.length_le
  have hqlt := hiq.length_lt
  rcases List.prefix_or_prefix_of_prefix (hiq.isPrefix.trans hpre) hjp.isPrefix with hqp | hpq
  · rcases ih _ hplt hq hp hqp rfl with rfl | ⟨k, e, es, hk, hkq, hkp⟩
    · exact .inl (hw.child_eq hq hiq hjp hpre List.prefix_rfl)
    · have hki := hw.child_eq hq hiq hkq List.prefix_rfl (hkp.trans hpi)
      subst hki
      exact habove i hi hkp
  · rcases ih _ (by omega) hp hq hpq rfl with rfl | ⟨k, e, es, -, hkp, hkq⟩
    · exact .inl (hw.child_eq hp hiq hjp hpre List.prefix_rfl)
    · have hkj := hw.child_eq hp hkp hjp ((hkq.trans hiq.isPrefix).trans hpre) List.prefix_rfl
      subst hkj
      have hle := hkq.length_le
      omega

theorem path_injective (hw : Wf h ps) {i j : Nat} (hi : i < h.size) (hj : j < h.size)
    (heq : ps i = ps j) : i = j := by
  rcases hw.descend hi hj (by rw [heq]) with hij | ⟨k, c, cs, -, hchild, hpre⟩
  · exact hij
  · have hlt := hchild.length_lt
    have hle := hpre.length_le
    rw [heq] at hlt
    omega

theorem descend_next (hw : Wf h ps) {i j : Nat} (hi : i < h.size) (hj : j < h.size)
    (hpre : ps i ++ [c] <+: ps j) : ∃ k cs, k < h.size ∧ IsChild h ps i k c cs ∧ ps k <+: ps j := by
  rcases hw.descend hi hj ((List.prefix_append _ _).trans hpre) with rfl | ⟨k, d, ds, hk, hki, hkj⟩
  · have hlen := hpre.length_le
    rw [List.length_append, List.length_singleton] at hlen
    omega
  · obtain rfl := isPrefix_next_unique hpre (hki.next.trans hkj)
    exact ⟨k, ds, hk, hki, hkj⟩

theorem lookup_eq_some (hw : Wf h ps) {q : Nat} (hq : q < h.size) {i : Nat} :
    OrderedMap.lookup c.val.toNat (h.node q).children = some i ↔
      i < h.size ∧ ∃ cs, IsChild h ps q i c cs := by
  rw [OrderedMap.lookup_eq_some (hw.sorted q hq).nodup]
  constructor
  · intro hmem
    obtain ⟨-, hi, d, cs, hkey, hchild⟩ := hw.down q hq _ i hmem
    have hcd : c = d := Char.ext (UInt32.toNat_inj.mp hkey)
    exact ⟨hi, cs, hcd ▸ hchild⟩
  · rintro ⟨-, cs, hchild⟩
    exact hchild.key

theorem lookup_eq_none (hw : Wf h ps) {q : Nat} (hq : q < h.size)
    (hnone : OrderedMap.lookup c.val.toNat (h.node q).children = none) {i : Nat} (hi : i < h.size)
    (cs : List Char) : ¬ IsChild h ps q i c cs := by
  intro hchild
  have hsome := (hw.lookup_eq_some hq).mpr ⟨hi, cs, hchild⟩
  rw [hnone] at hsome
  cases hsome

end Wf

end TrieHeap

end Sserialize
