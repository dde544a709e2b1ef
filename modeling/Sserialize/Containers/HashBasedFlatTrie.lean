import Sserialize.Containers.OADHashTableRun
import Sserialize.Library.PrefixTree
import Sserialize.Strings.Utf8

/-!
# `HashBasedFlatTrie`

A hash table of strings that is turned into a trie by sorting it and by adding the inner nodes. A
`StaticString` is here the bytes that it stands for: the string data only grows, and the hash
functions and the equality of keys look at the bytes alone. A node is a range of the sorted strings.
-/

namespace Sserialize

structure HashBasedFlatTrie (V : Type) where
  stringData : Bytes
  ht : OADHashTable Bytes V

structure KeySort (V : Type) where
  op : SortOp (Bytes × V)
  smaller : ∀ a b r, unicodeIsSmaller a.1 b.1 = .ok r → op.lt a b = r

namespace KeySort

def byCodes (V : Type) : KeySort V :=
  let le (a b : Bytes × V) : Prop := Utf8.codes a.1.length a.1 ≤ Utf8.codes b.1.length b.1
  { op :=
      { lt := fun a b => Utf8.codes a.1.length a.1 < Utf8.codes b.1.length b.1
        sort := List.insertionSort le
        perm := List.perm_insertionSort le
        sorted := by
          have htotal : Std.Total le := ⟨fun a b => le_total _ _⟩
          have htrans : IsTrans (Bytes × V) le := ⟨fun a b c hab hbc => le_trans hab hbc⟩
          intro l
          refine (List.pairwise_insertionSort le l).imp ?_
          intro a b hle
          exact decide_eq_false (not_lt.mpr hle) }
    smaller := fun _ _ _ h => (unicodeIsSmaller_codes h).symm }

end KeySort

namespace HashBasedFlatTrie

variable {V : Type}

/-! ## Hashing -/

def hashCombine (seed : UInt64) (v : UInt8) : UInt64 :=
  seed ^^^ (v.toInt8.toInt64.toUInt64 + (0x9e3779b9 : UInt64) + seed <<< 6 + seed >>> 2)

def hashFunc1 (a : Bytes) : UInt64 := a.foldl hashCombine 0

def hashFunc2 (a : Bytes) : UInt64 := a.foldr (fun v seed => hashCombine seed v) 0

def new : HashBasedFlatTrie V :=
  { stringData := [], ht := OADHashTable.new hashFunc1 hashFunc2 (2 ^ 64 - 1) }

def keys (ht : OADHashTable Bytes V) : List Bytes := OrderedMap.keys ht.valueStorage

/-! ## Inserting -/

def noff : Nat := 2 ^ 36 - 1

def maxStringSize : Nat := 2 ^ 28 - 2

section Insert

variable [Inhabited V]

/-- `find` returns the end exactly where `count` is false: for `findend` it forms the reference to a
slot and does not read it. -/
def insert (fuel : Nat) (t : HashBasedFlatTrie V) (a : Bytes) :
    Option (Except Fault (HashBasedFlatTrie V)) :=
  if a.length > maxStringSize then some (.error .outOfBounds)
  else if t.ht.count a then some (.ok t)
  else if t.stringData.length ≥ noff then some (.error .outOfRange)
  else
    match t.ht.insert fuel a with
    | none => none
    | some (.error e) => some (.error e)
    | some (.ok ht) => some (.ok { stringData := t.stringData ++ a, ht := ht })

end Insert

/-! ## Ranges of strings -/

def range {α : Type} (keys : List α) (b e : Nat) : List α := (keys.take e).drop b

/-- `std::upper_bound` with `CompFunc`: the number of strings before the first whose next code point
is greater than `cp`. -/
def upperBound (cp pos : Nat) : List Bytes → Except Fault Nat
  | [] => .ok 0
  | str :: strs => do
    let (next, _) ← Utf8.next (str.drop pos)
    if cp < next then .ok 0
    else do
      let n ← upperBound cp pos strs
      .ok (n + 1)

/-- The end of the child that begins at `b`: the strings with the next code point of its first one.
With it the position behind the code point. -/
def childEnd (keys : List Bytes) (b e pos : Nat) : Except Fault (Nat × Nat) :=
  match range keys b e with
  | [] => .error .undefinedBehaviour
  | str :: strs => do
    let (cp, rest) ← Utf8.next (str.drop pos)
    let n ← upperBound cp pos (str :: strs)
    .ok (b + n, str.length - rest.length)

/-! ## Finalizing -/

/-- The loop that moves `posInStr` to the end of the string of the node. -/
def nodePos (keys : List Bytes) (b e size : Nat) : Nat → Nat → Except Fault Nat
  | 0, posInStr => .ok posInStr
  | rounds + 1, posInStr =>
    if posInStr < size then do
      let (endChildNode, posInStr') ← childEnd keys b e posInStr
      if endChildNode = e then nodePos keys b e size rounds posInStr' else .ok posInStr
    else .ok posInStr

def finalizeChildren
    (finalizeNode : OADHashTable Bytes V → Nat → Nat → Nat →
      Option (Except Fault (OADHashTable Bytes V)))
    (nodeEnd posInStr : Nat) :
    Nat → OADHashTable Bytes V → Nat → Option (Except Fault (OADHashTable Bytes V))
  | 0, ht, _ => some (.ok ht)
  | rounds + 1, ht, nodeBegin =>
    if nodeBegin = nodeEnd then some (.ok ht)
    else
      match childEnd (keys ht) nodeBegin nodeEnd posInStr with
      | .error e => some (.error e)
      | .ok (childEnd, childPos) =>
        match finalizeNode ht nodeBegin childEnd childPos with
        | none => none
        | some (.error e) => some (.error e)
        | some (.ok ht) => finalizeChildren finalizeNode nodeEnd posInStr rounds ht childEnd

section Finalize

variable [Inhabited V]

/-- `finalize` of the node with the strings from `nodeBegin` to `nodeEnd`, to a depth. -/
def finalizeNode (fuel : Nat) :
    Nat → OADHashTable Bytes V → Nat → Nat → Nat → Option (Except Fault (OADHashTable Bytes V))
  | 0, _, _, _, _ => none
  | depth + 1, ht, nodeBegin, nodeEnd, posInStr =>
    if nodeBegin = nodeEnd then some (.ok ht)
    else
      match (keys ht)[nodeBegin]? with
      | none => some (.error .undefinedBehaviour)
      | some str =>
        match nodePos (keys ht) nodeBegin nodeEnd str.length str.length posInStr with
        | .error e => some (.error e)
        | .ok posInStr =>
          if str.length > posInStr then
            match ht.insert fuel (str.take posInStr) with
            | none => none
            | some (.error e) => some (.error e)
            | some (.ok ht) =>
              finalizeChildren (finalizeNode fuel depth) nodeEnd posInStr (nodeEnd - nodeBegin) ht
                nodeBegin
          else
            finalizeChildren (finalizeNode fuel depth) nodeEnd posInStr (nodeEnd - nodeBegin) ht
              (nodeBegin + 1)

def finalize (fuel : Nat) (sort : KeySort V) (t : HashBasedFlatTrie V) :
    Option (Except Fault (HashBasedFlatTrie V)) :=
  match t.ht.sort fuel sort.op with
  | none => none
  | some ht =>
    match finalizeNode fuel (ht.size + 1) ht 0 ht.size 0 with
    | none => none
    | some (.error e) => some (.error e)
    | some (.ok ht) =>
      match ht.sort fuel sort.op with
      | none => none
      | some ht => some (.ok { t with ht := ht })

end Finalize

/-! ## Nodes -/

structure Node where
  nodeBegin : Nat
  nodeEnd : Nat

def root (t : HashBasedFlatTrie V) : Node := { nodeBegin := 0, nodeEnd := t.ht.size }

/-- The children that the iterator visits from `childNodeBegin` on. -/
def childrenFrom (keys : List Bytes) (childrenEnd posInStr : Nat) :
    Nat → Nat → Except Fault (List Node)
  | 0, _ => .ok []
  | rounds + 1, childNodeBegin =>
    if childNodeBegin = childrenEnd then .ok []
    else do
      let (childNodeEnd, _) ← childEnd keys childNodeBegin childrenEnd posInStr
      let children ← childrenFrom keys childrenEnd posInStr rounds childNodeEnd
      .ok ({ nodeBegin := childNodeBegin, nodeEnd := childNodeEnd } :: children)

def Node.children (t : HashBasedFlatTrie V) (n : Node) : Except Fault (List Node) :=
  match (HashBasedFlatTrie.keys t.ht)[n.nodeBegin]? with
  | none => .error .undefinedBehaviour
  | some str =>
    childrenFrom (HashBasedFlatTrie.keys t.ht) n.nodeEnd str.length (n.nodeEnd - n.nodeBegin)
      (n.nodeBegin + 1)

/-- The nodes that are visited from the root. -/
inductive Reachable (t : HashBasedFlatTrie V) : Node → Prop
  | root : Reachable t t.root
  | child {n c : Node} {children : List Node} : Reachable t n → n.children t = .ok children →
      c ∈ children → Reachable t c

end HashBasedFlatTrie

end Sserialize
