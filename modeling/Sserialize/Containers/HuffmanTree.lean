import Sserialize.Containers.CompactUintArray
import Sserialize.Library.OrderedMap

/-!
# `HuffmanTree`

The tree is built from a `std::set` of node pointers that is ordered through a look up table of
frequencies and node numbers. A node pointer is an address with the node behind it; a table is a
function, with the default value of the pair for what is not in it.
-/

namespace Sserialize.HuffmanTree

variable {TValue : Type}

inductive Node (TValue : Type) where
  | endNode (value : TValue)
  | innerNode (children : List (Node TValue))

/-! ## `depth` -/

mutual

def Node.depth : Node TValue → Nat
  | .endNode _ => 1
  | .innerNode children => depthChildren children + 1

def depthChildren : List (Node TValue) → Nat
  | [] => 0
  | node :: children => max node.depth (depthChildren children)

end

/-! ## `create` -/

structure NodePtr (TValue : Type) where
  addr : Nat
  node : Node TValue

abbrev FreqTable := Nat → Nat × Nat

def FreqTable.put (lt : FreqTable) (addr : Nat) (v : Nat × Nat) : FreqTable :=
  Function.update lt addr v

def FreqTable.erase (lt : FreqTable) (addr : Nat) : FreqTable := Function.update lt addr (0, 0)

def keyLt (a b : Nat × Nat) : Bool := a.1 < b.1 || (a.1 == b.1 && a.2 < b.2)

def nodePtrComparator (lt : FreqTable) (a b : NodePtr TValue) : Bool :=
  keyLt (lt a.addr) (lt b.addr)

/-- `insert` of the sorted set: nothing happens when an equivalent pointer is in it. -/
def insertNode (lt : FreqTable) (node : NodePtr TValue) :
    List (NodePtr TValue) → List (NodePtr TValue)
  | [] => [node]
  | other :: tree =>
    if nodePtrComparator lt node other then node :: other :: tree
    else if nodePtrComparator lt other node then other :: insertNode lt node tree
    else other :: tree

/-- The local variables of `create`. `allocated` numbers the objects that `new` returned. -/
structure CreateState (TValue : Type) where
  freLookUpTable : FreqTable
  tree : List (NodePtr TValue)
  nodeCounter : Nat
  allocated : Nat

def CreateState.start : CreateState TValue :=
  { freLookUpTable := fun _ => (0, 0), tree := [], nodeCounter := 0, allocated := 0 }

def CreateState.newNode (s : CreateState TValue) (freq : Nat) : CreateState TValue :=
  let nodeCounter := u32 (s.nodeCounter + 1)
  { s with
    freLookUpTable := s.freLookUpTable.put s.allocated (freq, nodeCounter),
    nodeCounter := nodeCounter,
    allocated := s.allocated + 1 }

def insertSymbols : List (TValue × Nat) → CreateState TValue → CreateState TValue
  | [], s => s
  | (symbol, freq) :: probs, s =>
    let node : NodePtr TValue := { addr := s.allocated, node := .endNode symbol }
    let s := s.newNode freq
    insertSymbols probs { s with tree := insertNode s.freLookUpTable node s.tree }

/-- The loop that takes the children of a new inner node from the set. Frequencies have the type
`TFreq` of so many digits. -/
def takeChildren (digits alphabetSize inAddr : Nat) :
    List (NodePtr TValue) → FreqTable → List (Node TValue) →
      List (Node TValue) × FreqTable × List (NodePtr TValue)
  | [], lt, children => (children, lt, [])
  | node :: tree, lt, children =>
    if children.length < alphabetSize then
      let freq := ((lt inAddr).1 + (lt node.addr).1) % 2 ^ digits
      let lt := lt.put inAddr (freq, (lt inAddr).2)
      takeChildren digits alphabetSize inAddr tree (lt.erase node.addr) (children ++ [node.node])
    else (children, lt, node :: tree)

def mergeNodes (digits alphabetSize : Nat) (s : CreateState TValue) : CreateState TValue :=
  let inAddr := s.allocated
  let s := s.newNode 0
  let (children, lt, tree) := takeChildren digits alphabetSize inAddr s.tree s.freLookUpTable []
  { s with
    freLookUpTable := lt,
    tree := insertNode lt { addr := inAddr, node := .innerNode children } tree }

/-- `while (tree.size() > 1)`, in at most so many rounds. -/
def mergeLoop (digits alphabetSize : Nat) : Nat → CreateState TValue → Option (CreateState TValue)
  | 0, s => if s.tree.length > 1 then none else some s
  | rounds + 1, s =>
    if s.tree.length > 1 then
      mergeLoop digits alphabetSize rounds (mergeNodes digits alphabetSize s)
    else some s

/-- `create`: the root. There is none when the loop does not end, as with an alphabet of one
character, and when `tree.begin()` of the empty set is dereferenced. `m_alphabetSize` is a shift of
a `uint32_t`, and is this power for `alphabetBitLength < 32` only: beyond the shift is undefined. -/
def create (digits alphabetBitLength : Nat) (probs : List (TValue × Nat)) :
    Option (Node TValue) := do
  let s ← mergeLoop digits (2 ^ alphabetBitLength) probs.length (insertSymbols probs .start)
  let root ← s.tree.head?
  return root.node

/-! ## `codePointMap` -/

structure HuffmanCodePoint where
  code : Nat
  codeLength : Nat
  deriving Repr, DecidableEq

section

variable [DecidableEq TValue]

mutual

def codePointMapRecurse (alphabetBitLength : Nat) (dest : List (TValue × HuffmanCodePoint)) :
    Node TValue → Nat → Nat → List (TValue × HuffmanCodePoint)
  | .endNode value, prefixCode, length =>
    OrderedMap.assign value { code := prefixCode, codeLength := length } dest
  | .innerNode children, prefixCode, length =>
    codePointMapChildren alphabetBitLength dest children 0 prefixCode length

def codePointMapChildren (alphabetBitLength : Nat) (dest : List (TValue × HuffmanCodePoint)) :
    List (Node TValue) → Nat → Nat → Nat → List (TValue × HuffmanCodePoint)
  | [], _, _, _ => dest
  | node :: children, i, prefixCode, length =>
    let dest := codePointMapRecurse alphabetBitLength dest node
      (u32 (prefixCode <<< alphabetBitLength) ||| i) ((length + alphabetBitLength) % 2 ^ 8)
    codePointMapChildren alphabetBitLength dest children (i + 1) prefixCode length

end

def codePointMap (alphabetBitLength : Nat) (root : Node TValue) :
    List (TValue × HuffmanCodePoint) :=
  codePointMapRecurse alphabetBitLength [] root 0 0

end

/-! ## `at` -/

/-- `at`. The loop does not advance `begin`: it takes the child of the same character again until
there is none. -/
def Node.at (node : Node TValue) (chars : List Nat) (deflt : TValue) : TValue :=
  match chars with
  | [] =>
    match node with
    | .endNode value => value
    | .innerNode _ => deflt
  | c :: chars =>
    match node with
    | .endNode _ => deflt
    | .innerNode children =>
      if h : c < children.length then children[c].at (c :: chars) deflt else deflt
termination_by sizeOf node
decreasing_by
  have hlt := List.sizeOf_lt_of_mem (List.getElem_mem h)
  simp only [Node.innerNode.sizeOf_spec]
  omega

end Sserialize.HuffmanTree

/-!
## `HuffmanTree::serialize`

The tree is cut into tables at the level boundaries. A table has an entry for every word of its
bits: the value of the code that the word starts with, or the table where the code goes on. The
values are those that the decoder reads, `uint32_t`. The array of the tables is a list of their
bytes.
-/

namespace Sserialize.HuffmanTree

structure TableEntry where
  childValue : UInt32
  childPtr : Int
  codePointLength : Nat
  deriving Repr, DecidableEq

/-- Conversion of a `uint32_t` to `int`. -/
def int32 (n : Nat) : Int := if n < 2 ^ 31 then n else (n : Int) - 2 ^ 32

structure SerializationNode where
  bitLength : Nat
  entries : List TableEntry
  deriving Repr, DecidableEq

namespace SerializationNode

/-- The constructor. The number of entries is `1 << bitLength`, an `int`. -/
def new (bitLength : Nat) : Except Fault SerializationNode :=
  if bitLength < 31 then
    .ok { bitLength := bitLength, entries := List.replicate (2 ^ bitLength) ⟨0, -1, 0⟩ }
  else .error .undefinedBehaviour

def addCodeLoop (entry : TableEntry) : Nat → Nat → List TableEntry → Except Fault (List TableEntry)
  | 0, _, entries => .ok entries
  | count + 1, pos, entries =>
    if pos < entries.length then addCodeLoop entry count (pos + 1) (entries.set pos entry)
    else .error .undefinedBehaviour

/-- `addCode`. The shift is a `uint8_t`. -/
def addCode (node : SerializationNode) (code length : Nat) (value : UInt32) :
    Except Fault SerializationNode := do
  let bitShift := (node.bitLength + 2 ^ 8 - length) % 2 ^ 8
  if 32 ≤ bitShift then throw .undefinedBehaviour
  let first := u32 (code <<< bitShift)
  let last := first ||| createMask bitShift
  let entries ← addCodeLoop ⟨value, -1, length⟩ (last + 1 - first) first node.entries
  return { node with entries := entries }

def addChild (node : SerializationNode) (code : Nat) (childPos : Int) :
    Except Fault SerializationNode :=
  match node.entries[code]? with
  | none => .error .undefinedBehaviour
  | some entry =>
    .ok { node with
      entries := node.entries.set code { entry with childPtr := childPos, codePointLength := 0 } }

def beginChildPtr (entries : List TableEntry) : Int :=
  let ptr := entries.foldl (fun ptr e => if e.childPtr > 0 then min ptr e.childPtr else ptr)
    (2 ^ 31 - 1)
  if ptr = 2 ^ 31 - 1 then -1 else ptr

/-- The pointer of an entry is stored relative to the smallest one, with the length in its low five
bits. -/
def childPtrLen (first : Int) (e : TableEntry) : Nat :=
  if e.childPtr ≥ 0 then
    (((e.childPtr - first) % 2 ^ 32).toNat <<< 5) % 2 ^ 32 ||| e.codePointLength
  else e.codePointLength

def serialize (node : SerializationNode) : Bytes :=
  let first := beginChildPtr node.entries
  byte node.bitLength :: pVu32 (if first > 0 then first.toNat else 0) ++
    node.entries.flatMap fun e => leBytes 4 e.childValue.toNat ++ leBytes 4 (childPtrLen first e)

end SerializationNode

structure RecursionInfo where
  destinationNode : Nat
  level : Nat
  prefixCode : Nat
  length : Nat

def modifyNode (szn : List SerializationNode) (pos : Nat)
    (f : SerializationNode → Except Fault SerializationNode) :
    Except Fault (List SerializationNode) :=
  match szn[pos]? with
  | none => .error .undefinedBehaviour
  | some node => do
    let node ← f node
    return szn.set pos node

def bitsAt (bpl : List Nat) (level : Nat) : Except Fault Nat :=
  match bpl[level]? with
  | none => .error .undefinedBehaviour
  | some bits => .ok bits

mutual

def serializeNode (alphabetBitLength : Nat) (bpl : List Nat) :
    Node UInt32 → RecursionInfo → List SerializationNode →
    Except Fault (List SerializationNode)
  | .endNode value, info, szn =>
    modifyNode szn info.destinationNode fun node => node.addCode info.prefixCode info.length value
  | .innerNode children, info, szn => do
    let bits ← bitsAt bpl info.level
    if info.length = bits then
      let childId := u32 szn.length
      let szn ← modifyNode szn info.destinationNode fun node =>
        node.addChild info.prefixCode (int32 childId)
      let childBits ← bitsAt bpl (info.level + 1)
      let child ← SerializationNode.new childBits
      serializeChildren alphabetBitLength bpl children 0
        ⟨childId, (info.level + 1) % 2 ^ 8, 0, 0⟩ (szn ++ [child])
    else serializeChildren alphabetBitLength bpl children 0 info szn

/-- The loop over the children from number `i` on, with the place that they go on from. -/
def serializeChildren (alphabetBitLength : Nat) (bpl : List Nat) :
    List (Node UInt32) → Nat → RecursionInfo → List SerializationNode →
    Except Fault (List SerializationNode)
  | [], _, _, szn => .ok szn
  | node :: children, i, info, szn => do
    let szn ← serializeNode alphabetBitLength bpl node
      { info with
        prefixCode := u32 (info.prefixCode <<< alphabetBitLength) ||| i,
        length := (info.length + alphabetBitLength) % 2 ^ 8 } szn
    serializeChildren alphabetBitLength bpl children (i + 1) info szn

end

/-- `serialize`: the bytes of the tables, if there are enough bits. The depth is a `uint8_t`. -/
def serialize (alphabetBitLength : Nat) (bitsPerLevel : List Nat) (root : Node UInt32) :
    Except Fault (Option (List Bytes)) := do
  let myDepth := root.depth % 2 ^ 8
  let maxDepth := u32 bitsPerLevel.sum
  if alphabetBitLength * myDepth > maxDepth then return none
  let rootBits ← bitsAt bitsPerLevel 0
  let rootNode ← SerializationNode.new rootBits
  let nodes ← serializeNode alphabetBitLength bitsPerLevel root ⟨0, 0, 0, 0⟩ [rootNode]
  return some (nodes.map SerializationNode.serialize)

end Sserialize.HuffmanTree
