import Sserialize.Containers.HuffmanTreeCreate
import Sserialize.Static.HuffmanTablesCreate

/-!
# `HuffmanDecoder`

The decoder selects the bits for a table from the front of the word and goes on in the next table
while the entry that they name is a pointer. The array of the tables is a list of their bytes. Words
are unsigned integers of so many digits; shorter ones than `int` are promoted for shifts.
-/

namespace Sserialize

structure HuffmanDecoder where
  nodes : List Bytes
  deriving Repr, DecidableEq

namespace HuffmanDecoder

structure HuffmanCodePointInfo where
  value : Nat
  childPtrBitLen : Nat
  deriving Repr, DecidableEq

namespace HuffmanCodePointInfo

def length (cpInfo : HuffmanCodePointInfo) : Nat := cpInfo.childPtrBitLen &&& 0x1F

def childPtrDiff (cpInfo : HuffmanCodePointInfo) : Nat := cpInfo.childPtrBitLen >>> 5

def hasChild (cpInfo : HuffmanCodePointInfo) : Bool := cpInfo.length = 0

end HuffmanCodePointInfo

structure StaticNode where
  data : Bytes
  bitLength : Nat
  initialChildPtr : Nat
  deriving Repr, DecidableEq

namespace StaticNode

def ofData (data : Bytes) : Except Fault StaticNode := do
  let bitLength ← byteAt data 0
  let (initialChildPtr, d) ← UByteArrayAdapter.getVlPackedUint32 ⟨data, 1⟩
  return { data := d.unread, bitLength := bitLength.toNat, initialChildPtr := initialChildPtr }

def «at» (node : StaticNode) (pos : Nat) : Except Fault HuffmanCodePointInfo := do
  let value ← getUint 4 node.data (pos * 8)
  let childPtrBitLen ← getUint 4 node.data (pos * 8 + 4)
  return { value := value, childPtrBitLen := childPtrBitLen }

def valid (node : StaticNode) : Bool := node.data.length ≠ 0

end StaticNode

def nodeAt (d : HuffmanDecoder) (pos : Nat) : Except Fault StaticNode :=
  match d.nodes[pos]? with
  | none => .error .outOfBounds
  | some data => StaticNode.ofData data

def shiftLimit (digits : Nat) : Nat := max digits 32

def selectBits (digits value length : Nat) : Except Fault Nat :=
  if length ≤ digits ∧ digits - length < shiftLimit digits then .ok (value >>> (digits - length))
  else .error .undefinedBehaviour

def shiftOut (digits src length : Nat) : Except Fault Nat :=
  if length < shiftLimit digits then .ok ((src <<< length) % 2 ^ digits)
  else .error .undefinedBehaviour

/-- The loop over the tables behind the root, in at most so many rounds. `-1` is returned when the
word ends. -/
def decodeLoop (d : HuffmanDecoder) (digits : Nat) :
    Nat → StaticNode → Nat → Nat → Option (Except Fault (Option (Nat × Nat)))
  | 0, _, _, _ => none
  | rounds + 1, node, src, decodedBitsCount =>
    if decodedBitsCount < digits then
      let entry : Except Fault (Nat × HuffmanCodePointInfo) := do
        let selectionBits ← selectBits digits src node.bitLength
        let src ← shiftOut digits src node.bitLength
        let cpInfo ← node.at (u32 selectionBits)
        return (src, cpInfo)
      match entry with
      | .error e => some (.error e)
      | .ok (src, cpInfo) =>
        if !cpInfo.hasChild then some (.ok (some (cpInfo.length + decodedBitsCount, cpInfo.value)))
        else
          let decodedBitsCount := (decodedBitsCount + node.bitLength) % 2 ^ 8
          match d.nodeAt (u32 (node.initialChildPtr + cpInfo.childPtrDiff)) with
          | .error e => some (.error e)
          | .ok node =>
            if !node.valid then some (.error .corruptData)
            else decodeLoop d digits rounds node src decodedBitsCount
    else some (.ok none)

def decodeImp (d : HuffmanDecoder) (digits rounds src : Nat) :
    Option (Except Fault (Option (Nat × Nat))) :=
  let entry : Except Fault (StaticNode × Nat × HuffmanCodePointInfo) := do
    let root ← d.nodeAt 0
    let selectionBits ← selectBits digits src root.bitLength
    let src ← shiftOut digits src root.bitLength
    let pos ← narrowCheck32 selectionBits
    let cpInfo ← root.at pos
    return (root, src, cpInfo)
  match entry with
  | .error e => some (.error e)
  | .ok (root, src, cpInfo) =>
    if !cpInfo.hasChild then some (.ok (some (cpInfo.length, cpInfo.value)))
    else
      match d.nodeAt (u32 (root.initialChildPtr + cpInfo.childPtrDiff)) with
      | .error e => some (.error e)
      | .ok node => decodeLoop d digits rounds node src root.bitLength

end HuffmanDecoder

end Sserialize

/-!
## Decoding with the tables of a tree

The bytes of a table are read as its entries, with the pointers relative to the smallest one. A word
that a root path leads is decoded table by table.
-/

namespace Sserialize.HuffmanTree

open HuffmanDecoder

/-! ## The bytes of a table -/

theorem foldl_min_spec (entries : List TableEntry) (ptr : Int) :
    let m := entries.foldl (fun ptr e => if e.childPtr > 0 then min ptr e.childPtr else ptr) ptr
    m ≤ ptr ∧ (∀ e ∈ entries, 0 < e.childPtr → m ≤ e.childPtr) ∧ (0 < ptr → 0 < m) := by
  induction entries generalizing ptr with
  | nil => exact ⟨le_refl _, by simp, fun h => h⟩
  | cons e entries ih =>
    dsimp only at ih ⊢
    rw [List.foldl_cons]
    by_cases hptr : e.childPtr > 0
    · rw [if_pos hptr]
      obtain ⟨hle, hmem, hpos⟩ := ih (min ptr e.childPtr)
      refine ⟨le_trans hle (min_le_left _ _), List.forall_mem_cons.mpr
        ⟨fun _ => le_trans hle (min_le_right _ _), hmem⟩, fun h => hpos (lt_min h hptr)⟩
    · rw [if_neg hptr]
      obtain ⟨hle, hmem, hpos⟩ := ih ptr
      exact ⟨hle, List.forall_mem_cons.mpr ⟨fun h => absurd h hptr, hmem⟩, hpos⟩

variable {node : SerializationNode} {e : TableEntry} {digits count : Nat}

theorem beginChildPtr_spec (hok : TableOk digits count node) (hcount : count < 2 ^ 31)
    (he : e ∈ node.entries) (hptr : 0 < e.childPtr) :
    0 < SerializationNode.beginChildPtr node.entries ∧
      SerializationNode.beginChildPtr node.entries ≤ e.childPtr := by
  obtain ⟨-, hmem, hpos⟩ := foldl_min_spec node.entries (2 ^ 31 - 1)
  have hle := hmem e he hptr
  have hlt : e.childPtr < count := by
    rcases hok.ptrs e he with h | h
    · omega
    · exact h.2
  rw [SerializationNode.beginChildPtr]
  rw [if_neg (by omega)]
  exact ⟨hpos (by decide), hle⟩

theorem beginChildPtr_lt (entries : List TableEntry) :
    SerializationNode.beginChildPtr entries < 2 ^ 31 := by
  obtain ⟨hle, -, -⟩ := foldl_min_spec entries (2 ^ 31 - 1)
  rw [SerializationNode.beginChildPtr]
  split <;> omega

def firstChild (node : SerializationNode) : Nat :=
  if SerializationNode.beginChildPtr node.entries > 0 then
    (SerializationNode.beginChildPtr node.entries).toNat
  else 0

theorem firstChild_lt (node : SerializationNode) : firstChild node < 2 ^ 32 := by
  have hlt := beginChildPtr_lt node.entries
  rw [firstChild]
  split <;> omega

def entryBytes (first : Int) (e : TableEntry) : Bytes :=
  leBytes 4 e.childValue.toNat ++ leBytes 4 (SerializationNode.childPtrLen first e)

theorem length_entryBytes (first : Int) (e : TableEntry) : (entryBytes first e).length = 8 := by
  rw [entryBytes, List.length_append, length_leBytes, length_leBytes]

def staticNode (node : SerializationNode) : StaticNode where
  data := node.entries.flatMap (entryBytes (SerializationNode.beginChildPtr node.entries))
  bitLength := node.bitLength
  initialChildPtr := firstChild node

theorem ofData_serialize (h : node.bitLength ≤ 30) :
    StaticNode.ofData node.serialize = .ok (staticNode node) := by
  have hbits : (byte node.bitLength).toNat = node.bitLength := by
    rw [byte, UInt8.toNat_ofNat']
    omega
  have hdrop : (⟨node.serialize, 1⟩ : UByteArrayAdapter).unread =
      pVu32 (firstChild node) ++ (staticNode node).data := rfl
  rw [StaticNode.ofData, UByteArrayAdapter.getVlPackedUint32_of_drop (firstChild_lt node) hdrop]
  have hunread : (⟨node.serialize, 1 + (pVu32 (firstChild node)).length⟩ :
      UByteArrayAdapter).unread = (staticNode node).data := drop_add_of_drop hdrop
  have hbyte : byteAt node.serialize 0 = .ok (byte node.bitLength) := by
    rw [byteAt, if_pos (by simp [SerializationNode.serialize])]
    rfl
  rw [hbyte]
  simp only [ok_bind, except_pure, hunread, hbits]
  rfl

theorem drop_flatMap {α β : Type} (f : α → List β) {size : Nat} {xs : List α}
    (hsize : ∀ x ∈ xs, (f x).length = size) {i : Nat} {x : α} (hx : xs[i]? = some x) :
    (xs.flatMap f).drop (i * size) = f x ++ (xs.drop (i + 1)).flatMap f := by
  induction xs generalizing i with
  | nil => simp at hx
  | cons y ys ih =>
    obtain ⟨hy, hys⟩ := List.forall_mem_cons.mp hsize
    cases i with
    | zero =>
      obtain rfl := Option.some.inj hx
      simp
    | succ i =>
      rw [List.flatMap_cons, Nat.succ_mul, Nat.add_comm, ← List.drop_drop,
        List.drop_left' hy, ih hys (by simpa using hx)]
      rfl

theorem childPtrLen_lt (hok : TableOk digits count node) (first : Int) (he : e ∈ node.entries) :
    SerializationNode.childPtrLen first e < 2 ^ 32 := by
  have hlength := hok.lengths e he
  rw [SerializationNode.childPtrLen]
  split
  · exact Nat.or_lt_two_pow (Nat.mod_lt _ (by decide)) (by omega)
  · omega

theorem at_staticNode (hok : TableOk digits count node) {s : Nat} (he : node.entries[s]? = some e) :
    (staticNode node).at s = .ok { value := e.childValue.toNat, childPtrBitLen :=
      SerializationNode.childPtrLen (SerializationNode.beginChildPtr node.entries) e } := by
  have hdrop : (staticNode node).data.drop (s * 8) =
      entryBytes (SerializationNode.beginChildPtr node.entries) e ++
        (node.entries.drop (s + 1)).flatMap
          (entryBytes (SerializationNode.beginChildPtr node.entries)) :=
    drop_flatMap _ (fun e _ => length_entryBytes _ e) he
  rw [entryBytes, List.append_assoc] at hdrop
  have hvalue : e.childValue.toNat < 2 ^ (8 * 4) := e.childValue.toNat_lt
  have hnext := drop_add_of_drop hdrop
  rw [length_leBytes] at hnext
  rw [StaticNode.at, getUint_of_drop hvalue (by decide) hdrop, ok_bind,
    getUint_of_drop (childPtrLen_lt hok _ (List.mem_of_getElem? he)) (by decide) hnext]
  rfl

theorem codeEntry_spec (first : Int) (hptr : e.childPtr = -1) (hlength : e.codePointLength < 32)
    (value : Nat) :
    HuffmanCodePointInfo.length ⟨value, SerializationNode.childPtrLen first e⟩ =
      e.codePointLength := by
  rw [HuffmanCodePointInfo.length, SerializationNode.childPtrLen, hptr, if_neg (by decide)]
  exact Nat.and_two_pow_sub_one_of_lt_two_pow (n := 5) hlength

theorem ptrEntry_spec {first : Int} (hfirst : 0 < first) (hle : first ≤ e.childPtr)
    (hlt : e.childPtr - first < 2 ^ 27) (hlength : e.codePointLength = 0) (value : Nat) :
    HuffmanCodePointInfo.length ⟨value, SerializationNode.childPtrLen first e⟩ = 0 ∧
      HuffmanCodePointInfo.childPtrDiff ⟨value, SerializationNode.childPtrLen first e⟩ =
        (e.childPtr - first).toNat := by
  have hmod : ((e.childPtr - first) % 2 ^ 32).toNat = (e.childPtr - first).toNat := by
    rw [Int.emod_eq_of_lt (by omega) (by omega)]
  have hlen : SerializationNode.childPtrLen first e = (e.childPtr - first).toNat * 2 ^ 5 := by
    rw [SerializationNode.childPtrLen, if_pos (by omega), hmod, hlength, Nat.or_zero,
      Nat.shiftLeft_eq, Nat.mod_eq_of_lt (by omega)]
  rw [HuffmanCodePointInfo.length, HuffmanCodePointInfo.childPtrDiff, hlen]
  dsimp only
  constructor
  · rw [show (0x1F : Nat) = 2 ^ 5 - 1 from rfl, Nat.and_two_pow_sub_one_eq_mod, Nat.mul_mod_left]
  · rw [Nat.shiftRight_eq_div_pow, Nat.mul_div_cancel _ (by decide)]

/-! ## One round -/

def decoder (szn : List SerializationNode) : HuffmanDecoder where
  nodes := szn.map SerializationNode.serialize

structure Decodable (digits : Nat) (szn : List SerializationNode) : Prop where
  ok : ∀ node ∈ szn, TableOk digits szn.length node
  count : szn.length ≤ 2 ^ 27

variable {szn : List SerializationNode}

theorem nodeAt_decoder {digits pos : Nat} (hszn : Decodable digits szn)
    (hnode : szn[pos]? = some node) : (decoder szn).nodeAt pos = .ok (staticNode node) := by
  have hok := hszn.ok node (List.mem_of_getElem? hnode)
  rw [nodeAt, decoder, List.getElem?_map, hnode]
  exact ofData_serialize hok.le

theorem valid_staticNode (hok : TableOk digits count node) : (staticNode node).valid = true := by
  have hpos := Nat.two_pow_pos node.bitLength
  have hlen := hok.length
  obtain ⟨e, entries, hentries⟩ := List.exists_cons_of_ne_nil
    (List.ne_nil_of_length_pos (show 0 < node.entries.length by omega))
  have hdata : (staticNode node).data.length ≠ 0 := by
    rw [staticNode, hentries]
    dsimp only
    rw [List.flatMap_cons, List.length_append, length_entryBytes]
    omega
  rw [StaticNode.valid, decide_eq_true hdata]

theorem valid_of_nodeAt {digits pos : Nat} {n : StaticNode} (hszn : Decodable digits szn)
    (h : (decoder szn).nodeAt pos = .ok n) : n.valid = true := by
  by_cases hpos : pos < szn.length
  · rw [nodeAt_decoder hszn (List.getElem?_eq_getElem hpos)] at h
    cases h
    exact valid_staticNode (hszn.ok _ (List.getElem_mem hpos))
  · rw [nodeAt, decoder, List.getElem?_map, List.getElem?_eq_none (Nat.le_of_not_lt hpos)] at h
    cases h

theorem readEntry_spec {digits count x : Nat} (hok : TableOk digits count node)
    (hx : x < 2 ^ digits) :
    selectBits digits x node.bitLength = .ok (x / 2 ^ (digits - node.bitLength)) ∧
      shiftOut digits x node.bitLength = .ok (x * 2 ^ node.bitLength % 2 ^ digits) ∧
      x / 2 ^ (digits - node.bitLength) < 2 ^ node.bitLength := by
  have hpos := hok.pos
  have hbits := hok.le
  refine ⟨?_, ?_, ?_⟩
  · rw [selectBits, shiftLimit, if_pos ⟨hok.fits, by omega⟩, Nat.shiftRight_eq_div_pow]
  · rw [shiftOut, shiftLimit, if_pos (by omega), Nat.shiftLeft_eq]
  · rw [Nat.div_lt_iff_lt_mul (Nat.two_pow_pos _), ← Nat.pow_add,
      Nat.add_sub_cancel' hok.fits]
    exact hx

section Rounds

variable {digits x c rounds : Nat} {szn : List SerializationNode} {node : SerializationNode}
  {e : TableEntry}

theorem decodeLoop_code (hszn : Decodable digits szn) (hnode : node ∈ szn) (hx : x < 2 ^ digits)
    (hc : c < digits) (he : node.entries[x / 2 ^ (digits - node.bitLength)]? = some e)
    (hptr : e.childPtr = -1) (hpos : 0 < e.codePointLength) :
    decodeLoop (decoder szn) digits (rounds + 1) (staticNode node) x c =
      some (.ok (some (e.codePointLength + c, e.childValue.toNat))) := by
  have hok := hszn.ok node hnode
  obtain ⟨hselect, hshift, hlt⟩ := readEntry_spec hok hx
  have hbits := hok.le
  have hpow : 2 ^ node.bitLength ≤ 2 ^ 30 := Nat.pow_le_pow_right (by decide) hbits
  have hlength := codeEntry_spec (SerializationNode.beginChildPtr node.entries) hptr
    (hok.lengths e (List.mem_of_getElem? he)) e.childValue.toNat
  have hend : (⟨e.childValue.toNat, SerializationNode.childPtrLen
      (SerializationNode.beginChildPtr node.entries) e⟩ : HuffmanCodePointInfo).hasChild =
      false := by
    rw [HuffmanCodePointInfo.hasChild, hlength]
    exact decide_eq_false (by omega)
  have hread := at_staticNode hok he
  have hwidth : (staticNode node).bitLength = node.bitLength := rfl
  rw [decodeLoop, if_pos hc, hwidth, hselect, ok_bind, hshift, ok_bind,
    u32_of_lt (show x / 2 ^ (digits - node.bitLength) < 2 ^ 32 by omega), hread, ok_bind]
  simp only [except_pure, hend, hlength, Bool.not_false, if_true]

theorem decodeLoop_ptr {childId : Nat} {child : SerializationNode} (hszn : Decodable digits szn)
    (hnode : node ∈ szn) (hx : x < 2 ^ digits) (hc : c < digits)
    (hsmall : c + node.bitLength < 2 ^ 8)
    (he : node.entries[x / 2 ^ (digits - node.bitLength)]? = some e) (hptr : e.childPtr = childId)
    (hlength : e.codePointLength = 0) (hchild : szn[childId]? = some child) :
    decodeLoop (decoder szn) digits (rounds + 1) (staticNode node) x c =
      decodeLoop (decoder szn) digits rounds (staticNode child)
        (x * 2 ^ node.bitLength % 2 ^ digits) (c + node.bitLength) := by
  have hok := hszn.ok node hnode
  have hcount := hszn.count
  have hmem := List.mem_of_getElem? he
  obtain ⟨hselect, hshift, hlt⟩ := readEntry_spec hok hx
  have hbits := hok.le
  have hpow : 2 ^ node.bitLength ≤ 2 ^ 30 := Nat.pow_le_pow_right (by decide) hbits
  have hvalid : 0 < e.childPtr ∧ e.childPtr < szn.length := by
    rcases hok.ptrs e hmem with h | h
    · omega
    · exact h
  obtain ⟨hfirst, hbegin⟩ := beginChildPtr_spec hok (by omega) hmem hvalid.1
  obtain ⟨hzero, hdiff⟩ := ptrEntry_spec hfirst hbegin (by omega) hlength e.childValue.toNat
  have hgoes : (⟨e.childValue.toNat, SerializationNode.childPtrLen
      (SerializationNode.beginChildPtr node.entries) e⟩ : HuffmanCodePointInfo).hasChild =
      true := by
    rw [HuffmanCodePointInfo.hasChild, hzero]
    exact decide_eq_true rfl
  have hnext : u32 ((staticNode node).initialChildPtr +
      (e.childPtr - SerializationNode.beginChildPtr node.entries).toNat) = childId := by
    rw [staticNode, firstChild, if_pos hfirst]
    dsimp only
    rw [u32_of_lt (by omega)]
    omega
  have hread := at_staticNode hok he
  have hwidth : (staticNode node).bitLength = node.bitLength := rfl
  rw [decodeLoop, if_pos hc, hwidth, hselect, ok_bind, hshift, ok_bind,
    u32_of_lt (show x / 2 ^ (digits - node.bitLength) < 2 ^ 32 by omega), hread, ok_bind]
  simp only [except_pure, hgoes, Bool.not_true, Bool.false_eq_true, if_false, hdiff, hnext,
    nodeAt_decoder hszn hchild, Nat.mod_eq_of_lt hsmall,
    valid_staticNode (hszn.ok child (List.mem_of_getElem? hchild))]

theorem decodeImp_eq (hszn : Decodable digits szn) (hroot : szn[0]? = some node)
    (hx : x < 2 ^ digits) :
    (decoder szn).decodeImp digits rounds x =
      decodeLoop (decoder szn) digits (rounds + 1) (staticNode node) x 0 := by
  have hnode := List.mem_of_getElem? hroot
  have hok := hszn.ok node hnode
  obtain ⟨hselect, hshift, hlt⟩ := readEntry_spec hok hx
  have hpos := hok.pos
  have hbits := hok.le
  have hle := hok.fits
  have hpow : 2 ^ node.bitLength ≤ 2 ^ 30 := Nat.pow_le_pow_right (by decide) hbits
  have hnarrow : narrowCheck32 (x / 2 ^ (digits - node.bitLength)) =
      .ok (x / 2 ^ (digits - node.bitLength)) := narrowCheck32_of_lt (by omega)
  obtain ⟨e, he⟩ : ∃ e, node.entries[x / 2 ^ (digits - node.bitLength)]? = some e :=
    ⟨_, List.getElem?_eq_getElem (by rw [hok.length]; exact hlt)⟩
  have hread := at_staticNode hok he
  have hwidth : (staticNode node).bitLength = node.bitLength := rfl
  rw [decodeImp, decodeLoop, if_pos (show 0 < digits by omega), nodeAt_decoder hszn hroot, ok_bind,
    hwidth, hselect, ok_bind, hshift, ok_bind, hnarrow, ok_bind, hread, ok_bind, ok_bind,
    u32_of_lt (show x / 2 ^ (digits - node.bitLength) < 2 ^ 32 by omega), hread, ok_bind]
  simp only [except_pure, ok_bind, Nat.add_zero, Nat.zero_add,
    Nat.mod_eq_of_lt (show node.bitLength < 2 ^ 8 by omega)]
  split
  · rfl
  · split
    · rfl
    · next hchild =>
      rw [valid_of_nodeAt hszn hchild, Bool.not_true, if_neg Bool.false_ne_true, hwidth]

end Rounds

/-- A word that is led by a path to a leaf below the place of a node, in the table that has the
place, is decoded to the symbol of the leaf. -/
theorem Encodes.decode {abl lo hi dest digits : Nat} {path : List Nat} {t : Node UInt32}
    (h : Encodes abl szn lo hi dest path t) (hszn : Decodable digits szn) (hdigits : digits ≤ 64)
    (hnode : szn[dest]? = some node) {symbol : UInt32} {p : List Nat}
    (hmem : (symbol, p) ∈ t.paths) (hpath : ∀ i ∈ path ++ p, i < 2 ^ abl)
    (hpos : 0 < abl * (path ++ p).length) {x c rounds : Nat} (hx : Leads abl digits x (path ++ p))
    (hc : c + abl * (path ++ p).length ≤ digits) (hrounds : p.length < rounds) :
    decodeLoop (decoder szn) digits rounds (staticNode node) x c =
      some (.ok (some (c + abl * (path ++ p).length, symbol.toNat))) := by
  obtain ⟨rounds, rfl⟩ : ∃ r, rounds = r + 1 := ⟨rounds - 1, by omega⟩
  induction h generalizing node p x c rounds with
  | @endNode dest bits path value hb hle hslots =>
    rw [Node.paths, List.mem_singleton, Prod.mk.injEq] at hmem
    obtain ⟨rfl, rfl⟩ := hmem
    rw [List.append_nil] at hpos hx hc ⊢
    have hmem' := List.mem_of_getElem? hnode
    obtain rfl : node.bitLength = bits := by
      rw [bitsOf, hnode] at hb
      exact Option.some.inj hb
    have hupper := hx.upper ((hszn.ok node hmem').fits) hle
    have he := hslots _ hupper.lt hupper.code
    rw [slot, hnode, Option.bind_some] at he
    rw [decodeLoop_code hszn hmem' hx.lt (by omega) he rfl hpos, Nat.add_comm]
  | @table dest childId path children e hb hslot hptr hlength hlo hhi _ ih =>
    obtain ⟨i, tail, child, hchild, rfl, htail⟩ := mem_pathsChildren.mp hmem
    rw [Nat.zero_add] at hpath hpos hx hc ⊢
    have hmem' := List.mem_of_getElem? hnode
    have hbits : node.bitLength = abl * path.length := by
      rw [bitsOf, hnode] at hb
      exact Option.some.inj hb
    rw [slot, hnode, Option.bind_some] at hslot
    have hrest : ∀ j ∈ i :: tail, j < 2 ^ abl := fun j hj => hpath j (List.mem_append_right _ hj)
    have he : node.entries[x / 2 ^ (digits - node.bitLength)]? = some e := by
      rw [hbits, (hx.front hrest).code]
      exact hslot
    have hok := hszn.ok node hmem'
    have hwidth := hok.pos
    have hlt : childId < szn.length := by
      rcases hok.ptrs e (List.mem_of_getElem? he) with h | h
      · omega
      · omega
    have hnext : szn[childId]? = some szn[childId] := List.getElem?_eq_getElem hlt
    have hsum : abl * (path ++ i :: tail).length =
        node.bitLength + abl * ([i] ++ tail).length := by
      rw [List.length_append, Nat.mul_add, hbits]
      rfl
    have hxrest := hx.rest hrest
    rw [← hbits] at hxrest
    rw [List.length_cons] at hrounds
    obtain ⟨rounds, rfl⟩ : ∃ r, rounds = r + 1 := ⟨rounds - 1, by omega⟩
    have htailPos : 0 < abl * ([i] ++ tail).length := by
      refine Nat.mul_pos (Nat.pos_of_mul_pos_right hpos) ?_
      rw [List.length_append, List.length_singleton]
      omega
    have hchildDecode := ih i child hchild hnext htail hrest htailPos hxrest
      (show c + node.bitLength + abl * ([i] ++ tail).length ≤ digits by omega) rounds (by omega)
    rw [decodeLoop_ptr hszn hmem' hx.lt (by omega) (by omega) he hptr hlength hnext,
      hchildDecode, hsum, Nat.add_assoc]
  | @inner dest bits path children _ _ _ _ ih =>
    obtain ⟨i, tail, child, hchild, rfl, htail⟩ := mem_pathsChildren.mp hmem
    rw [Nat.zero_add] at hpath hpos hx hc ⊢
    rw [List.append_cons] at hpath hpos hx hc ⊢
    have hlen : tail.length < rounds + 1 := by
      rw [List.length_cons] at hrounds
      omega
    exact ih i child hchild hnode htail hpath hpos hx hc rounds hlen

/-! ## All tables of a tree -/

theorem Node.depth_pos (root : Node UInt32) : 1 ≤ root.depth := by
  cases root <;> simp [Node.depth]

theorem serialize_spec {abl digits : Nat} {bpl : List Nat} (hb : BitsOk abl digits bpl)
    {root : Node UInt32} (hwf : root.Wf (2 ^ abl)) (hdeep : abl * root.depth ≤ bpl.sum)
    (hcount : root.innerNodes < 2 ^ 27) :
    ∃ szn node, serialize abl bpl root = .ok (some (szn.map SerializationNode.serialize)) ∧
      Decodable digits szn ∧ szn[0]? = some node ∧ Encodes abl szn 1 szn.length 0 [] root := by
  have halphabet := hb.alphabet
  have hdepth := Nat.mul_le_mul halphabet root.depth_pos
  obtain ⟨bits, rest, rfl⟩ := List.exists_cons_of_ne_nil (show bpl ≠ [] by
    rintro rfl
    rw [List.sum_nil] at hdeep
    omega)
  obtain ⟨hpos, hbits, hfits, -⟩ := hb.counts bits List.mem_cons_self
  set table : SerializationNode := ⟨bits, List.replicate (2 ^ bits) ⟨0, -1, 0⟩⟩
  have hnew : SerializationNode.new bits = .ok table := by
    rw [SerializationNode.new, if_pos (by omega)]
  have hok : TableOk digits 1 table := by
    refine ⟨hpos, hbits, hfits, List.length_replicate, fun e he => ?_, fun e he => ?_⟩
    · rw [List.eq_of_mem_replicate he]
      decide
    · rw [List.eq_of_mem_replicate he]
      exact .inl rfl
  have hplace : Place abl digits (bits :: rest) [table] 0 0 bits [] :=
    ⟨rfl, rfl, by simp, by simpa using hok⟩
  obtain ⟨szn, hserialize, hwritten, hencodes⟩ :=
    serializeNode_spec hb root hwf hplace (Nat.zero_le _)
      (by
        rw [List.length_nil, Nat.zero_add, List.drop_zero]
        omega)
      (by
        rw [List.length_singleton]
        omega)
  have hbound := hwritten.bound
  have hgrows := hwritten.grows
  rw [List.length_singleton] at hbound hgrows
  have hsum : (bits :: rest).sum ≤ (bits :: rest).length * 30 :=
    List.sum_le_card_nsmul _ _ fun b hmem => (hb.counts b hmem).2.1
  have hlevels := hb.levels
  have henough : ¬ abl * (root.depth % 2 ^ 8) > u32 (bits :: rest).sum := by
    have hmod := Nat.mul_le_mul_left abl (Nat.mod_le root.depth (2 ^ 8))
    rw [u32_of_lt (by omega)]
    omega
  refine ⟨szn, szn[0], ?_, ⟨hwritten.ok, by omega⟩, List.getElem?_eq_getElem (by omega), hencodes⟩
  have hstart : (⟨0, 0, 0, 0⟩ : RecursionInfo) =
      ⟨0, 0, pathCode abl [], abl * ([] : List Nat).length⟩ := rfl
  rw [serialize, if_neg henough]
  simp only [bitsAt, List.getElem?_cons_zero, ok_bind, hnew, hstart, hserialize, except_pure]

/-! ## The number of tables -/

theorem innerNodesChildren_eq (children : List (Node UInt32)) :
    innerNodesChildren children = (children.map Node.innerNodes).sum := by
  induction children with
  | nil => rfl
  | cons child children ih => rw [innerNodesChildren, ih, List.map_cons, List.sum_cons]

def queueInnerNodes (queue : List (Entry UInt32)) : Nat :=
  (queue.map fun e => e.2.innerNodes).sum

theorem MergeRun.innerNodes {digits alphabetSize number : Nat} {queue : List (Entry UInt32)}
    {e : Entry UInt32} (halphabet : 2 ≤ alphabetSize)
    (h : MergeRun digits alphabetSize number queue e) :
    e.2.innerNodes + 1 ≤ queueInnerNodes queue + queue.length := by
  induction h with
  | done _ e => simp [queueInnerNodes]
  | step number queue e hmore hnumbers _ _ ih =>
    have hperm := mergedQueue_perm digits alphabetSize hnumbers
    have hlen := hperm.length_eq
    have hinner := (hperm.map fun e => e.2.innerNodes).sum_eq
    have hsplit : queueInnerNodes queue = queueInnerNodes (queue.take alphabetSize) +
        queueInnerNodes (queue.drop alphabetSize) := by
      rw [queueInnerNodes, queueInnerNodes, queueInnerNodes, ← List.sum_append, ← List.map_append,
        List.take_append_drop]
    rw [List.map_cons, List.sum_cons, Node.innerNodes, innerNodesChildren_eq, List.map_map]
      at hinner
    rw [List.length_cons, List.length_drop] at hlen
    have hmerged : queueInnerNodes (mergedQueue digits alphabetSize (number + 1) queue) =
        queueInnerNodes (queue.take alphabetSize) + 1 +
          queueInnerNodes (queue.drop alphabetSize) := hinner
    omega

theorem create_innerNodes {digits abl : Nat} (hbits : 1 ≤ abl) {probs : List (UInt32 × Nat)}
    (hne : probs ≠ []) (hcount : probs.length ≤ 2 ^ 31) {root : Node UInt32}
    (hcreate : create digits abl probs = some root) : root.innerNodes + 1 ≤ probs.length := by
  obtain ⟨root', key, queue, hcreate', hrun, hperm⟩ := create_run digits hbits hne hcount
  obtain rfl : root' = root := Option.some.inj (hcreate'.symm.trans hcreate)
  have hlen := hperm.length_eq
  rw [List.length_map, List.length_map] at hlen
  have hleaves : queueInnerNodes queue = 0 := by
    have hsum := (hperm.map fun e => e.2.innerNodes).sum_eq
    rw [List.map_map, List.map_map] at hsum
    exact hsum.trans (by simp [Function.comp_def, Node.innerNodes])
  have hinner := hrun.innerNodes (Nat.pow_le_pow_right (show 0 < 2 by decide) hbits)
  rw [hleaves, hlen, Nat.zero_add] at hinner
  exact hinner

/-! ## The round trip -/

def DecodesPaths (abl digits : Nat) (tables : List Bytes) (root : Node UInt32) : Prop :=
  ∀ symbol path, (symbol, path) ∈ root.paths → ∀ word, Leads abl digits word path →
    ∀ rounds, digits ≤ rounds → HuffmanDecoder.decodeImp ⟨tables⟩ digits rounds word =
      some (.ok (some (abl * path.length, symbol.toNat)))

/-- Words of up to 64 digits that a root path leads are decoded to the symbol at its end. -/
theorem serialize_decode (freqDigits : Nat) {abl digits : Nat} {bpl : List Nat}
    (hb : BitsOk abl digits bpl) (hdigits : digits ≤ 64) {probs : List (UInt32 × Nat)}
    (hmany : 2 ≤ probs.length) (hcount : probs.length ≤ 2 ^ 27) :
    ∃ root, create freqDigits abl probs = some root ∧
      root.symbols.Perm (probs.map Prod.fst) ∧
      (abl * root.depth ≤ bpl.sum → ∃ tables, serialize abl bpl root = .ok (some tables) ∧
        DecodesPaths abl digits tables root) := by
  have hne : probs ≠ [] := List.ne_nil_of_length_pos (by omega)
  obtain ⟨root, hcreate, hwf, hperm⟩ := create_symbols freqDigits hb.alphabet hne (by omega)
  have hinner := create_innerNodes hb.alphabet hne (by omega) hcreate
  refine ⟨root, hcreate, hperm, fun hdeep => ?_⟩
  obtain ⟨szn, node, hserialize, hszn, hnode, hencodes⟩ :=
    serialize_spec hb hwf hdeep (by omega)
  refine ⟨_, hserialize, fun symbol path hpath word hword rounds hrounds => ?_⟩
  -- a leaf as the root has one symbol only
  have hlen : 1 ≤ path.length := by
    cases root with
    | endNode value =>
      have hone := hperm.length_eq
      rw [List.length_map] at hone
      have hsingle : (Node.endNode value).symbols.length = 1 := rfl
      omega
    | innerNode children =>
      obtain ⟨j, tail, child, -, rfl, -⟩ := mem_pathsChildren.mp hpath
      rw [List.length_cons]
      omega
  have hbits := Nat.mul_le_mul hb.alphabet hlen
  have hfits := Nat.mul_le_mul_right path.length hb.alphabet
  have hle := hword.le
  have hdecode : decodeLoop (decoder szn) digits (rounds + 1) (staticNode node) word 0 =
      some (.ok (some (0 + abl * path.length, symbol.toNat))) :=
    hencodes.decode hszn hdigits hnode hpath (fun i hi => hwf.char_lt _ hpath i hi)
      (show 0 < abl * path.length by omega) hword (show 0 + abl * path.length ≤ digits by omega)
      (by omega)
  rw [← decodeImp_eq hszn hnode hword.lt, Nat.zero_add] at hdecode
  exact hdecode

theorem serialize_decode_three :
    ∃ root tables, create 32 1 [(97, 2), (98, 1), (99, 1)] = some root ∧
      serialize 1 [1, 2] root = .ok (some tables) ∧ DecodesPaths 1 16 tables root := by
  obtain ⟨root, hcreate, -, hdecode⟩ := serialize_decode 32
    (show BitsOk 1 16 [1, 2] from ⟨by decide, by decide, by decide⟩) (by decide)
    (show 2 ≤ [((97 : UInt32), 2), (98, 1), (99, 1)].length by decide) (by decide)
  have hdepth : root.depth = 3 := by
    obtain rfl := Option.some.inj hcreate
    rfl
  obtain ⟨tables, hserialize, hall⟩ := hdecode (by rw [hdepth]; decide)
  exact ⟨root, tables, hcreate, hserialize, hall⟩

/-- A level without bits shifts by too many positions, and a table of 31 bits is too large. -/
theorem not_serialize_decode :
    ∃ root, create 32 1 [((97 : UInt32), 2), (98, 1), (99, 1)] = some root ∧ root.depth = 3 ∧
      serialize 1 [1, 0, 2] root = .error .undefinedBehaviour ∧
      serialize 1 [31] root = .error .undefinedBehaviour :=
  ⟨_, rfl, rfl, rfl, rfl⟩

end Sserialize.HuffmanTree
