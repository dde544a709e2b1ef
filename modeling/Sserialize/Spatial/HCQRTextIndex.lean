import Sserialize.Algorithm.UtilMath
import Sserialize.Iterator.MultiBit
import Sserialize.Library.OrderedMap
import Sserialize.Spatial.HCQRSpatialGrid

/-!
# Compact nodes of `HCQRTextIndex`

The leaves of a tree as bit codes behind each other: the kind, the number of bits of the pixel id,
the pixel id, and both again for the index of a partial match. The number of bits is the position
of the highest set bit, so that this bit itself is not written.
-/

namespace Sserialize

open HCQRSpatialGrid

/-- `fastLog2`: the position of the highest set bit. Its argument is a `uint32_t`. -/
def fastLog2 (x : Nat) : Nat := msb (u32 x)

structure CompactNode where
  fm : Bool
  pid : Nat
  itemIndexId : Nat
  deriving Repr, DecidableEq

namespace CompactNode

def new : CompactNode := { fm := false, pid := 2 ^ 64 - 1, itemIndexId := npos }

def create (src : TreeNode) (dest : MultiBitBackInserter) : MultiBitBackInserter :=
  let dest := if src.isFullMatch then dest.pushBack 1 1 else dest.pushBack 0 1
  let pixelIdBits := fastLog2 src.pixelId
  let dest := dest.pushBack pixelIdBits 6
  let dest := dest.pushBack src.pixelId pixelIdBits
  if src.isFullMatch then dest
  else
    let idxIdBits := fastLog2 src.itemIndexId
    (dest.pushBack idxIdBits 5).pushBack src.itemIndexId idxIdBits

/-- `get<T>(len)` for a type of so many digits. Without bits its shift is by all digits of the
type. -/
def getBits (digits : Nat) (it : MultiBitIterator) (len : Nat) : Except Fault Nat :=
  if len = 0 then do
    let _ ← it.getN digits
    .error .undefinedBehaviour
  else it.get digits len

def extract (it : MultiBitIterator) (dest : CompactNode) :
    Except Fault (MultiBitIterator × CompactNode) := do
  let fm ← getBits 16 it 1
  let it := it.add 1
  let pixelIdBits ← getBits 16 it 6
  let it := it.add 6
  let pid ← getBits 64 it pixelIdBits
  let it := it.add pixelIdBits
  if fm ≠ 0 then return (it, { dest with fm := true, pid := pid })
  else
    let itemIndexIdBits ← getBits 16 it 5
    -- the iterator is not moved behind these 5 bits
    let itemIndexId ← getBits 32 it itemIndexIdBits
    return (it.add itemIndexIdBits, { fm := false, pid := pid, itemIndexId := itemIndexId })

def getSizeInBits (n : CompactNode) : Nat :=
  let numBits := 1 + 6 + fastLog2 n.pid
  if n.fm then numBits else numBits + (5 + fastLog2 n.itemIndexId)

end CompactNode

namespace CompactTree

abbrev Nodes := List (Nat × TreeNode)

/-- The loop over the leaves. The nodes that it makes are not put into `nodes`. -/
def readNodes : Nat → MultiBitIterator → CompactNode → Nodes → Except Fault Nodes
  | 0, _, _, nodes => .ok nodes
  | i + 1, it, n, nodes => do
    let (it, n) ← n.extract it
    let _ : TreeNode :=
      .node n.pid (if n.fm then IS_FULL_MATCH else IS_PARTIAL_MATCH) n.itemIndexId []
    readNodes i it n nodes

def moveToParent (sg : SpatialGrid) (tmp : Nodes) (x : Nat × TreeNode) :
    Except Fault Nodes := do
  let pid ← sg.parent x.1
  let parent := (OrderedMap.lookup pid tmp).getD (.node pid IS_INTERNAL npos [])
  return OrderedMap.assign pid (parent.pushChild x.2) tmp

variable (sg : SpatialGrid) (order : Nodes → Nodes)

def buildLevels : Nat → Nodes → Except Fault (Option Nodes)
  | 0, _ => .ok none
  | fuel + 1, nodes =>
    if nodes.length > 1 then do
      let tmp ← (order nodes).foldlM (moveToParent sg) []
      buildLevels fuel (tmp.map fun x => (x.1, x.2.sortChildren))
    else .ok (some nodes)

/-- `CompactTree::tree`. The maps are iterated in any order. -/
def tree (fuel : Nat) (m_d : UByteArrayAdapter) : Except Fault (Option TreeNode) := do
  let (nc, d) ← m_d.getVlPackedUint32
  let nodes ← readNodes nc (.new d.unread) .new []
  let levels ← buildLevels sg order fuel nodes
  match levels with
  | none => .ok none
  | some nodes =>
    match OrderedMap.lookup sg.rootPixelId nodes with
    | none => .error .outOfRange
    | some t => .ok (some t)

end CompactTree

/-! ## Leaves -/

namespace CompactNode

open BitString MultiBitBackInserter

/-- What the code says about a leaf that stands between others: the node that is read at its place
is this leaf, and the iterator moves by its size. -/
def RoundTrips (before : List TreeNode) (leaf : TreeNode) (after : List TreeNode) : Prop :=
  let start := before.foldl (fun dest src => create src dest) (.new [])
  let data := (after.foldl (fun dest src => create src dest) (create leaf start)).flush.data
  let it : MultiBitIterator := ⟨data, start.data.length, start.curInByteOffset⟩
  ∃ it' n, extract it .new = .ok (it', n) ∧ n.pid = leaf.pixelId ∧ n.fm = leaf.isFullMatch ∧
    (leaf.isFullMatch = false → n.itemIndexId = leaf.itemIndexId) ∧
    it'.position = it.position + n.getSizeInBits

theorem fastLog2_lt (x : Nat) : fastLog2 x < 32 := by
  rw [fastLog2]
  by_cases hzero : u32 x = 0
  · rw [hzero, msb_zero]
    exact Nat.zero_lt_succ 31
  · rw [msb_eq_log2 hzero (u32_lt x)]
    exact (Nat.log2_lt hzero).mpr (u32_lt x)

theorem two_pow_fastLog2_le {x : Nat} (h : fastLog2 x ≠ 0) : 2 ^ fastLog2 x ≤ x := by
  rw [fastLog2] at h ⊢
  have hzero : u32 x ≠ 0 := by
    intro hzero
    rw [hzero, msb_zero] at h
    exact h rfl
  rw [msb_eq_log2 hzero (u32_lt x)]
  calc 2 ^ Nat.log2 (u32 x) ≤ u32 x := Nat.log2_self_le hzero
    _ ≤ x := Nat.mod_le x (2 ^ 32)

variable {m : MultiBitBackInserter} {stream : List Bool}

theorem inserted_create (src : TreeNode) (h : m.Inserted stream) :
    ∃ kind rest, kind.length = 1 ∧ (create src m).Inserted
      (stream ++ (kind ++ (lowBits 6 (fastLog2 src.pixelId) ++
        (lowBits (fastLog2 src.pixelId) src.pixelId ++ rest)))) := by
  have hbits := fastLog2_lt src.pixelId
  have hidx := fastLog2_lt src.itemIndexId
  cases hfull : src.isFullMatch with
  | true =>
    have hkind := inserted_pushBack 1 h (by decide : 1 ≤ 64)
    have hlog := inserted_pushBack (fastLog2 src.pixelId) hkind (by decide : 6 ≤ 64)
    have hpid := inserted_pushBack src.pixelId hlog (by omega : fastLog2 src.pixelId ≤ 64)
    refine ⟨lowBits 1 1, [], length_lowBits 1 1, ?_⟩
    simp only [create, hfull, if_true]
    simpa only [List.append_assoc, List.append_nil] using hpid
  | false =>
    have hkind := inserted_pushBack 0 h (by decide : 1 ≤ 64)
    have hlog := inserted_pushBack (fastLog2 src.pixelId) hkind (by decide : 6 ≤ 64)
    have hpid := inserted_pushBack src.pixelId hlog (by omega : fastLog2 src.pixelId ≤ 64)
    have hilog := inserted_pushBack (fastLog2 src.itemIndexId) hpid (by decide : 5 ≤ 64)
    have hiid := inserted_pushBack src.itemIndexId hilog
      (by omega : fastLog2 src.itemIndexId ≤ 64)
    refine ⟨lowBits 1 0, lowBits 5 (fastLog2 src.itemIndexId) ++
      lowBits (fastLog2 src.itemIndexId) src.itemIndexId, length_lowBits 1 0, ?_⟩
    simp only [create, hfull, Bool.false_eq_true, if_false]
    simpa only [List.append_assoc] using hiid

theorem inserted_foldl_create (srcs : List TreeNode) (h : m.Inserted stream) :
    ∃ rest, (srcs.foldl (fun dest src => create src dest) m).Inserted (stream ++ rest) := by
  induction srcs generalizing m stream with
  | nil => exact ⟨[], by rwa [List.append_nil]⟩
  | cons src srcs ih =>
    obtain ⟨kind, rest, -, hcreate⟩ := inserted_create src h
    obtain ⟨rest', hrest⟩ := ih hcreate
    rw [List.append_assoc] at hrest
    exact ⟨_, hrest⟩

theorem length_of_inserted (h : m.Inserted stream) :
    stream.length = 8 * m.data.length + m.curInByteOffset := by
  obtain ⟨d, waiting, -, hlength, -, -, rfl⟩ := h
  rw [List.length_append, length_bits, hlength]

variable {front field tail : List Bool}

theorem getBits_spec {it : MultiBitIterator} {n len v : Nat} (hoff : it.bitOffset < 8)
    (hn : 2 ≤ n) (hlen : len ≤ 8 * n) (hbits : bits it.data = front ++ (field ++ tail))
    (hfront : front.length = it.position) (hfield : field.length = len)
    (h : getBits (8 * n) it len = .ok v) : len ≠ 0 ∧ v < 2 ^ len ∧ lowBits len v = field := by
  rw [getBits] at h
  by_cases hzero : len = 0
  · rw [if_pos hzero] at h
    obtain ⟨w, -, hw⟩ := bind_eq_ok h
    exact absurd hw (by simp)
  · rw [if_neg hzero] at h
    have hlength := congrArg List.length hbits
    rw [length_bits, List.length_append, List.length_append, hfront, hfield] at hlength
    have hpos : it.getPtr < it.data.length := by
      rw [MultiBitIterator.position] at hlength
      omega
    obtain ⟨w, hw, hlt, hread⟩ := it.get_spec hoff hn hlen hpos (by omega)
    have heq : w = v := by
      rw [hw] at h
      exact Except.ok.inj h
    rw [← heq]
    refine ⟨hzero, hlt, ?_⟩
    rw [hread, hbits, ← hfront, List.drop_left, ← hfield, List.take_left]

theorem add_spec {it : MultiBitIterator} (hoff : it.bitOffset < 8)
    (hbits : bits it.data = front ++ (field ++ tail)) (hfront : front.length = it.position)
    (hfield : field.length < 64) :
    (it.add field.length).data = it.data ∧ (it.add field.length).bitOffset < 8 ∧
      (front ++ field).length = (it.add field.length).position := by
  have hlength := congrArg List.length hbits
  rw [length_bits, List.length_append, List.length_append, hfront] at hlength
  obtain ⟨hdata, hoff', hposition⟩ := it.add_spec field.length hoff (by omega) (by omega)
  exact ⟨hdata, hoff', by rw [hposition, List.length_append, hfront]⟩

theorem extract_pid_lt {it it' : MultiBitIterator} {dest n : CompactNode}
    {front kind tail : List Bool} {numBits pid : Nat} (hoff : it.bitOffset < 8)
    (hbits : bits it.data = front ++ (kind ++ (lowBits 6 numBits ++ (lowBits numBits pid ++ tail))))
    (hfront : front.length = it.position) (hkind : kind.length = 1) (hnum : numBits < 32)
    (h : extract it dest = .ok (it', n)) : numBits ≠ 0 ∧ n.pid < 2 ^ numBits := by
  rw [extract] at h
  obtain ⟨fm, -, h⟩ := bind_eq_ok h
  obtain ⟨pixelIdBits, hpixelIdBits, h⟩ := bind_eq_ok h
  obtain ⟨pid', hpid', h⟩ := bind_eq_ok h
  obtain ⟨hdata, hoff, hposition⟩ := add_spec hoff hbits hfront (by omega)
  rw [hkind] at hdata hoff hposition
  rw [← hdata, ← List.append_assoc front] at hbits
  have hsix : pixelIdBits = numBits := by
    have hwidth : numBits < 2 ^ 6 := Nat.lt_trans hnum (by decide)
    obtain ⟨-, hlt, hlow⟩ := getBits_spec (n := 2) hoff (by decide) (by decide) hbits hposition
      (length_lowBits 6 numBits) hpixelIdBits
    exact lowBits_injective hlt hwidth hlow
  obtain ⟨hdata', hoff', hposition'⟩ := add_spec hoff hbits hposition (by simp)
  rw [length_lowBits] at hdata' hoff' hposition'
  rw [← hdata', ← List.append_assoc (front ++ kind)] at hbits
  rw [hsix] at hpid'
  obtain ⟨hzero, hlt, -⟩ := getBits_spec (n := 8) hoff' (by decide) (by omega) hbits hposition'
    (length_lowBits numBits pid) hpid'
  refine ⟨hzero, ?_⟩
  by_cases hfm : fm ≠ 0
  · rw [if_pos hfm] at h
    have hn : _ = n := congrArg Prod.snd (Except.ok.inj h)
    exact hn ▸ hlt
  · rw [if_neg hfm] at h
    obtain ⟨itemIndexIdBits, -, h⟩ := bind_eq_ok h
    obtain ⟨itemIndexId, -, h⟩ := bind_eq_ok h
    have hn : _ = n := congrArg Prod.snd (Except.ok.inj h)
    exact hn ▸ hlt

theorem not_roundTrips (before : List TreeNode) (leaf : TreeNode) (after : List TreeNode) :
    ¬ RoundTrips before leaf after := by
  rintro ⟨it', n, hextract, hpid, -⟩
  obtain ⟨stream, hstart⟩ := inserted_foldl_create before (inserted_new [])
  obtain ⟨kind, rest, hkind, hleaf⟩ := inserted_create leaf hstart
  obtain ⟨rest', hafter⟩ := inserted_foldl_create after hleaf
  obtain ⟨pad, -, hdata⟩ := bits_flush hafter
  simp only [List.append_assoc] at hdata
  rw [← List.append_assoc (bits [])] at hdata
  have hoff : (before.foldl (fun dest src => create src dest) (.new [])).curInByteOffset < 8 := by
    obtain ⟨d, waiting, -, -, hlt, -⟩ := hstart
    exact hlt
  obtain ⟨hzero, hlt⟩ := extract_pid_lt hoff hdata (length_of_inserted hstart) hkind
    (fastLog2_lt leaf.pixelId) hextract
  have hle := two_pow_fastLog2_le hzero
  omega

end CompactNode

/-! ## Trees -/

namespace CompactTree

theorem readNodes_eq {i : Nat} {it : MultiBitIterator} {n : CompactNode} {nodes nodes' : Nodes}
    (h : readNodes i it n nodes = .ok nodes') : nodes' = nodes := by
  induction i generalizing it n with
  | zero => exact (Except.ok.inj h).symm
  | succ i ih =>
    obtain ⟨r, -, h⟩ := bind_eq_ok h
    exact ih h

theorem tree_ne (sg : SpatialGrid) (order : Nodes → Nodes) (fuel : Nat) (m_d : UByteArrayAdapter)
    (t : TreeNode) : tree sg order fuel m_d ≠ .ok (some t) := by
  intro h
  obtain ⟨⟨nc, d⟩, -, h⟩ := bind_eq_ok h
  obtain ⟨nodes, hnodes, h⟩ := bind_eq_ok h
  have hempty := readNodes_eq hnodes
  subst hempty
  cases fuel with
  | zero => simp [buildLevels] at h
  | succ fuel => simp [buildLevels, OrderedMap.lookup] at h

end CompactTree

/-- No leaf is read as it was written, and no tree is returned for any data. -/
theorem compactTree_never (before : List TreeNode) (leaf : TreeNode) (after : List TreeNode)
    (sg : SpatialGrid) (order : CompactTree.Nodes → CompactTree.Nodes) (fuel : Nat)
    (m_d : UByteArrayAdapter) :
    ¬ CompactNode.RoundTrips before leaf after ∧
      ∀ t, CompactTree.tree sg order fuel m_d ≠ .ok (some t) :=
  ⟨CompactNode.not_roundTrips before leaf after, CompactTree.tree_ne sg order fuel m_d⟩

/-- The full match of pixel 2 is read as the one of pixel 0. -/
theorem not_roundTrips_two : ¬ CompactNode.RoundTrips [] (.node 2 IS_FULL_MATCH npos []) [] :=
  CompactNode.not_roundTrips [] _ []

end Sserialize
