import Sserialize.Static.HuffmanTables

namespace Sserialize.HuffmanTree

variable {abl digits : Nat} {bpl : List Nat}

variable {path : List Nat} {szn : List SerializationNode}

theorem Encodes.mono {lo hi lo' hi' dest : Nat} {node : Node UInt32}
    (h : Encodes abl szn lo hi dest path node) (hlo : lo' ≤ lo) (hhi : hi ≤ hi') :
    Encodes abl szn lo' hi' dest path node :=
  h.transfer hlo hhi (fun _ _ _ => rfl) rfl fun _ _ _ _ => rfl

variable {touched touched' : Nat → Prop}

theorem Written.trans {szn szn' szn'' : List SerializationNode} {dest bits inner inner' : Nat}
    (h : Written digits szn szn' dest bits inner touched)
    (h' : Written digits szn' szn'' dest bits inner' touched') :
    Written digits szn szn'' dest bits (inner + inner') fun s => touched s ∨ touched' s where
  grows := Nat.le_trans h.grows h'.grows
  bound := by
    have hfirst := h.bound
    have hsecond := h'.bound
    omega
  others j hj hne := (h'.others j (Nat.lt_of_lt_of_le hj h.grows) hne).trans (h.others j hj hne)
  bits := h'.bits
  slots s hs := (h'.slots s fun ht => hs (.inr ht)).trans (h.slots s fun ht => hs (.inl ht))
  ok := h'.ok

theorem Written.mono {szn szn' : List SerializationNode} {dest bits inner : Nat}
    (h : Written digits szn szn' dest bits inner touched) (hsub : ∀ s, touched s → touched' s) :
    Written digits szn szn' dest bits inner touched' :=
  { h with slots := fun s hs => h.slots s fun ht => hs (hsub s ht) }

structure Place (abl digits : Nat) (bpl : List Nat) (szn : List SerializationNode)
    (dest level bits : Nat) (path : List Nat) : Prop where
  table : bitsOf szn dest = some bits
  level : bpl[level]? = some bits
  path : ∀ i ∈ path, i < 2 ^ abl
  ok : ∀ node ∈ szn, TableOk digits szn.length node

theorem Place.dest_lt {dest level bits : Nat} (h : Place abl digits bpl szn dest level bits path) :
    dest < szn.length := by
  by_contra hge
  have htable := h.table
  rw [bitsOf, List.getElem?_eq_none (by omega)] at htable
  cases htable

theorem childInfo_eq (hb : BitsOk abl digits bpl) {dest level bits i : Nat}
    (hlevel : bpl[level]? = some bits) (hpath : ∀ i ∈ path, i < 2 ^ abl) (hi : i < 2 ^ abl)
    (hle : abl * path.length + abl ≤ bits) :
    (⟨dest, level, u32 (pathCode abl path <<< abl) ||| i, (abl * path.length + abl) % 2 ^ 8⟩ :
      RecursionInfo) =
      ⟨dest, level, pathCode abl (path ++ [i]), abl * (path ++ [i]).length⟩ := by
  obtain ⟨-, hbits, -, -⟩ := hb.ofLevel hlevel
  have hcode := pathCode_lt hpath
  have hlt : pathCode abl path * 2 ^ abl < 2 ^ 30 := by
    calc pathCode abl path * 2 ^ abl < 2 ^ (abl * path.length) * 2 ^ abl :=
          Nat.mul_lt_mul_of_pos_right hcode (Nat.two_pow_pos _)
      _ = 2 ^ (abl * path.length + abl) := (Nat.pow_add _ _ _).symm
      _ ≤ 2 ^ 30 := Nat.pow_le_pow_right (by decide) (by omega)
  have hshift : u32 (pathCode abl path <<< abl) = pathCode abl path <<< abl := by
    rw [Nat.shiftLeft_eq]
    exact u32_of_lt (by omega)
  rw [hshift, ← Nat.shiftLeft_add_eq_or_of_lt hi, Nat.shiftLeft_eq, pathCode_append_singleton,
    Nat.mod_eq_of_lt (by omega), List.length_append, List.length_singleton, Nat.mul_add,
    Nat.mul_one]

theorem sum_drop {level bits : Nat} (h : bpl[level]? = some bits) :
    (bpl.drop level).sum = bits + (bpl.drop (level + 1)).sum := by
  obtain ⟨hlt, rfl⟩ := List.getElem?_eq_some_iff.mp h
  rw [List.drop_eq_getElem_cons hlt, List.sum_cons]

theorem serializeEndNode_spec (value : UInt32) {dest level bits : Nat}
    (hplace : Place abl digits bpl szn dest level bits path) (hle : abl * path.length ≤ bits) :
    ∃ szn', serializeNode abl bpl (.endNode value)
        ⟨dest, level, pathCode abl path, abl * path.length⟩ szn = .ok szn' ∧
      Written digits szn szn' dest bits 0 (InRange abl bits path) ∧
      Encodes abl szn' szn.length szn'.length dest path (.endNode value) := by
  obtain ⟨node, hnode, rfl⟩ : ∃ node, szn[dest]? = some node ∧ node.bitLength = bits :=
    Option.map_eq_some_iff.mp hplace.table
  obtain ⟨node', hadd, hbits', hok', hin, hout⟩ :=
    addCode_spec value (hplace.ok node (List.mem_of_getElem? hnode)) hplace.path hle
  have hwritten := written_set hnode hplace.ok hok' hbits' hout
  have hlt := hplace.dest_lt
  refine ⟨szn.set dest node', ?_, hwritten, .endNode hwritten.bits hle fun s hs hrange => ?_⟩
  · rw [serializeNode]
    exact modifyNode_eq hnode hadd
  · rw [slot, List.getElem?_set_self hlt]
    exact hin s hs hrange

theorem addTable_spec {dest level bits childBits : Nat}
    (hplace : Place abl digits bpl szn dest level bits path) (hlen : abl * path.length = bits)
    (hchild : 1 ≤ childBits ∧ childBits ≤ 30 ∧ childBits ≤ digits) (hsmall : szn.length < 2 ^ 31) :
    ∃ szn₁ child e, modifyNode szn dest (fun node =>
        node.addChild (pathCode abl path) (int32 (u32 szn.length))) = .ok szn₁ ∧
      SerializationNode.new childBits = .ok child ∧
      bitsOf (szn₁ ++ [child]) szn.length = some childBits ∧
      (szn₁ ++ [child]).length = szn.length + 1 ∧
      (∀ j, j < szn.length → j ≠ dest → (szn₁ ++ [child])[j]? = szn[j]?) ∧
      bitsOf (szn₁ ++ [child]) dest = some bits ∧
      slot (szn₁ ++ [child]) dest (pathCode abl path) = some e ∧
      e.childPtr = szn.length ∧ e.codePointLength = 0 ∧
      (∀ s, ¬ InRange abl bits path s → slot (szn₁ ++ [child]) dest s = slot szn dest s) ∧
      ∀ node ∈ szn₁ ++ [child], TableOk digits (szn.length + 1) node := by
  obtain ⟨node, hnode, hbits⟩ : ∃ node, szn[dest]? = some node ∧ node.bitLength = bits :=
    Option.map_eq_some_iff.mp hplace.table
  have hok := hplace.ok node (List.mem_of_getElem? hnode)
  have hdest := hplace.dest_lt
  have hcode := pathCode_lt hplace.path
  have hlt : pathCode abl path < node.entries.length := by
    rw [hok.length, hbits, ← hlen]
    exact hcode
  have hptr : int32 (u32 szn.length) = szn.length := by
    rw [u32_of_lt (by omega), int32, if_pos hsmall]
  set e : TableEntry := { node.entries[pathCode abl path] with
    childPtr := szn.length, codePointLength := 0 }
  set node' : SerializationNode := { node with
    entries := node.entries.set (pathCode abl path) e } with hnode'
  set child : SerializationNode := ⟨childBits, List.replicate (2 ^ childBits) ⟨0, -1, 0⟩⟩
    with hchild'
  have hdest' : (szn.set dest node' ++ [child])[dest]? = some node' := by
    rw [List.getElem?_append_left (by rw [List.length_set]; exact hdest),
      List.getElem?_set_self hdest]
  refine ⟨szn.set dest node', child, e, ?_, ?_, ?_, ?_, fun j hj hne => ?_, ?_, ?_, rfl, rfl,
    fun s hs => ?_, fun n hn => ?_⟩
  · refine modifyNode_eq hnode ?_
    rw [SerializationNode.addChild, List.getElem?_eq_getElem hlt, hptr]
  · rw [SerializationNode.new, if_pos (by omega)]
  · rw [bitsOf, List.getElem?_append_right (by rw [List.length_set])]
    simp [hchild']
  · rw [List.length_append, List.length_set, List.length_singleton]
  · rw [List.getElem?_append_left (by rw [List.length_set]; exact hj),
      List.getElem?_set_ne (Ne.symm hne)]
  · rw [bitsOf, hdest', Option.map_some, hnode', ← hbits]
  · rw [slot, hdest', Option.bind_some, hnode', List.getElem?_set_self hlt]
  · have hne : s ≠ pathCode abl path := by
      rintro rfl
      apply hs
      rw [InRange, hlen, Nat.sub_self, Nat.pow_zero, Nat.div_one]
    rw [slot, hdest', slot, hnode, Option.bind_some, Option.bind_some, hnode',
      List.getElem?_set_ne (Ne.symm hne)]
  · rcases List.mem_append.mp hn with hn | hn
    · rcases List.mem_or_eq_of_mem_set hn with hn | rfl
      · exact (hplace.ok n hn).mono (Nat.le_succ _)
      · refine ⟨hok.pos, hok.le, hok.fits, List.length_set.trans hok.length, fun f hf => ?_,
          fun f hf => ?_⟩
        · rcases List.mem_or_eq_of_mem_set hf with hf | rfl
          · exact hok.lengths f hf
          · show 0 < 32
            decide
        · rcases List.mem_or_eq_of_mem_set hf with hf | rfl
          · exact (hok.mono (Nat.le_succ _)).ptrs f hf
          · refine .inr ⟨?_, ?_⟩
            · show (0 : Int) < szn.length
              omega
            · show (szn.length : Int) < (szn.length + 1 : Nat)
              omega
    · obtain rfl := List.mem_singleton.mp hn
      refine ⟨hchild.1, hchild.2.1, hchild.2.2, by rw [hchild', List.length_replicate],
        fun f hf => ?_, fun f hf => ?_⟩
      · rw [List.eq_of_mem_replicate hf]
        decide
      · rw [List.eq_of_mem_replicate hf]
        exact .inl rfl

theorem Place.written {szn szn' : List SerializationNode} {dest level bits inner : Nat}
    {path path' : List Nat} {touched : Nat → Prop}
    (h : Place abl digits bpl szn dest level bits path) (hpath : ∀ i ∈ path', i < 2 ^ abl)
    (hwritten : Written digits szn szn' dest bits inner touched) :
    Place abl digits bpl szn' dest level bits path' where
  table := hwritten.bits
  level := h.level
  path := hpath
  ok := hwritten.ok

def NodeWritten (abl digits : Nat) (szn szn' : List SerializationNode) (dest bits : Nat)
    (path : List Nat) (node : Node UInt32) : Prop :=
  Written digits szn szn' dest bits node.innerNodes (InRange abl bits path) ∧
    Encodes abl szn' szn.length szn'.length dest path node

/-- What the loop does for the codes of the children from number `i` on. -/
def ChildrenWritten (abl digits : Nat) (szn szn' : List SerializationNode) (dest bits i : Nat)
    (path : List Nat) (children : List (Node UInt32)) : Prop :=
  Written digits szn szn' dest bits (innerNodesChildren children)
      (fun s => ∃ k, k < children.length ∧ InRange abl bits (path ++ [i + k]) s) ∧
    ∀ k child, children[k]? = some child →
      Encodes abl szn' szn.length szn'.length dest (path ++ [i + k]) child

theorem inRange_inj {bits i j s : Nat} (hi : InRange abl bits (path ++ [i]) s)
    (hj : InRange abl bits (path ++ [j]) s) : i = j := by
  rw [InRange, pathCode_append_singleton] at hi hj
  rw [List.length_append, List.length_singleton] at hi hj
  omega

variable {children : List (Node UInt32)}

theorem childrenWritten_cons {szn szn' szn'' : List SerializationNode} {dest bits i : Nat}
    {node : Node UInt32} (hdest : dest < szn.length)
    (hnode : NodeWritten abl digits szn szn' dest bits (path ++ [i]) node)
    (hrest : ChildrenWritten abl digits szn' szn'' dest bits (i + 1) path children) :
    ChildrenWritten abl digits szn szn'' dest bits i path (node :: children) := by
  obtain ⟨hwritten, hencodes⟩ := hnode
  obtain ⟨hwritten', hencodes'⟩ := hrest
  refine ⟨(hwritten.trans hwritten').mono ?_, fun k child hchild => ?_⟩
  · rintro s (hs | ⟨k, hk, hs⟩)
    · exact ⟨0, Nat.succ_pos _, hs⟩
    · refine ⟨k + 1, Nat.succ_lt_succ hk, ?_⟩
      rwa [show i + (k + 1) = i + 1 + k by omega]
  · cases k with
    | zero =>
      obtain rfl := Option.some.inj hchild
      refine hencodes.transfer (Nat.le_refl _) hwritten'.grows (fun j hlo hhi => ?_)
        (hwritten'.bits.trans hwritten.bits.symm) fun bits' hbits' s hin => ?_
      · exact hwritten'.others j hhi (by omega)
      · obtain rfl : bits = bits' := Option.some.inj (hwritten.bits.symm.trans hbits')
        refine hwritten'.slots s ?_
        rintro ⟨k, -, hk⟩
        have heq := inRange_inj hin hk
        omega
    | succ k =>
      rw [show i + (k + 1) = i + 1 + k by omega]
      exact (hencodes' k child hchild).mono hwritten.grows (Nat.le_refl _)

theorem nodeWritten_table {szn szn₂ szn' : List SerializationNode} {dest bits childBits : Nat}
    {e : TableEntry} (hdest : dest < szn.length) (hlength : szn₂.length = szn.length + 1)
    (hlen : abl * path.length = bits)
    (hothers : ∀ j, j < szn.length → j ≠ dest → szn₂[j]? = szn[j]?)
    (hbits : bitsOf szn₂ dest = some bits) (hslot : slot szn₂ dest (pathCode abl path) = some e)
    (hptr : e.childPtr = szn.length) (hcode : e.codePointLength = 0)
    (hslots : ∀ s, ¬ InRange abl bits path s → slot szn₂ dest s = slot szn dest s)
    (hchildren : ChildrenWritten abl digits szn₂ szn' szn.length childBits 0 [] children) :
    NodeWritten abl digits szn szn' dest bits path (.innerNode children) := by
  obtain ⟨hwritten, hencodes⟩ := hchildren
  have hgrows := hwritten.grows
  have hsame : szn'[dest]? = szn₂[dest]? := hwritten.others dest (by omega) (by omega)
  refine ⟨⟨by omega, ?_, fun j hj hne => ?_, ?_, fun s hs => ?_, hwritten.ok⟩, ?_⟩
  · have hbound := hwritten.bound
    rw [Node.innerNodes]
    omega
  · rw [hwritten.others j (by omega) (by omega), hothers j hj hne]
  · rw [bitsOf_congr hsame, hbits]
  · rw [slot_congr hsame, hslots s hs]
  · refine .table (by rw [bitsOf_congr hsame, hbits, hlen]) (by rw [slot_congr hsame, hslot]) hptr
      hcode (Nat.le_refl _) (by omega) fun i child hchild => ?_
    have hencode := hencodes i child hchild
    rw [Nat.zero_add, List.nil_append] at hencode
    exact hencode.mono (by omega) (Nat.le_refl _)

mutual

theorem serializeNode_spec (hb : BitsOk abl digits bpl) : ∀ (node : Node UInt32)
    {szn : List SerializationNode} {dest level bits : Nat} {path : List Nat},
    node.Wf (2 ^ abl) → Place abl digits bpl szn dest level bits path → abl * path.length ≤ bits →
    abl * (path.length + node.depth) ≤ (bpl.drop level).sum + abl →
    szn.length + node.innerNodes < 2 ^ 31 →
    ∃ szn', serializeNode abl bpl node ⟨dest, level, pathCode abl path, abl * path.length⟩ szn =
        .ok szn' ∧ NodeWritten abl digits szn szn' dest bits path node
  | .endNode value, szn, dest, level, bits, path, _, hplace, hle, _, _ => by
    obtain ⟨szn', hok, hwritten, hencodes⟩ := serializeEndNode_spec value hplace hle
    exact ⟨szn', hok, hwritten, hencodes⟩
  | .innerNode children, szn, dest, level, bits, path, hwf, hplace, hle, hdeep, hcount => by
    obtain ⟨hpos, hbits, -, hdvd⟩ := hb.ofLevel hplace.level
    have halphabet := hb.alphabet
    rw [Node.depth] at hdeep
    rw [Node.innerNodes] at hcount
    obtain ⟨hne, hlen, hchildren⟩ : children ≠ [] ∧ children.length ≤ 2 ^ abl ∧
        ∀ node ∈ children, node.Wf (2 ^ abl) := by
      cases hwf with
      | innerNode _ hne hlen h => exact ⟨hne, hlen, h⟩
    have hsum := sum_drop hplace.level
    rw [serializeNode, bitsAt, hplace.level]
    simp only [ok_bind]
    by_cases hboundary : abl * path.length = bits
    · rw [if_pos hboundary]
      have hdepth : 1 ≤ depthChildren children := by
        obtain ⟨child, rest, rfl⟩ := List.exists_cons_of_ne_nil hne
        rw [depthChildren]
        cases child <;> simp [Node.depth]
      rw [hsum, Nat.mul_add, Nat.mul_add, hboundary] at hdeep
      have hmul := Nat.mul_le_mul_left abl hdepth
      -- the depth asks for one more level
      obtain ⟨childBits, hchildBits⟩ : ∃ childBits, bpl[level + 1]? = some childBits := by
        rcases Nat.lt_or_ge (level + 1) bpl.length with hlt | hge
        · exact ⟨_, List.getElem?_eq_getElem hlt⟩
        · rw [List.drop_eq_nil_of_le hge, List.sum_nil] at hdeep
          omega
      obtain ⟨hchildPos, hchildLe, hchildFits, -⟩ := hb.ofLevel hchildBits
      have hlevels := hb.levels
      have hlevel : (level + 1) % 2 ^ 8 = level + 1 := by
        have hlt := (List.getElem?_eq_some_iff.mp hchildBits).1
        omega
      obtain ⟨szn₁, child, e, hmodify, hnew, hbitsChild, hlength, hothers, hbitsDest, hslot, hptr,
        hcode, hslots, hok⟩ :=
        addTable_spec hplace hboundary ⟨hchildPos, hchildLe, hchildFits⟩ (by omega)
      have hplaceChild :
          Place abl digits bpl (szn₁ ++ [child]) szn.length (level + 1) childBits [] :=
        ⟨hbitsChild, hchildBits, by simp, hlength.symm ▸ hok⟩
      obtain ⟨szn', hserialize, hwritten⟩ :=
        serializeChildren_spec hb children (i := 0) hchildren hplaceChild
          (by
            obtain ⟨-, -, -, m, hm⟩ := hb.ofLevel hchildBits
            rw [List.length_nil, Nat.mul_zero, Nat.zero_add, hm]
            have hm' : 1 ≤ m := by
              by_contra hzero
              obtain rfl : m = 0 := by omega
              omega
            calc abl = abl * 1 := (Nat.mul_one _).symm
              _ ≤ abl * m := Nat.mul_le_mul_left _ hm')
          (by
            rw [List.length_nil, Nat.zero_add, Nat.mul_add]
            omega)
          (by omega) (by omega)
      rw [hmodify, ok_bind, bitsAt, hchildBits]
      simp only [ok_bind, hnew, hlevel, u32_of_lt (show szn.length < 2 ^ 32 by omega)]
      exact ⟨szn', hserialize, nodeWritten_table hplace.dest_lt hlength hboundary hothers hbitsDest
        hslot hptr hcode hslots hwritten⟩
    · rw [if_neg hboundary]
      have hroom : abl * path.length + abl ≤ bits := by
        obtain ⟨m, rfl⟩ := hdvd
        have hlt : path.length < m := by
          by_contra hge
          have hmul := Nat.mul_le_mul_left abl (Nat.le_of_not_lt hge)
          omega
        calc abl * path.length + abl = abl * (path.length + 1) := by ring
          _ ≤ abl * m := Nat.mul_le_mul_left _ hlt
      obtain ⟨szn', hserialize, hwritten, hencodes⟩ :=
        serializeChildren_spec hb children (i := 0) hchildren hplace hroom
          (by rwa [Nat.add_assoc, Nat.add_comm 1]) (by omega) (by omega)
      have hin : ∀ s, (∃ k, k < children.length ∧ InRange abl bits (path ++ [0 + k]) s) →
          InRange abl bits path s := by
        rintro s ⟨k, hk, hs⟩
        exact hs.of_child (by omega) hroom
      have hbound := hwritten.bound
      refine ⟨szn', hserialize, { hwritten.mono hin with bound := ?_ }, ?_⟩
      · rw [Node.innerNodes]
        omega
      · refine .inner hwritten.bits hroom hlen fun k child hchild => ?_
        have hencode := hencodes k child hchild
        rwa [Nat.zero_add] at hencode

theorem serializeChildren_spec (hb : BitsOk abl digits bpl) : ∀ (children : List (Node UInt32))
    {szn : List SerializationNode} {dest level bits i : Nat} {path : List Nat},
    (∀ node ∈ children, node.Wf (2 ^ abl)) → Place abl digits bpl szn dest level bits path →
    abl * path.length + abl ≤ bits →
    abl * (path.length + 1 + depthChildren children) ≤ (bpl.drop level).sum + abl →
    i + children.length ≤ 2 ^ abl → szn.length + innerNodesChildren children < 2 ^ 31 →
    ∃ szn', serializeChildren abl bpl children i
        ⟨dest, level, pathCode abl path, abl * path.length⟩ szn = .ok szn' ∧
      ChildrenWritten abl digits szn szn' dest bits i path children
  | [], szn, dest, level, bits, i, path, _, hplace, _, _, _, _ => by
    refine ⟨szn, rfl, ⟨Nat.le_refl _, Nat.le_add_right _ _, fun _ _ _ => rfl, hplace.table,
      fun _ _ => rfl, hplace.ok⟩, fun k child hchild => ?_⟩
    simp at hchild
  | node :: children, szn, dest, level, bits, i, path, hwf, hplace, hroom, hdeep, hlen, hcount => by
    obtain ⟨hnode, hchildren⟩ := List.forall_mem_cons.mp hwf
    rw [depthChildren] at hdeep
    rw [innerNodesChildren] at hcount
    rw [List.length_cons] at hlen
    have hi : i < 2 ^ abl := by omega
    have hpath : ∀ j ∈ path ++ [i], j < 2 ^ abl := by
      intro j hj
      rcases List.mem_append.mp hj with hj | hj
      · exact hplace.path j hj
      · rwa [List.mem_singleton.mp hj]
    have hlength : (path ++ [i]).length = path.length + 1 := by simp
    have hdeepNode : abl * (path.length + 1 + node.depth) ≤ (bpl.drop level).sum + abl :=
      Nat.le_trans (Nat.mul_le_mul_left _ (by omega)) hdeep
    have hdeepRest : abl * (path.length + 1 + depthChildren children) ≤
        (bpl.drop level).sum + abl :=
      Nat.le_trans (Nat.mul_le_mul_left _ (by omega)) hdeep
    have hplaceNode : Place abl digits bpl szn dest level bits (path ++ [i]) :=
      ⟨hplace.table, hplace.level, hpath, hplace.ok⟩
    obtain ⟨szn', hserialize, hwritten⟩ := serializeNode_spec hb node hnode hplaceNode
      (by rw [hlength, Nat.mul_add, Nat.mul_one]; exact hroom) (by rw [hlength]; exact hdeepNode)
      (by omega)
    have hbound := hwritten.1.bound
    obtain ⟨szn'', hserialize', hwritten'⟩ := serializeChildren_spec hb children (i := i + 1)
      hchildren (hplace.written hplace.path hwritten.1) hroom hdeepRest (by omega) (by omega)
    refine ⟨szn'', ?_, childrenWritten_cons hplace.dest_lt hwritten hwritten'⟩
    rw [serializeChildren]
    dsimp only
    rw [childInfo_eq hb hplace.level hplace.path hi hroom, hserialize, ok_bind, hserialize']

end

end Sserialize.HuffmanTree
