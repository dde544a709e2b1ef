import Sserialize.Containers.HuffmanTreeCode

/-!
# Tables of a code

What it means for a list of tables to hold the codes below a node of the tree, and that `addCode`
and `addChild` write the entries for it. The entries of a code are those of the words that start
with it.
-/

namespace Sserialize.HuffmanTree

/-! ## Words and codes -/

def pathCode (alphabetBitLength : Nat) (path : List Nat) : Nat :=
  path.foldl (fun code i => code * 2 ^ alphabetBitLength + i) 0

variable {abl digits : Nat}

theorem pathCode_append_singleton (path : List Nat) (i : Nat) :
    pathCode abl (path ++ [i]) = pathCode abl path * 2 ^ abl + i := by
  rw [pathCode, List.foldl_append]
  rfl

theorem pathCode_append (p q : List Nat) :
    pathCode abl (p ++ q) = pathCode abl p * 2 ^ (abl * q.length) + pathCode abl q := by
  induction q using List.reverseRecOn with
  | nil => simp [pathCode]
  | append_singleton q i ih =>
    rw [← List.append_assoc, pathCode_append_singleton, ih, pathCode_append_singleton,
      List.length_append, List.length_singleton, Nat.mul_add, Nat.mul_one, Nat.pow_add]
    ring

variable {path : List Nat}

theorem pathCode_lt (h : ∀ i ∈ path, i < 2 ^ abl) : pathCode abl path < 2 ^ (abl * path.length) := by
  induction path using List.reverseRecOn with
  | nil => simp [pathCode]
  | append_singleton path i ih =>
    have hi : i < 2 ^ abl := h i (by simp)
    have hpath := ih fun j hj => h j (List.mem_append_left _ hj)
    rw [pathCode_append_singleton, List.length_append, List.length_singleton, Nat.mul_add,
      Nat.mul_one, Nat.pow_add]
    calc pathCode abl path * 2 ^ abl + i < pathCode abl path * 2 ^ abl + 2 ^ abl := by omega
      _ = (pathCode abl path + 1) * 2 ^ abl := by ring
      _ ≤ 2 ^ (abl * path.length) * 2 ^ abl := Nat.mul_le_mul_right _ hpath

/-- The leading bits of a word of so many bits are the code of a path. -/
structure Leads (abl width x : Nat) (path : List Nat) : Prop where
  lt : x < 2 ^ width
  le : abl * path.length ≤ width
  code : x / 2 ^ (width - abl * path.length) = pathCode abl path

theorem Leads.front {width x : Nat} {p q : List Nat} (h : Leads abl width x (p ++ q))
    (hq : ∀ i ∈ q, i < 2 ^ abl) : Leads abl width x p := by
  have hle := h.le
  rw [List.length_append, Nat.mul_add] at hle
  refine ⟨h.lt, by omega, ?_⟩
  have hexp : width - abl * p.length = (width - abl * (p ++ q).length) + abl * q.length := by
    rw [List.length_append, Nat.mul_add]
    omega
  rw [hexp, Nat.pow_add, ← Nat.div_div_eq_div_mul, h.code, pathCode_append,
    Nat.mul_comm, Nat.mul_add_div (Nat.two_pow_pos _), Nat.div_eq_of_lt (pathCode_lt hq),
    Nat.add_zero]

theorem Leads.upper {width bits x : Nat} {p : List Nat} (h : Leads abl width x p)
    (hbits : bits ≤ width) (hp : abl * p.length ≤ bits) :
    Leads abl bits (x / 2 ^ (width - bits)) p := by
  refine ⟨?_, hp, ?_⟩
  · rw [Nat.div_lt_iff_lt_mul (Nat.two_pow_pos _), ← Nat.pow_add]
    rw [show bits + (width - bits) = width by omega]
    exact h.lt
  · rw [Nat.div_div_eq_div_mul, ← Nat.pow_add]
    rw [show width - bits + (bits - abl * p.length) = width - abl * p.length by omega]
    exact h.code

theorem Leads.rest {width x : Nat} {p q : List Nat} (h : Leads abl width x (p ++ q))
    (hq : ∀ i ∈ q, i < 2 ^ abl) :
    Leads abl width (x * 2 ^ (abl * p.length) % 2 ^ width) q := by
  have hle := h.le
  rw [List.length_append, Nat.mul_add] at hle
  refine ⟨Nat.mod_lt _ (Nat.two_pow_pos _), by omega, ?_⟩
  -- the word without its front, shifted
  have hmod : x * 2 ^ (abl * p.length) % 2 ^ width =
      x % 2 ^ (width - abl * p.length) * 2 ^ (abl * p.length) := by
    conv_lhs => rw [show width = (width - abl * p.length) + abl * p.length by omega, Nat.pow_add]
    exact Nat.mul_mod_mul_right _ _ _
  have hsplit : 2 ^ (width - abl * q.length) =
      2 ^ (width - abl * p.length - abl * q.length) * 2 ^ (abl * p.length) := by
    rw [← Nat.pow_add]
    congr 1
    omega
  rw [hmod, hsplit, Nat.mul_div_mul_right _ _ (Nat.two_pow_pos _)]
  have hwhole := h.code
  have hlen : width - abl * (p ++ q).length = width - abl * p.length - abl * q.length := by
    rw [List.length_append, Nat.mul_add]
    omega
  rw [hlen] at hwhole
  have hcut : 2 ^ (width - abl * p.length) =
      2 ^ (width - abl * p.length - abl * q.length) * 2 ^ (abl * q.length) := by
    rw [← Nat.pow_add]
    congr 1
    omega
  rw [hcut, Nat.mod_mul_right_div_self, hwhole, pathCode_append, Nat.mul_comm,
    Nat.mul_add_mod, Nat.mod_eq_of_lt (pathCode_lt hq)]

/-! ## Tables -/

def bitsOf (szn : List SerializationNode) (dest : Nat) : Option Nat :=
  szn[dest]?.map SerializationNode.bitLength

def slot (szn : List SerializationNode) (dest s : Nat) : Option TableEntry :=
  szn[dest]?.bind fun node => node.entries[s]?

def InRange (abl bits : Nat) (path : List Nat) (s : Nat) : Prop :=
  s / 2 ^ (bits - abl * path.length) = pathCode abl path

theorem InRange.of_child {bits i s : Nat} (hi : i < 2 ^ abl)
    (hbits : abl * path.length + abl ≤ bits) (h : InRange abl bits (path ++ [i]) s) :
    InRange abl bits path s := by
  rw [InRange, List.length_append, List.length_singleton, Nat.mul_add, Nat.mul_one,
    pathCode_append_singleton] at h
  have hexp : bits - abl * path.length = (bits - (abl * path.length + abl)) + abl := by omega
  rw [InRange, hexp, Nat.pow_add, ← Nat.div_div_eq_div_mul, h, Nat.mul_comm,
    Nat.mul_add_div (Nat.two_pow_pos _), Nat.div_eq_of_lt hi, Nat.add_zero]

/-- The tables from number `dest` on hold the codes of a tree below a path in the first table.
The other tables of the tree have numbers from `lo` to `hi`. -/
inductive Encodes (abl : Nat) (szn : List SerializationNode) (lo hi : Nat) :
    Nat → List Nat → Node UInt32 → Prop
  | endNode {dest bits : Nat} {path : List Nat} {value : UInt32}
      (hbits : bitsOf szn dest = some bits) (hle : abl * path.length ≤ bits)
      (h : ∀ s, s < 2 ^ bits → InRange abl bits path s →
        slot szn dest s = some ⟨value, -1, abl * path.length⟩) :
      Encodes abl szn lo hi dest path (.endNode value)
  | table {dest childId : Nat} {path : List Nat} {children : List (Node UInt32)} {e : TableEntry}
      (hbits : bitsOf szn dest = some (abl * path.length))
      (hslot : slot szn dest (pathCode abl path) = some e) (hptr : e.childPtr = childId)
      (hlength : e.codePointLength = 0) (hlo : lo ≤ childId) (hhi : childId < hi)
      (h : ∀ i child, children[i]? = some child → Encodes abl szn lo hi childId [i] child) :
      Encodes abl szn lo hi dest path (.innerNode children)
  | inner {dest bits : Nat} {path : List Nat} {children : List (Node UInt32)}
      (hbits : bitsOf szn dest = some bits) (hle : abl * path.length + abl ≤ bits)
      (hchildren : children.length ≤ 2 ^ abl)
      (h : ∀ i child, children[i]? = some child →
        Encodes abl szn lo hi dest (path ++ [i]) child) :
      Encodes abl szn lo hi dest path (.innerNode children)

variable {szn szn' : List SerializationNode} {dest : Nat}

theorem slot_congr (h : szn'[dest]? = szn[dest]?) (s : Nat) : slot szn' dest s = slot szn dest s := by
  rw [slot, slot, h]

theorem bitsOf_congr (h : szn'[dest]? = szn[dest]?) : bitsOf szn' dest = bitsOf szn dest := by
  rw [bitsOf, bitsOf, h]

theorem Encodes.transfer {lo hi lo' hi' dest : Nat} {node : Node UInt32}
    (h : Encodes abl szn lo hi dest path node) (hlo : lo' ≤ lo) (hhi : hi ≤ hi')
    (htables : ∀ j, lo ≤ j → j < hi → szn'[j]? = szn[j]?)
    (hbits : bitsOf szn' dest = bitsOf szn dest)
    (hslots : ∀ bits, bitsOf szn dest = some bits → ∀ s, InRange abl bits path s →
      slot szn' dest s = slot szn dest s) :
    Encodes abl szn' lo' hi' dest path node := by
  induction h with
  | endNode hb hle h =>
    exact .endNode (hbits.trans hb) hle fun s hs hin => (hslots _ hb s hin).trans (h s hs hin)
  | @table dest childId path children e hb hslot hptr hlength hlo' hhi' _ ih =>
    have hin : InRange abl (abl * path.length) path (pathCode abl path) := by
      rw [InRange, Nat.sub_self, Nat.pow_zero, Nat.div_one]
    have hsame := htables childId hlo' hhi'
    refine .table (hbits.trans hb) ((hslots _ hb _ hin).trans hslot) hptr hlength
      (Nat.le_trans hlo hlo') (Nat.lt_of_lt_of_le hhi' hhi) fun i child hchild => ?_
    exact ih i child hchild (bitsOf_congr hsame) fun _ _ s _ => slot_congr hsame s
  | @inner dest bits path children hb hle hchildren _ ih =>
    refine .inner (hbits.trans hb) hle hchildren fun i child hchild => ?_
    have hi : i < 2 ^ abl :=
      Nat.lt_of_lt_of_le (List.getElem?_eq_some_iff.mp hchild).1 hchildren
    refine ih i child hchild hbits fun bits' hb' s hin => hslots bits' hb' s ?_
    obtain rfl : bits = bits' := Option.some.inj (hb.symm.trans hb')
    exact hin.of_child hi hle

/-! ## What the steps write -/

/-- Tables of 1 to 30 bits, not more than a word has; their entries are lengths of codes or pointers
to tables behind the first one. -/
structure TableOk (digits count : Nat) (node : SerializationNode) : Prop where
  pos : 1 ≤ node.bitLength
  le : node.bitLength ≤ 30
  fits : node.bitLength ≤ digits
  length : node.entries.length = 2 ^ node.bitLength
  lengths : ∀ e ∈ node.entries, e.codePointLength < 32
  ptrs : ∀ e ∈ node.entries, e.childPtr = -1 ∨ 0 < e.childPtr ∧ e.childPtr < count

theorem TableOk.mono {count count' : Nat} {node : SerializationNode} (h : TableOk digits count node)
    (hle : count ≤ count') : TableOk digits count' node :=
  { h with ptrs := fun e he => (h.ptrs e he).imp_right fun hptr => ⟨hptr.1, by omega⟩ }

/-- The effect of serializing some codes into a table: so many new tables, and entries of a part of
the table only. -/
structure Written (digits : Nat) (szn szn' : List SerializationNode) (dest bits inner : Nat)
    (touched : Nat → Prop) : Prop where
  grows : szn.length ≤ szn'.length
  bound : szn'.length ≤ szn.length + inner
  others : ∀ j, j < szn.length → j ≠ dest → szn'[j]? = szn[j]?
  bits : bitsOf szn' dest = some bits
  slots : ∀ s, ¬ touched s → slot szn' dest s = slot szn dest s
  ok : ∀ node ∈ szn', TableOk digits szn'.length node

theorem addCodeLoop_spec (entry : TableEntry) {count pos : Nat} {entries : List TableEntry}
    (h : pos + count ≤ entries.length) :
    ∃ entries', SerializationNode.addCodeLoop entry count pos entries = .ok entries' ∧
      entries'.length = entries.length ∧
      (∀ s, pos ≤ s → s < pos + count → entries'[s]? = some entry) ∧
      (∀ s, ¬ (pos ≤ s ∧ s < pos + count) → entries'[s]? = entries[s]?) ∧
      ∀ e ∈ entries', e = entry ∨ e ∈ entries := by
  induction count generalizing pos entries with
  | zero =>
    exact ⟨entries, rfl, rfl, fun s _ _ => by omega, fun _ _ => rfl, fun e he => .inr he⟩
  | succ count ih =>
    obtain ⟨entries', hloop, hlength, hin, hout, hmem⟩ :=
      ih (show pos + 1 + count ≤ (entries.set pos entry).length by rw [List.length_set]; omega)
    refine ⟨entries', ?_, hlength.trans List.length_set, fun s hfirst hlast => ?_,
      fun s hs => ?_, fun e he => ?_⟩
    · rw [SerializationNode.addCodeLoop, if_pos (by omega)]
      exact hloop
    · by_cases heq : s = pos
      · subst heq
        rw [hout s (by omega), List.getElem?_set_self (by omega)]
      · exact hin s (by omega) (by omega)
    · rw [hout s (by omega), List.getElem?_set_ne (by omega)]
    · rcases hmem e he with rfl | he
      · exact .inl rfl
      · exact (List.mem_or_eq_of_mem_set he).symm

theorem mem_range_iff (code sh s : Nat) :
    code * 2 ^ sh ≤ s ∧ s < code * 2 ^ sh + 2 ^ sh ↔ s / 2 ^ sh = code := by
  have hpos := Nat.two_pow_pos sh
  rw [Nat.div_eq_iff hpos]
  constructor
  · rintro ⟨hfirst, hlast⟩
    omega
  · rintro ⟨hfirst, hlast⟩
    omega

theorem addCode_spec {count : Nat} {node : SerializationNode} (value : UInt32)
    (hok : TableOk digits count node) (hpath : ∀ i ∈ path, i < 2 ^ abl)
    (hle : abl * path.length ≤ node.bitLength) :
    ∃ node', node.addCode (pathCode abl path) (abl * path.length) value = .ok node' ∧
      node'.bitLength = node.bitLength ∧ TableOk digits count node' ∧
      (∀ s, s < 2 ^ node.bitLength → InRange abl node.bitLength path s →
        node'.entries[s]? = some ⟨value, -1, abl * path.length⟩) ∧
      ∀ s, ¬ InRange abl node.bitLength path s → node'.entries[s]? = node.entries[s]? := by
  have hbits := hok.le
  have hcode := pathCode_lt hpath
  have hshift : (node.bitLength + 2 ^ 8 - abl * path.length) % 2 ^ 8 =
      node.bitLength - abl * path.length := by omega
  set sh := node.bitLength - abl * path.length
  have hwidth : 2 ^ (abl * path.length) * 2 ^ sh = 2 ^ node.bitLength := by
    rw [← Nat.pow_add]
    congr 1
    omega
  have hend : (pathCode abl path + 1) * 2 ^ sh ≤ 2 ^ node.bitLength := by
    rw [← hwidth]
    exact Nat.mul_le_mul_right _ hcode
  have hpow : 2 ^ node.bitLength ≤ 2 ^ 30 := Nat.pow_le_pow_right (by decide) hbits
  have hpos := Nat.two_pow_pos sh
  rw [Nat.add_mul, Nat.one_mul] at hend
  have hfirst : u32 (pathCode abl path <<< sh) = pathCode abl path * 2 ^ sh := by
    rw [Nat.shiftLeft_eq]
    exact u32_of_lt (by omega)
  have hlast : pathCode abl path * 2 ^ sh ||| createMask sh =
      pathCode abl path * 2 ^ sh + (2 ^ sh - 1) := by
    rw [createMask, ← Nat.shiftLeft_eq,
      ← Nat.shiftLeft_add_eq_or_of_lt (show 2 ^ sh - 1 < 2 ^ sh by omega)]
  obtain ⟨entries', hloop, hlength, hin, hout, hmem⟩ :=
    addCodeLoop_spec ⟨value, -1, abl * path.length⟩
      (show pathCode abl path * 2 ^ sh + 2 ^ sh ≤ node.entries.length by
        rw [hok.length]
        exact hend)
  refine ⟨{ node with entries := entries' }, ?_, rfl, ?_, fun s _ hrange => ?_, fun s hrange => ?_⟩
  · unfold SerializationNode.addCode
    simp only [hshift, hfirst, hlast]
    rw [if_neg (by omega), show pathCode abl path * 2 ^ sh + (2 ^ sh - 1) + 1 -
      pathCode abl path * 2 ^ sh = 2 ^ sh by omega]
    simp [hloop]
  · refine ⟨hok.pos, hok.le, hok.fits, hlength.trans hok.length, fun e he => ?_, fun e he => ?_⟩
    · rcases hmem e he with rfl | he
      · show abl * path.length < 32
        omega
      · exact hok.lengths e he
    · rcases hmem e he with rfl | he
      · exact .inl rfl
      · exact hok.ptrs e he
  · have hmem' := (mem_range_iff _ _ s).mpr hrange
    exact hin s hmem'.1 hmem'.2
  · exact hout s fun hmem' => hrange ((mem_range_iff _ _ s).mp hmem')

variable {node node' : SerializationNode}

theorem modifyNode_eq {szn : List SerializationNode}
    {f : SerializationNode → Except Fault SerializationNode} (hnode : szn[dest]? = some node)
    (hf : f node = .ok node') : modifyNode szn dest f = .ok (szn.set dest node') := by
  simp [modifyNode, hnode, hf]

theorem written_set {szn : List SerializationNode} {touched : Nat → Prop}
    (hnode : szn[dest]? = some node) (hok : ∀ node ∈ szn, TableOk digits szn.length node)
    (hok' : TableOk digits szn.length node') (hbits : node'.bitLength = node.bitLength)
    (hslots : ∀ s, ¬ touched s → node'.entries[s]? = node.entries[s]?) :
    Written digits szn (szn.set dest node') dest node.bitLength 0 touched := by
  have hlt := (List.getElem?_eq_some_iff.mp hnode).1
  refine ⟨by rw [List.length_set], by simp, fun j _ hj => ?_, ?_, fun s hs => ?_, fun n hn => ?_⟩
  · rw [List.getElem?_set_ne (Ne.symm hj)]
  · rw [bitsOf, List.getElem?_set_self hlt, Option.map_some, hbits]
  · rw [slot, slot, List.getElem?_set_self hlt, hnode]
    exact hslots s hs
  · rw [List.length_set]
    rcases List.mem_or_eq_of_mem_set hn with hn | rfl
    · exact hok n hn
    · exact hok'

/-! ## The recursion -/

mutual

def Node.innerNodes {TValue : Type} : Node TValue → Nat
  | .endNode _ => 0
  | .innerNode children => innerNodesChildren children + 1

def innerNodesChildren {TValue : Type} : List (Node TValue) → Nat
  | [] => 0
  | node :: children => node.innerNodes + innerNodesChildren children

end

structure BitsOk (abl digits : Nat) (bpl : List Nat) : Prop where
  alphabet : 1 ≤ abl
  levels : bpl.length ≤ 256
  counts : ∀ b ∈ bpl, 1 ≤ b ∧ b ≤ 30 ∧ b ≤ digits ∧ abl ∣ b

theorem BitsOk.ofLevel {bpl : List Nat} (h : BitsOk abl digits bpl) {level bits : Nat}
    (hbits : bpl[level]? = some bits) : 1 ≤ bits ∧ bits ≤ 30 ∧ bits ≤ digits ∧ abl ∣ bits :=
  h.counts bits (List.mem_of_getElem? hbits)

end Sserialize.HuffmanTree
