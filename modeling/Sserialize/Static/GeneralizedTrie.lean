import Mathlib.Data.Finset.Image

/-!
# `GeneralizedTrie::ForwardIterator`

The node string is never left by a call that returns `true`, and a copy starts the string anew.
-/

namespace Sserialize

class TrieNodePrivate (Node : Type) where
  str : Node → List Nat
  childCount : Node → Nat
  childCharAt : Node → Nat → Nat
  posOfChar : Node → Nat → Int
  childAt : Node → Nat → Node

inductive SimpleTrieNodePrivate where
  | mk (charWidth : Nat) (str : List Nat) (children : List (Nat × SimpleTrieNodePrivate))

namespace SimpleTrieNodePrivate

def children : SimpleTrieNodePrivate → List (Nat × SimpleTrieNodePrivate)
  | mk _ _ children => children

def charWidth : SimpleTrieNodePrivate → Nat
  | mk charWidth _ _ => charWidth

def str : SimpleTrieNodePrivate → List Nat
  | mk _ str _ => str

def childCharAt (self : SimpleTrieNodePrivate) (pos : Nat) : Nat :=
  if self.children.length = 0 then 0
  else
    let pos := if self.children.length ≤ pos then self.children.length - 1 else pos
    (self.children.map Prod.fst).getD pos 0

def posOfChar (self : SimpleTrieNodePrivate) (ucode : Nat) : Int :=
  if 0xFFFF < ucode ∨ self.charWidth = 1 ∧ 0xFF < ucode then -1
  else ((self.children.findIdx? fun child => child.1 == ucode).map Int.ofNat).getD (-1)

/-- Of a node without children nothing can be read; the node itself stands for it. -/
def childAt (self : SimpleTrieNodePrivate) (pos : Nat) : SimpleTrieNodePrivate :=
  let pos := if self.children.length ≤ pos then self.children.length - 1 else pos
  (self.children.map Prod.snd).getD pos self

instance : TrieNodePrivate SimpleTrieNodePrivate where
  str := str
  childCount := fun node => node.children.length
  childCharAt := childCharAt
  posOfChar := posOfChar
  childAt := childAt

end SimpleTrieNodePrivate

namespace GeneralizedTrie

open TrieNodePrivate

variable {Node : Type} [TrieNodePrivate Node]

/-- The strings of the trie below a node: a child is entered with its character, which its own
string does not repeat. -/
inductive Spells : Node → List Nat → Prop
  | here (node : Node) : Spells node (str node)
  | child {node : Node} {pos : Nat} {s : List Nat} (hpos : pos < childCount node)
      (hs : Spells (childAt node pos) s) : Spells node (str node ++ childCharAt node pos :: s)

structure ForwardIterator (Node : Type) [TrieNodePrivate Node] where
  node : Node
  it : Nat
  it_le : it ≤ (str node).length

namespace ForwardIterator

def new (node : Node) : ForwardIterator Node := ⟨node, 0, Nat.zero_le _⟩

def copy (other : ForwardIterator Node) : ForwardIterator Node := ⟨other.node, 0, Nat.zero_le _⟩

def getNext (self : ForwardIterator Node) : Finset Nat :=
  if h : self.it < (str self.node).length then {(str self.node)[self.it]}
  else (Finset.range (childCount self.node)).image (childCharAt self.node)

def hasNext (self : ForwardIterator Node) (codepoint : Nat) : Bool :=
  if h : self.it < (str self.node).length then (str self.node)[self.it] == codepoint
  else childCount self.node != 0 && decide (0 ≤ posOfChar self.node codepoint)

def next (self : ForwardIterator Node) (codepoint : Nat) : Bool × ForwardIterator Node :=
  if h : self.it < (str self.node).length then
    -- the character is passed also where it is another one
    ((str self.node)[self.it] == codepoint, ⟨self.node, self.it + 1, h⟩)
  else if childCount self.node ≠ 0 then
    let pos := posOfChar self.node codepoint
    -- the child is entered, but `false` is returned
    if 0 ≤ pos then (false, new (childAt self.node pos.toNat)) else (false, self)
  else (false, self)

def run (self : ForwardIterator Node) (cs : List Nat) : ForwardIterator Node :=
  cs.foldl (fun it c => (it.next c).2) self

def results (self : ForwardIterator Node) : List Nat → List Bool
  | [] => []
  | c :: cs => (self.next c).1 :: (self.next c).2.results cs

def Agrees (self : ForwardIterator Node) : Prop :=
  ∀ c, (self.hasNext c = true ↔ (self.next c).1 = true) ∧
    ((self.next c).1 = true ↔ c ∈ self.getNext)

def Alike (a b : ForwardIterator Node) : Prop :=
  ∀ cs, (a.run cs).getNext = (b.run cs).getNext ∧
    ∀ c, (a.run cs).hasNext c = (b.run cs).hasNext c ∧
      ((a.run cs).next c).1 = ((b.run cs).next c).1

variable {self : ForwardIterator Node}

theorem next_fst_of_end (hend : ¬ self.it < (str self.node).length) (c : Nat) :
    (self.next c).1 = false := by
  rw [next, dif_neg hend]
  split
  next =>
    dsimp only
    split <;> rfl
  next => rfl

theorem next_of_lt (hlt : self.it < (str self.node).length) (c : Nat) :
    self.next c = ((str self.node)[self.it] == c, ⟨self.node, self.it + 1, hlt⟩) := by
  rw [next, dif_pos hlt]

theorem agrees_at_iff :
    self.Agrees ↔ self.it < (str self.node).length ∨ childCount self.node = 0 := by
  constructor
  · intro hagrees
    by_contra hnot
    obtain ⟨hend, hchild⟩ := not_or.mp hnot
    have hmem : childCharAt self.node 0 ∈ self.getNext := by
      rw [getNext, dif_neg hend]
      exact Finset.mem_image_of_mem _ (Finset.mem_range.mpr (Nat.pos_of_ne_zero hchild))
    have htrue := (hagrees _).2.mpr hmem
    rw [next_fst_of_end hend] at htrue
    exact Bool.false_ne_true htrue
  · intro h c
    by_cases hlt : self.it < (str self.node).length
    · rw [next_of_lt hlt, hasNext, dif_pos hlt, getNext, dif_pos hlt, Finset.mem_singleton]
      exact ⟨Iff.rfl, beq_iff_eq.trans eq_comm⟩
    · have hchild := h.resolve_left hlt
      rw [next_fst_of_end hlt, hasNext, dif_neg hlt, getNext, dif_neg hlt, hchild]
      simp

theorem run_of_le {cs : List Nat} (hle : self.it + cs.length ≤ (str self.node).length) :
    self.run cs = ⟨self.node, self.it + cs.length, hle⟩ := by
  induction cs generalizing self with
  | nil => rfl
  | cons c cs ih =>
    rw [List.length_cons] at hle
    have hlt : self.it < (str self.node).length := by omega
    have hrest : self.it + 1 + cs.length ≤ (str self.node).length := by omega
    rw [run, List.foldl_cons, next_of_lt hlt, ← run, ih hrest]
    congr 1
    exact Nat.add_right_comm self.it 1 cs.length

/-- The copy of an iterator inside a string answers `true` where the iterator is at the end. -/
theorem alike_copy_iff : Alike self.copy self ↔ self.it = 0 := by
  constructor
  · intro halike
    by_contra hit
    have hle := self.it_le
    have hpos : (str self.node).length - self.it < (str self.node).length := by omega
    have hlen : ((str self.node).drop self.it).length = (str self.node).length - self.it :=
      List.length_drop
    have hself : self.it + ((str self.node).drop self.it).length ≤ (str self.node).length := by
      omega
    have hcopy : self.copy.it + ((str self.node).drop self.it).length ≤
        (str self.copy.node).length := by
      simp only [copy]
      omega
    have hfirst : ((self.copy.run ((str self.node).drop self.it)).next
        (str self.node)[(str self.node).length - self.it]).1 = true := by
      rw [run_of_le hcopy, next_of_lt (by simp only [copy]; omega)]
      simp only [copy, Nat.zero_add, hlen, beq_self_eq_true]
    have hlast : ((self.run ((str self.node).drop self.it)).next
        (str self.node)[(str self.node).length - self.it]).1 = false := by
      rw [run_of_le hself]
      exact next_fst_of_end (by dsimp only; omega) _
    have hnext := ((halike ((str self.node).drop self.it)).2
      (str self.node)[(str self.node).length - self.it]).2
    rw [hfirst, hlast] at hnext
    exact Bool.false_ne_true hnext.symm
  · intro hit cs
    have hcopy : self.copy = self := by
      obtain ⟨node, it, hle⟩ := self
      subst hit
      rfl
    rw [hcopy]
    exact ⟨rfl, fun _ => ⟨rfl, rfl⟩⟩

/-- All calls return `true` on the rest of the node string only. -/
theorem results_iff {cs : List Nat} :
    (∀ r ∈ self.results cs, r = true) ↔ cs <+: (str self.node).drop self.it := by
  induction cs generalizing self with
  | nil => simp [results]
  | cons c cs ih =>
    rw [results, List.forall_mem_cons]
    by_cases hlt : self.it < (str self.node).length
    · rw [ih, next_of_lt hlt, List.drop_eq_getElem_cons hlt, List.cons_prefix_cons, beq_iff_eq]
      exact and_congr_left' eq_comm
    · rw [next_fst_of_end hlt, List.drop_eq_nil_of_le (Nat.le_of_not_lt hlt), List.prefix_nil]
      simp

end ForwardIterator

open ForwardIterator

/-- What is expected of the iterator of a trie that is fed with `cs`. -/
def Follows (root : Node) (cs : List Nat) : Prop :=
  ((∀ r ∈ (new root).results cs, r = true) ↔ ∃ s, Spells root s ∧ cs <+: s) ∧
    ∀ ds, ds <+: cs → ((new root).run ds).Agrees ∧
      Alike ((new root).run ds).copy ((new root).run ds)

theorem spells_of_trivial {root : Node} (hstr : str root = []) (hchild : childCount root = 0)
    {s : List Nat} : Spells root s ↔ s = [] := by
  constructor
  · intro hs
    cases hs with
    | here => exact hstr
    | child hpos _ => omega
  · intro hs
    rw [hs, ← hstr]
    exact Spells.here root

theorem run_new_of_trivial {root : Node} (hstr : str root = []) (hchild : childCount root = 0)
    (cs : List Nat) : (new root).run cs = new root := by
  induction cs with
  | nil => rfl
  | cons c cs ih =>
    have hnext : ((new root).next c).2 = new root := by
      rw [next, dif_neg (by rw [new, hstr]; exact Nat.lt_irrefl 0),
        if_neg (show ¬ childCount (new root).node ≠ 0 from not_not.mpr hchild)]
    rw [run, List.foldl_cons, hnext, ← run, ih]

theorem follows_iff {root : Node} {cs : List Nat} :
    Follows root cs ↔ (str root = [] ∧ childCount root = 0) ∨ (str root ≠ [] ∧ cs = []) := by
  constructor
  · rintro ⟨-, hpoints⟩
    by_cases hstr : str root = []
    · have hagrees := agrees_at_iff.mp (hpoints [] List.nil_prefix).1
      rw [run, List.foldl_nil, new, hstr] at hagrees
      exact .inl ⟨hstr, hagrees.resolve_left (Nat.lt_irrefl 0)⟩
    · refine .inr ⟨hstr, ?_⟩
      cases cs with
      | nil => rfl
      | cons c cs =>
        have hpre : [c] <+: c :: cs := ⟨cs, rfl⟩
        have hle : (new root).it + [c].length ≤ (str (new root).node).length :=
          List.length_pos_iff.mpr hstr
        have hit := alike_copy_iff.mp (hpoints [c] hpre).2
        rw [run_of_le hle] at hit
        exact absurd hit (Nat.succ_ne_zero 0)
  · rintro (⟨hstr, hchild⟩ | ⟨hstr, rfl⟩)
    · constructor
      · rw [results_iff, new, hstr, List.drop_nil]
        simp only [spells_of_trivial hstr hchild, exists_eq_left]
      · intro ds _
        rw [run_new_of_trivial hstr hchild]
        exact ⟨agrees_at_iff.mpr (.inr hchild), alike_copy_iff.mpr rfl⟩
    · constructor
      · constructor
        · intro _
          exact ⟨str root, Spells.here root, List.nil_prefix⟩
        · intro _
          exact results_iff.mpr List.nil_prefix
      · intro ds hds
        rw [List.prefix_nil.mp hds]
        exact ⟨agrees_at_iff.mpr (.inl (List.length_pos_iff.mpr hstr)), alike_copy_iff.mpr rfl⟩

def leafBelowRoot : SimpleTrieNodePrivate := .mk 1 [] [(97, .mk 1 [] [])]

/-- The string `a` below an empty root is not followed; neither is `ab` at a single node, where the
copy after `a` awaits `a` again. -/
theorem not_follows_leafBelowRoot :
    ¬ Follows leafBelowRoot [97] ∧ ¬ Follows (SimpleTrieNodePrivate.mk 1 [97, 98] []) [97] := by
  constructor
  · rintro ⟨hresults, -⟩
    have hspells : Spells leafBelowRoot [97] :=
      @Spells.child _ _ leafBelowRoot 0 [] Nat.zero_lt_one (Spells.here _)
    have htrue := hresults.mpr ⟨[97], hspells, List.prefix_rfl⟩ false List.mem_cons_self
    exact Bool.false_ne_true htrue
  · rintro ⟨-, hpoints⟩
    have halike := (hpoints [97] List.prefix_rfl).2 []
    have hnext : true = false := (halike.2 97).2
    exact Bool.false_ne_true hnext.symm

end GeneralizedTrie

end Sserialize
