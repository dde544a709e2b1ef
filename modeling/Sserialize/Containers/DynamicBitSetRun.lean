import Sserialize.Containers.DynamicBitSetObservers

namespace Sserialize.DynamicBitSet

open BitString SetBits

def unset (b : DynamicBitSet) (pos : Nat) : DynamicBitSet :=
  let offset := pos / 8
  if offset < b.data.length then
    let inByteOffset := pos % 8
    ⟨b.data.modify offset fun d => d &&& ~~~(UInt8.ofNat (1 <<< inByteOffset))⟩
  else b

structure Stored where
  bits : DynamicBitSet
  behind : Bytes
  deriving Repr, DecidableEq

namespace Stored

def len (s : Stored) : Nat := s.bits.data.length

def growStorage (s : Stored) (byte : Nat) : Stored :=
  ⟨⟨s.bits.data ++ (s.behind ++ List.replicate byte 0).take byte⟩, s.behind.drop byte⟩

def resize (s : Stored) (byte : Nat) : Stored :=
  if byte < s.len then ⟨⟨s.bits.data.take byte⟩, s.bits.data.drop byte ++ s.behind⟩
  else s.growStorage (byte - s.len)

def set (s : Stored) (pos : Nat) : Stored :=
  let offset := pos / 8
  let inByteOffset := pos % 8
  let s := if offset ≥ s.len then s.growStorage (offset + 1 - s.len) else s
  { s with
    bits := ⟨s.bits.data.modify offset fun d => UInt8.ofNat (d.toNat ||| (1 <<< inByteOffset))⟩ }

/-- A `uint64_t` is shifted by less than its width. -/
def align (s : Stored) (shift : Nat) : Except Fault Stored :=
  if shift ≥ 64 then .error .undefinedBehaviour
  else
    let newSize := s.len >>> shift
    let newSize := if (newSize <<< shift) &&& s.len ≠ 0 then newSize + 1 else newSize
    .ok (s.resize (newSize <<< shift))

inductive Op where
  | set (pos : Nat)
  | unset (pos : Nat)
  | align (shift : Nat)
  deriving Repr, DecidableEq

def step (s : Stored) : Op → Except Fault Stored
  | .set pos => .ok (s.set pos)
  | .unset pos => .ok { s with bits := s.bits.unset pos }
  | .align shift => s.align shift

end Stored

open Stored (Op)

def idSet (b : DynamicBitSet) : Set Nat := {pos | b.isSet pos = true}

def Stored.Op.after (S : Set Nat) : Op → Set Nat
  | .set pos => insert pos S
  | .unset pos => S \ {pos}
  | .align _ => S

def Stored.RoundsUp (s s' : Stored) : Op → Prop
  | .align shift => 2 ^ shift ∣ s'.len ∧ s.len ≤ s'.len ∧ s'.len < s.len + 2 ^ shift
  | _ => True

/-- The accessors that count no ids and look for no bound of them. -/
structure Agrees (b : DynamicBitSet) (S : Set Nat) : Prop where
  isSet : ∀ pos, b.isSet pos = true ↔ pos ∈ S
  iterate : ∃ l, (∀ fuel > l.length, b.iterate fuel b.cbegin = some l) ∧ l.Pairwise (· < ·) ∧
    ∀ pos, pos ∈ l ↔ pos ∈ S
  putInto : b.putInto.Pairwise (· < ·) ∧ ∀ pos, pos ∈ b.putInto ↔ pos ∈ S
  upperBound : ∀ pos ∈ S, pos < b.upperBound
  equal : ∀ other : DynamicBitSet, b.equal other = true ↔ other.idSet = S

structure Describes (b : DynamicBitSet) (S : Set Nat) : Prop extends Agrees b S where
  size : b.size = S.ncard
  smallestEntry : S.Nonempty → IsLeast S b.smallestEntry
  largestEntry : S.Nonempty → IsGreatest S b.largestEntry

structure Observed (b : DynamicBitSet) (S : Set Nat) : Prop extends Agrees b S where
  size : b.size = S.ncard % 2 ^ 32
  smallestEntry : S.Nonempty →
    (IsLeast S b.smallestEntry ↔ ∀ d, b.firstByte = some d → popCount 8 d.toNat = 1)
  largestEntry : S.Nonempty → ¬ IsGreatest S b.largestEntry

/-- A property of the bit set and its ids holds in every state of a run, in which the operations
have their effect. -/
def Along (P : DynamicBitSet → Set Nat → Prop) : Stored → Set Nat → List Op → Prop
  | s, S, [] => P s.bits S
  | s, S, op :: ops =>
    P s.bits S ∧ ∃ s', s.step op = .ok s' ∧ s.RoundsUp s' op ∧ Along P s' (op.after S) ops

/-- The bytes that an operation takes in are zero, and `align` meets a size that it rounds up. -/
def Stored.Accepts (s : Stored) : Op → Prop
  | .set pos => ∀ d ∈ s.behind.take (pos / 8 + 1 - s.len), d = 0
  | .unset _ => True
  | .align shift => shift < 64 ∧ (s.len = 0 ∨
      2 ^ shift ≤ s.len ∧ ¬ 2 ^ shift ∣ s.len ∧
        ∀ d ∈ s.behind.take (2 ^ shift - s.len % 2 ^ shift), d = 0)

def Stored.Meets : Stored → List Op → Prop
  | _, [] => True
  | s, op :: ops => s.Accepts op ∧ ∀ s', s.step op = .ok s' → Stored.Meets s' ops

variable (b : DynamicBitSet)

theorem idSet_eq : b.idSet = {pos | pos ∈ b.ids} := by
  ext pos
  exact mem_ids.symm

theorem ncard_idSet : b.idSet.ncard = b.ids.length := by
  have hnodup : b.ids.Nodup := b.pairwise_ids.imp fun hlt => Nat.ne_of_lt hlt
  have hcoe : b.idSet = ↑b.ids.toFinset := by
    rw [idSet_eq, List.coe_toFinset]
  rw [hcoe, Set.ncard_coe_finset, List.toFinset_card_of_nodup hnodup]

theorem nonempty_idSet {b : DynamicBitSet} : b.idSet.Nonempty ↔ b.ids ≠ [] := by
  rw [idSet_eq]
  constructor
  · rintro ⟨pos, hpos⟩
    exact List.ne_nil_of_mem hpos
  · exact List.exists_mem_of_ne_nil b.ids

theorem agrees_idSet : Agrees b b.idSet := by
  have hmem : ∀ pos, pos ∈ b.ids ↔ pos ∈ b.idSet := fun pos => mem_ids
  refine ⟨fun pos => Iff.rfl, ?_, ?_, fun pos hpos => lt_upperBound hpos, ?_⟩
  · exact ⟨b.ids, fun fuel hfuel => iterate_cbegin b hfuel, b.pairwise_ids, hmem⟩
  · rw [putInto_eq]
    exact ⟨b.pairwise_ids, hmem⟩
  · intro other
    rw [equal_iff, Set.ext_iff]
    refine forall_congr' fun pos => ?_
    change _ ↔ (other.isSet pos = true ↔ b.isSet pos = true)
    rw [eq_comm, Bool.eq_iff_iff]

theorem isLeast_idSet {b : DynamicBitSet} {m x : Nat} {rest : List Nat} (h : b.ids = x :: rest) :
    IsLeast b.idSet m ↔ m = x := by
  have hpair := b.pairwise_ids
  rw [h, List.pairwise_cons] at hpair
  have hleast : IsLeast b.idSet x := by
    rw [idSet_eq, h]
    refine ⟨List.mem_cons_self, ?_⟩
    intro y hy
    rcases List.mem_cons.mp hy with rfl | hy
    · exact Nat.le_refl _
    · exact Nat.le_of_lt (hpair.1 y hy)
  constructor
  · exact fun hm => hm.unique hleast
  · rintro rfl
    exact hleast

theorem isLeast_smallestEntry {b : DynamicBitSet} (h : b.ids ≠ []) :
    IsLeast b.idSet b.smallestEntry ↔ ∀ d, b.firstByte = some d → popCount 8 d.toNat = 1 := by
  obtain ⟨d, first, rest, hfirst, hids, hcount, hlast⟩ := smallestEntry_mem h
  have hpair := b.pairwise_ids
  have hall : (∀ c, b.firstByte = some c → popCount 8 c.toNat = 1) ↔ first.length = 1 := by
    rw [hcount, hfirst]
    simp
  rw [hall]
  cases first with
  | nil => cases hlast
  | cons x xs =>
    rw [isLeast_idSet hids]
    rw [hids, List.pairwise_append, List.pairwise_cons] at hpair
    cases xs with
    | nil => simpa using hlast.symm
    | cons y ys =>
      have hmem : b.smallestEntry ∈ y :: ys := by
        apply List.mem_of_getLast?
        rwa [List.getLast?_cons_cons] at hlast
      have hgt := hpair.1.1 _ hmem
      constructor
      · intro heq
        omega
      · intro hlen
        simp at hlen

theorem not_isGreatest_largestEntry {b : DynamicBitSet} (h : b.ids ≠ []) :
    ¬ IsGreatest b.idSet b.largestEntry := by
  intro hgreatest
  have hmem := List.getLast_mem h
  have hsucc := largestEntry_succ (List.getLast?_eq_some_getLast h)
  have hle : b.ids.getLast h ≤ b.largestEntry := hgreatest.2 (mem_ids.mp hmem)
  have hlast : b.largestEntry ≤ b.ids.getLast h :=
    (b.pairwise_ids.imp fun hlt => Nat.le_of_lt hlt).rel_getLast (mem_ids.mpr hgreatest.1)
  omega

theorem observed_idSet : Observed b b.idSet := by
  refine ⟨agrees_idSet b, ?_, ?_, ?_⟩
  · rw [size_eq, ncard_idSet]
    rfl
  · intro h
    exact isLeast_smallestEntry (nonempty_idSet.mp h)
  · intro h
    exact not_isGreatest_largestEntry (nonempty_idSet.mp h)

theorem Agrees.eq_idSet {b : DynamicBitSet} {S : Set Nat} (h : Agrees b S) : S = b.idSet := by
  ext pos
  exact (h.isSet pos).symm

theorem describes_idSet : Describes b b.idSet ↔ b.ids = [] := by
  constructor
  · intro h
    by_contra hne
    exact not_isGreatest_largestEntry hne (h.largestEntry (nonempty_idSet.mpr hne))
  · intro hnil
    have hempty : ¬ b.idSet.Nonempty := fun hne => nonempty_idSet.mp hne hnil
    refine ⟨agrees_idSet b, ?_, fun h => absurd h hempty, fun h => absurd h hempty⟩
    rw [size_eq, ncard_idSet, hnil]
    rfl

theorem idSet_set (pos : Nat) : (b.set pos).idSet = insert pos b.idSet := by
  ext q
  change (b.set pos).isSet q = true ↔ q = pos ∨ b.isSet q = true
  rw [isSet_set, Bool.or_eq_true, decide_eq_true_eq]

theorem isSet_unset (pos q : Nat) : (b.unset pos).isSet q = (b.isSet q && decide (q ≠ pos)) := by
  rw [isSet_eq, isSet_eq, unset]
  by_cases hlen : pos / 8 < b.data.length
  · simp only [if_pos hlen]
    rw [bit_modify _ _ hlen]
    by_cases hbyte : q / 8 = pos / 8
    · have hlt : q % 8 < 8 := Nat.mod_lt q (by decide)
      have hsame : decide (pos % 8 = q % 8) = decide (q = pos) := by
        apply decide_eq_decide.mpr
        omega
      rw [if_pos hbyte, testBit_and_not _ _ hlt, UInt8.toNat_ofNat', Nat.testBit_mod_two_pow,
        Nat.shiftLeft_eq, Nat.one_mul, Nat.testBit_two_pow, hsame, bit, hbyte]
      simp [hlt]
    · have hne : q ≠ pos := by
        rintro rfl
        exact hbyte rfl
      rw [if_neg hbyte]
      simp [hne]
  · simp only [if_neg hlen]
    by_cases hpos : q = pos
    · rw [hpos, bit_of_length_le (Nat.le_of_not_lt hlen)]
      rfl
    · simp [hpos]

theorem idSet_unset (pos : Nat) : (b.unset pos).idSet = b.idSet \ {pos} := by
  ext q
  change (b.unset pos).isSet q = true ↔ b.isSet q = true ∧ q ∉ ({pos} : Set Nat)
  rw [isSet_unset, Bool.and_eq_true, decide_eq_true_eq, Set.mem_singleton_iff]

namespace Stored

theorem taken_zero_iff (behind : Bytes) (byte : Nat) :
    (∀ d ∈ (behind ++ List.replicate byte 0).take byte, d = 0) ↔ ∀ d ∈ behind.take byte, d = 0 := by
  rw [List.take_append]
  constructor
  · exact fun h d hd => h d (List.mem_append_left _ hd)
  · intro h d hd
    rcases List.mem_append.mp hd with hd | hd
    · exact h d hd
    · exact List.eq_of_mem_replicate (List.mem_of_mem_take hd)

theorem length_taken (behind : Bytes) (byte : Nat) :
    ((behind ++ List.replicate byte 0).take byte).length = byte := by
  rw [List.length_take, List.length_append, List.length_replicate]
  omega

theorem bits_growStorage {s : Stored} {byte : Nat} (h : ∀ d ∈ s.behind.take byte, d = 0) :
    (s.growStorage byte).bits = ⟨s.bits.data ++ List.replicate byte 0⟩ := by
  rw [growStorage, List.eq_replicate_iff.mpr ⟨length_taken _ _, (taken_zero_iff _ _).mpr h⟩]

theorem bits_set {s : Stored} {pos : Nat} (h : s.Accepts (.set pos)) :
    (s.set pos).bits = s.bits.set pos := by
  rw [set, DynamicBitSet.set]
  by_cases hgrow : pos / 8 ≥ s.len
  · have hgrow' : pos / 8 ≥ s.bits.data.length := hgrow
    simp only [if_pos hgrow, if_pos hgrow', bits_growStorage h]
    rfl
  · have hgrow' : ¬ pos / 8 ≥ s.bits.data.length := hgrow
    simp only [if_neg hgrow, if_neg hgrow']

variable (s : Stored)

theorem idSet_growStorage_iff (byte : Nat) :
    (s.growStorage byte).bits.idSet = s.bits.idSet ↔ ∀ d ∈ s.behind.take byte, d = 0 := by
  have hsame : (s.growStorage byte).bits.idSet = s.bits.idSet ↔
      ∀ pos, (s.growStorage byte).bits.isSet pos = s.bits.isSet pos := by
    rw [Set.ext_iff]
    refine forall_congr' fun pos => ?_
    rw [Bool.eq_iff_iff]
    rfl
  rw [hsame, isSet_congr_iff, ← taken_zero_iff]
  have hall := all_zero_iff ((s.behind ++ List.replicate byte 0).take byte)
  simp only [List.all_eq_true, decide_eq_true_eq] at hall
  rw [hall, growStorage]
  constructor
  · intro h i
    have hi := h (s.bits.data.length + i)
    rwa [List.getD_append_right _ _ _ _ (Nat.le_add_right _ i), Nat.add_sub_cancel_left,
      List.getD_eq_default _ _ (Nat.le_add_right _ i)] at hi
  · intro h i
    rcases Nat.lt_or_ge i s.bits.data.length with hlt | hge
    · exact List.getD_append _ _ _ _ hlt
    · rw [List.getD_append_right _ _ _ _ hge, h, List.getD_eq_default _ _ hge]

theorem shifted_and (n shift : Nat) : ((n >>> shift) <<< shift) &&& n = (n >>> shift) <<< shift := by
  apply Nat.eq_of_testBit_eq
  intro i
  rw [Nat.testBit_and, Nat.testBit_shiftLeft, Nat.testBit_shiftRight]
  by_cases hi : i ≥ shift
  · have hsum : shift + (i - shift) = i := by omega
    rw [hsum]
    cases n.testBit i <;> simp
  · simp [hi]

theorem align_eq {shift : Nat} (h : shift < 64) :
    s.align shift = .ok (s.resize
      (if 2 ^ shift ≤ s.len then s.len - s.len % 2 ^ shift + 2 ^ shift else 0)) := by
  have hdown : (s.len >>> shift) <<< shift = s.len - s.len % 2 ^ shift := by
    rw [Nat.shiftRight_eq_div_pow, Nat.shiftLeft_eq, Nat.mul_comm]
    have hdiv := Nat.div_add_mod s.len (2 ^ shift)
    omega
  have hand : (s.len - s.len % 2 ^ shift) &&& s.len = s.len - s.len % 2 ^ shift := by
    rw [← hdown, shifted_and]
  have hpos := Nat.two_pow_pos shift
  rw [align, if_neg (Nat.not_le_of_lt h)]
  simp only [hdown, hand]
  by_cases hle : 2 ^ shift ≤ s.len
  · have hmod := Nat.mod_lt s.len hpos
    have hne : s.len - s.len % 2 ^ shift ≠ 0 := by omega
    rw [if_pos hle, if_pos hne, Nat.shiftLeft_eq, Nat.add_mul, Nat.one_mul, ← Nat.shiftLeft_eq, hdown]
  · have hzero : s.len - s.len % 2 ^ shift = 0 := by
      rw [Nat.mod_eq_of_lt (Nat.lt_of_not_le hle), Nat.sub_self]
    rw [if_neg hle, hzero, if_neg (not_not.mpr rfl), hdown, hzero]

theorem len_growStorage (byte : Nat) : (s.growStorage byte).len = s.len + byte := by
  rw [len, growStorage, List.length_append, length_taken]
  rfl

theorem align_iff (shift : Nat) :
    (∃ s', s.align shift = .ok s' ∧ s.RoundsUp s' (.align shift) ∧ s'.bits.idSet = s.bits.idSet) ↔
      s.Accepts (.align shift) := by
  by_cases hshift : shift < 64
  · rw [align_eq s hshift]
    have hpos := Nat.two_pow_pos shift
    have hmod := Nat.mod_lt s.len hpos
    by_cases hle : 2 ^ shift ≤ s.len
    · have hmore : s.len - s.len % 2 ^ shift + 2 ^ shift - s.len = 2 ^ shift - s.len % 2 ^ shift := by
        omega
      have hgrow : s.resize (s.len - s.len % 2 ^ shift + 2 ^ shift) =
          s.growStorage (2 ^ shift - s.len % 2 ^ shift) := by
        rw [resize, if_neg (by omega), hmore]
      have hlen : s.len + (2 ^ shift - s.len % 2 ^ shift) =
          2 ^ shift * (s.len / 2 ^ shift + 1) := by
        have hdiv := Nat.div_add_mod s.len (2 ^ shift)
        rw [Nat.mul_succ]
        omega
      rw [if_pos hle, hgrow]
      constructor
      · rintro ⟨s', hok, hround, hids⟩
        cases hok
        rw [idSet_growStorage_iff] at hids
        refine ⟨hshift, .inr ⟨hle, ?_, hids⟩⟩
        intro hdvd
        have hlt := hround.2.2
        rw [len_growStorage, Nat.mod_eq_zero_of_dvd hdvd] at hlt
        omega
      · rintro ⟨-, hzero | ⟨-, hdvd, hids⟩⟩
        · omega
        · refine ⟨_, rfl, ?_, (idSet_growStorage_iff s _).mpr hids⟩
          have hne : s.len % 2 ^ shift ≠ 0 := fun hzero => hdvd (Nat.dvd_of_mod_eq_zero hzero)
          rw [RoundsUp, len_growStorage]
          refine ⟨?_, by omega, by omega⟩
          rw [hlen]
          exact Nat.dvd_mul_right _ _
    · rw [if_neg hle]
      constructor
      · rintro ⟨s', hok, hround, -⟩
        cases hok
        refine ⟨hshift, .inl ?_⟩
        by_contra hne
        have hshrunk : (s.resize 0).len = 0 := by
          rw [resize, if_pos (Nat.pos_of_ne_zero hne), len, List.take_zero]
          rfl
        have hge := hround.2.1
        omega
      · rintro ⟨-, hzero | ⟨hge, -⟩⟩
        · have hgrow : s.resize 0 = s.growStorage 0 := by
            rw [resize, hzero, if_neg (Nat.lt_irrefl 0)]
          refine ⟨_, rfl, ?_, ?_⟩
          · rw [hgrow, RoundsUp, len_growStorage, hzero]
            exact ⟨Nat.dvd_zero _, Nat.le_refl _, by omega⟩
          · rw [hgrow, idSet_growStorage_iff, List.take_zero]
            simp
        · exact absurd hge hle
  · constructor
    · rintro ⟨s', hok, -⟩
      rw [align, if_pos (Nat.le_of_not_lt hshift)] at hok
      cases hok
    · exact fun h => absurd h.1 hshift

theorem step_of_accepts {s : Stored} {op : Op} (h : s.Accepts op) :
    ∃ s', s.step op = .ok s' ∧ s.RoundsUp s' op ∧ s'.bits.idSet = op.after s.bits.idSet := by
  cases op with
  | set pos =>
    refine ⟨_, rfl, trivial, ?_⟩
    rw [bits_set h, idSet_set]
    rfl
  | unset pos => exact ⟨_, rfl, trivial, idSet_unset s.bits pos⟩
  | align shift => exact (align_iff s shift).mpr h

end Stored

theorem along_observed {s : Stored} {ops : List Op} (h : s.Meets ops) :
    Along Observed s s.bits.idSet ops := by
  induction ops generalizing s with
  | nil => exact observed_idSet s.bits
  | cons op ops ih =>
    obtain ⟨s', hok, hround, hids⟩ := Stored.step_of_accepts h.1
    refine ⟨observed_idSet s.bits, s', hok, hround, ?_⟩
    rw [← hids]
    exact ih (h.2 s' hok)

theorem Along.head {P : DynamicBitSet → Set Nat → Prop} {s : Stored} {S : Set Nat} {ops : List Op}
    (h : Along P s S ops) : P s.bits S := by
  cases ops with
  | nil => exact h
  | cons op ops => exact h.1

theorem ids_eq_nil_iff : b.ids = [] ↔ b.idSet = ∅ := by
  rw [← Set.not_nonempty_iff_eq_empty, nonempty_idSet, not_not]

theorem after_eq_empty_iff (op : Op) : op.after ∅ = ∅ ↔ ∀ pos, op ≠ .set pos := by
  cases op with
  | set pos | unset pos | align shift => simp [Stored.Op.after]

theorem along_describes_iff (s : Stored) (ops : List Op) :
    Along Describes s s.bits.idSet ops ↔
      s.bits.ids = [] ∧ (∀ pos, .set pos ∉ ops) ∧ s.Meets ops := by
  induction ops generalizing s with
  | nil =>
    rw [Along, describes_idSet]
    simp [Stored.Meets]
  | cons op ops ih =>
    constructor
    · rintro ⟨hdesc, s', hok, hround, hrest⟩
      have hids := hrest.head.toAgrees.eq_idSet
      have hnil := (describes_idSet s.bits).mp hdesc
      rw [hids, ih] at hrest
      obtain ⟨hnil', hops, hmeets⟩ := hrest
      have hafter := hids.trans ((ids_eq_nil_iff _).mp hnil')
      rw [(ids_eq_nil_iff _).mp hnil, after_eq_empty_iff] at hafter
      refine ⟨hnil, ?_, ?_, ?_⟩
      · intro pos hpos
        rcases List.mem_cons.mp hpos with rfl | hpos
        · exact hafter pos rfl
        · exact hops pos hpos
      · cases op with
        | set pos => exact absurd rfl (hafter pos)
        | unset pos => trivial
        | align shift => exact (Stored.align_iff s shift).mp ⟨s', hok, hround, hids.symm⟩
      · intro t ht
        cases hok.symm.trans ht
        exact hmeets
    · rintro ⟨hnil, hops, hmeets⟩
      obtain ⟨s', hok, hround, hids⟩ := Stored.step_of_accepts hmeets.1
      have hafter : ∀ pos, op ≠ .set pos := by
        rintro pos rfl
        exact hops pos List.mem_cons_self
      have hnil' : s'.bits.ids = [] := by
        rw [ids_eq_nil_iff, hids, (ids_eq_nil_iff _).mp hnil, after_eq_empty_iff]
        exact hafter
      refine ⟨(describes_idSet s.bits).mpr hnil, s', hok, hround, ?_⟩
      rw [← hids, ih]
      exact ⟨hnil', fun pos hpos => hops pos (List.mem_cons_of_mem _ hpos), hmeets.2 s' hok⟩

/-- The largest entry is one too small. What else the accessors miss is the smallest id of a byte
with several, and a number of ids from `2 ^ 32` on. -/
theorem dynamicBitSet_describes_iff (s : Stored) (ops : List Op) :
    (Along Describes s s.bits.idSet ops ↔
        s.bits.ids = [] ∧ (∀ pos, .set pos ∉ ops) ∧ s.Meets ops) ∧
      (s.Meets ops → Along Observed s s.bits.idSet ops) :=
  ⟨along_describes_iff s ops, along_observed⟩

/-- A single id. -/
theorem not_along_describes :
    ¬ ∀ (s : Stored) (ops : List Op), Along Describes s s.bits.idSet ops := by
  intro h
  have hrun := h ⟨empty, []⟩ [.set 0]
  obtain ⟨-, s', hok, -, hdesc⟩ := hrun
  cases hok
  have hgreatest := hdesc.largestEntry ⟨0, Set.mem_insert 0 _⟩
  have hvalue : (Stored.set ⟨empty, []⟩ 0).bits.largestEntry = 2 ^ 64 - 1 := by decide
  rw [hvalue] at hgreatest
  rcases hgreatest.1 with hzero | hmem
  · cases hzero
  · cases hmem

end Sserialize.DynamicBitSet
