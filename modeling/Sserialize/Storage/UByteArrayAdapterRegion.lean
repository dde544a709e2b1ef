import Sserialize.Storage.Bytes

/-!
# Regions of `UByteArrayAdapter`

An adapter shows a range of its storage, together with a get and a put position that count from the
start of the range.
-/

namespace Sserialize.UByteArrayAdapter

structure Region where
  storage : Bytes
  offSet : Nat
  len : Nat
  getPtr : Nat
  putPtr : Nat
  fits : offSet + len ≤ storage.length

namespace Region

def bytes (a : Region) : Bytes := (a.storage.drop a.offSet).take a.len

/-! ## The functions that move the start of the range -/

/-- `m_offSet += n` and `m_len -= n`, for an `n` that was compared with the length. -/
def advance (a : Region) (n : Nat) (h : n ≤ a.len) : Region :=
  { a with
    offSet := a.offSet + n
    len := a.len - n
    fits := by
      have hfits := a.fits
      omega }

def shrinkToPutPtr (a : Region) : Region :=
  let putPtr := if a.putPtr > a.len then a.len else a.putPtr
  let r : Region := { a.advance putPtr (by grind) with putPtr := 0 }
  if r.getPtr < r.putPtr then { r with getPtr := 0 } else { r with getPtr := r.getPtr - r.putPtr }

def shrinkToGetPtr (a : Region) : Region :=
  let getPtr := if a.getPtr > a.len then a.len else a.getPtr
  let r : Region := { a.advance getPtr (by grind) with getPtr := 0 }
  if r.putPtr < r.getPtr then { r with putPtr := 0 } else { r with putPtr := r.putPtr - r.getPtr }

def plusAssign (a : Region) (offSet : Nat) : Region :=
  let offSet := if offSet > a.len then a.len else offSet
  let r := a.advance offSet (by grind)
  let r : Region := { r with getPtr := if offSet > r.getPtr then 0 else r.getPtr - offSet }
  { r with putPtr := if offSet > r.putPtr then 0 else r.putPtr - offSet }

def constructedPtr (addOffset len ptr adapterPtr : Nat) : Nat :=
  if addOffset > ptr then 0
  else
    let ptr := adapterPtr - addOffset
    if ptr ≥ len then len else ptr

def ofOffset (adapter : Region) (addOffset : Nat) : Region :=
  let addOffset := if addOffset > adapter.len then adapter.len else addOffset
  let r := advance { adapter with getPtr := 0, putPtr := 0 } addOffset (by grind)
  let r : Region := { r with getPtr := constructedPtr addOffset r.len r.getPtr adapter.getPtr }
  { r with putPtr := constructedPtr addOffset r.len r.putPtr adapter.putPtr }

def plus (a : Region) (offSet : Nat) : Region := a.ofOffset offSet

/-! ## Rebased positions -/

/-- Leading bytes are dropped, and both positions count from the bytes that remain. -/
structure Rebases (a : Region) (cut : Nat) (r : Region) : Prop where
  bytes : r.bytes = a.bytes.drop cut
  getPtr : r.getPtr = a.getPtr - min cut a.len
  putPtr : r.putPtr = a.putPtr - min cut a.len
  getPtr_le : r.getPtr ≤ r.bytes.length
  putPtr_le : r.putPtr ≤ r.bytes.length

/-- All four functions rebase, and the constructed adapter is the one shifted in place. -/
structure ShiftsAlike (a : Region) (offSet : Nat) : Prop where
  shrinkToGetPtr : Rebases a a.getPtr a.shrinkToGetPtr
  shrinkToPutPtr : Rebases a a.putPtr a.shrinkToPutPtr
  plus : Rebases a offSet (a.plus offSet)
  plusAssign : Rebases a offSet (a.plusAssign offSet)
  plus_eq : a.plus offSet = a.plusAssign offSet

@[simp] theorem length_bytes (a : Region) : a.bytes.length = a.len := by
  have hfits := a.fits
  rw [bytes, List.length_take, List.length_drop]
  omega

@[ext] theorem ext {a b : Region} (hstorage : a.storage = b.storage) (hoffSet : a.offSet = b.offSet)
    (hlen : a.len = b.len) (hget : a.getPtr = b.getPtr) (hput : a.putPtr = b.putPtr) : a = b := by
  cases a
  cases b
  congr

def behind (a : Region) (cut getPtr putPtr : Nat) : Region :=
  { a.advance (min cut a.len) (Nat.min_le_right _ _) with getPtr := getPtr, putPtr := putPtr }

variable (a : Region)

theorem bytes_behind (cut getPtr putPtr : Nat) :
    (a.behind cut getPtr putPtr).bytes = a.bytes.drop cut := by
  rw [bytes, bytes, behind, advance, List.drop_take, List.drop_drop]
  dsimp only
  rcases Nat.le_total cut a.len with hle | hle
  · rw [Nat.min_eq_left hle]
  · rw [Nat.min_eq_right hle, Nat.sub_self, Nat.sub_eq_zero_of_le hle, List.take_zero, List.take_zero]

theorem rebases_behind_iff (cut getPtr putPtr : Nat) :
    Rebases a cut (a.behind cut getPtr putPtr) ↔
      (getPtr = a.getPtr - min cut a.len ∧ putPtr = a.putPtr - min cut a.len) ∧
        a.getPtr ≤ a.len ∧ a.putPtr ≤ a.len := by
  have hlen : (a.behind cut getPtr putPtr).bytes.length = a.len - min cut a.len := length_bytes _
  constructor
  · rintro ⟨-, hget, hput, hgetle, hputle⟩
    rw [hlen] at hgetle hputle
    change getPtr = _ at hget
    change putPtr = _ at hput
    change getPtr ≤ _ at hgetle
    change putPtr ≤ _ at hputle
    omega
  · rintro ⟨⟨hget, hput⟩, hgetle, hputle⟩
    refine ⟨bytes_behind a cut getPtr putPtr, hget, hput, ?_, ?_⟩
    · rw [hlen]
      change getPtr ≤ _
      omega
    · rw [hlen]
      change putPtr ≤ _
      omega

theorem ite_gt_eq_min (m n : Nat) : (if m > n then n else m) = min m n := by
  split <;> omega

/-! ## What the functions give -/

theorem shrinkToPutPtr_eq : a.shrinkToPutPtr = a.behind a.putPtr a.getPtr 0 := by
  apply ext <;> simp [shrinkToPutPtr, behind, advance, ite_gt_eq_min]

theorem shrinkToGetPtr_eq : a.shrinkToGetPtr = a.behind a.getPtr 0 a.putPtr := by
  apply ext <;> simp [shrinkToGetPtr, behind, advance, ite_gt_eq_min]

theorem plusAssign_eq (offSet : Nat) :
    a.plusAssign offSet =
      a.behind offSet (a.getPtr - min offSet a.len) (a.putPtr - min offSet a.len) := by
  apply ext <;> simp [plusAssign, behind, advance, ite_gt_eq_min]
  all_goals omega

theorem plus_eq (offSet : Nat) :
    a.plus offSet = a.behind offSet (if min offSet a.len = 0 then min a.getPtr a.len else 0)
      (if min offSet a.len = 0 then min a.putPtr a.len else 0) := by
  have hconstructed : ∀ n len ptr, constructedPtr n (len - n) 0 ptr =
      if n = 0 then min ptr len else 0 := by
    intro n len ptr
    rw [constructedPtr]
    rcases Nat.eq_zero_or_pos n with rfl | hpos
    · simp only [gt_iff_lt, Nat.lt_irrefl, if_false, Nat.sub_zero, if_true]
      split <;> omega
    · rw [if_pos hpos, if_neg (Nat.ne_of_gt hpos)]
  apply ext <;> simp [plus, ofOffset, behind, advance, ite_gt_eq_min, hconstructed]

/-! ## When the positions are rebased -/

theorem rebases_plusAssign_iff (offSet : Nat) :
    Rebases a offSet (a.plusAssign offSet) ↔ a.getPtr ≤ a.len ∧ a.putPtr ≤ a.len := by
  rw [plusAssign_eq, rebases_behind_iff]
  exact and_iff_right ⟨rfl, rfl⟩

theorem rebases_shrinkToGetPtr_iff :
    Rebases a a.getPtr a.shrinkToGetPtr ↔
      a.getPtr ≤ a.len ∧ a.putPtr ≤ a.len ∧ (a.getPtr = 0 ∨ a.putPtr = 0) := by
  rw [shrinkToGetPtr_eq, rebases_behind_iff]
  omega

theorem rebases_shrinkToPutPtr_iff :
    Rebases a a.putPtr a.shrinkToPutPtr ↔
      a.getPtr ≤ a.len ∧ a.putPtr ≤ a.len ∧ (a.getPtr = 0 ∨ a.putPtr = 0) := by
  rw [shrinkToPutPtr_eq, rebases_behind_iff]
  omega

theorem rebases_plus_iff (offSet : Nat) (hget : a.getPtr ≤ a.len) (hput : a.putPtr ≤ a.len) :
    Rebases a offSet (a.plus offSet) ↔
      min offSet a.len = 0 ∨ (a.getPtr ≤ offSet ∧ a.putPtr ≤ offSet) := by
  rw [plus_eq, rebases_behind_iff]
  split <;> omega

theorem plus_eq_plusAssign_iff (offSet : Nat) (hget : a.getPtr ≤ a.len) (hput : a.putPtr ≤ a.len) :
    a.plus offSet = a.plusAssign offSet ↔
      min offSet a.len = 0 ∨ (a.getPtr ≤ offSet ∧ a.putPtr ≤ offSet) := by
  rw [plus_eq, plusAssign_eq, behind, behind]
  simp only [Region.mk.injEq, true_and]
  split <;> omega

/-- The positions are inside the range, one of them is at its start, and the offset does not cut in
front of the other one. -/
def RebasesWhen (a : Region) (offSet : Nat) : Prop :=
  a.getPtr ≤ a.len ∧ a.putPtr ≤ a.len ∧ (a.getPtr = 0 ∨ a.putPtr = 0) ∧
    (offSet = 0 ∨ (a.getPtr ≤ offSet ∧ a.putPtr ≤ offSet))

theorem shiftsAlike_iff (a : Region) (offSet : Nat) :
    ShiftsAlike a offSet ↔ RebasesWhen a offSet := by
  constructor
  · intro h
    obtain ⟨hget, hput, hstart⟩ := (rebases_shrinkToGetPtr_iff a).mp h.shrinkToGetPtr
    have hcut := (rebases_plus_iff a offSet hget hput).mp h.plus
    refine ⟨hget, hput, hstart, ?_⟩
    omega
  · rintro ⟨hget, hput, hstart, hcut⟩
    have hcut' : min offSet a.len = 0 ∨ (a.getPtr ≤ offSet ∧ a.putPtr ≤ offSet) := by omega
    exact
      { shrinkToGetPtr := (rebases_shrinkToGetPtr_iff a).mpr ⟨hget, hput, hstart⟩
        shrinkToPutPtr := (rebases_shrinkToPutPtr_iff a).mpr ⟨hget, hput, hstart⟩
        plus := (rebases_plus_iff a offSet hget hput).mpr hcut'
        plusAssign := (rebases_plusAssign_iff a offSet).mpr ⟨hget, hput⟩
        plus_eq := (plus_eq_plusAssign_iff a offSet hget hput).mpr hcut' }

/-- Four bytes of which one is read and three are written. -/
theorem not_shiftsAlike : ¬ ∀ (a : Region) (offSet : Nat), ShiftsAlike a offSet := by
  intro h
  have hget := (h ⟨[1, 2, 3, 4], 0, 4, 1, 3, by decide⟩ 1).shrinkToGetPtr.putPtr
  revert hget
  decide

end Region

end Sserialize.UByteArrayAdapter
