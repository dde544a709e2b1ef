import Sserialize.ItemIndex.RleDECreator
import Sserialize.ItemIndex.RleDEReaders

namespace Sserialize.ItemIndexPrivateRleDE

/-- The local variables of `genericOp` for one of its operands. -/
structure Operand where
  data : UByteArrayAdapter
  indexIt : Nat
  size : Nat
  rle : Nat
  id : Nat
  val : Nat
  deriving Repr, DecidableEq

namespace Operand

def getNext (s : Operand) : Except Fault Operand := do
  let (val, data) ←
    if s.data.getPtr < s.data.size then s.data.getVlPackedUint32 else .ok (0, s.data)
  if val &&& 0x1 ≠ 0 then
    let rle := val >>> 1
    let (val, data) ← data.getVlPackedUint32
    return { s with data := data, rle := rle, val := val >>> 1 }
  else return { s with data := data, val := val >>> 1 }

def start (idx : ItemIndexPrivateRleDE) : Except Fault Operand := do
  let (val, data) ← (⟨idx.data, 0⟩ : UByteArrayAdapter).getVlPackedUint32
  if val &&& 0x1 ≠ 0 then
    let rle := val >>> 1
    let (val, data) ← data.getVlPackedUint32
    return { data, indexIt := 0, size := idx.size, rle, id := val >>> 1, val := val >>> 1 }
  else
    return { data, indexIt := 0, size := idx.size, rle := 0, id := val >>> 1, val := val >>> 1 }

def advance (s : Operand) : Except Fault Operand := do
  let s := if s.rle ≠ 0 then { s with rle := s.rle - 1 } else s
  let s ← if s.rle = 0 then s.getNext else .ok s
  return { s with id := u32 (s.id + s.val), indexIt := u32 (s.indexIt + 1) }

/-- The end of a fast path that took `myRle` elements of the run. -/
def advanceRun (s : Operand) (myRle : Nat) : Except Fault Operand := do
  let s := { s with
    rle := sub32 s.rle myRle
    indexIt := u32 (s.indexIt + myRle)
    id := u32 (s.id + s.val * sub32 myRle 1) }
  let s ← if s.rle = 0 then s.getNext else .ok s
  return { s with id := u32 (s.id + s.val) }

/-- How many elements of the run of `s` are smaller than `otherId`. -/
def smallerRle (s : Operand) (otherId : Nat) : Nat :=
  let myRle := u32 (sub32 (sub32 otherId s.id / s.val)
    (if sub32 otherId s.id % s.val > 0 then 0 else 1) + 1)
  min myRle s.rle

/-- The branch where `s` is behind `otherId`. -/
def stepSmaller (s : Operand) (otherId : Nat) (push : Bool) (creator : RleDECreator) :
    Except Fault (Operand × RleDECreator) :=
  if s.rle > 1 ∧ u32 (s.id + s.val) < otherId then
    -- the quotient has no value for a zero delta
    if s.val = 0 then .error .undefinedBehaviour
    else do
      let myRle := s.smallerRle otherId
      let creator := if push then creator.pushRle s.id s.val (sub32 myRle 1) else creator
      let s ← s.advanceRun myRle
      return (s, creator)
  else do
    let creator := if push then creator.pushBack s.id else creator
    let s ← s.advance
    return (s, creator)

/-- The remainder of `s`: its run, or its single id, and then its unread bytes. -/
def flushRemainder (s : Operand) (creator : RleDECreator) : Bytes :=
  if s.rle ≠ 0 then
    (creator.pushRle s.id s.val (s.rle - 1)).flushWithData s.data.unread
      (sub32 s.size (u32 (s.indexIt + s.rle)))
  else
    (creator.pushBack s.id).flushWithData s.data.unread (sub32 s.size (u32 (s.indexIt + 1)))

end Operand

def opRound (f : TFunc) (a b : Operand) (creator : RleDECreator) :
    Except Fault (Operand × Operand × RleDECreator) :=
  if a.id < b.id then do
    let (a, creator) ← a.stepSmaller b.id f.pushFirstSmaller creator
    return (a, b, creator)
  else if b.id < a.id then do
    let (b, creator) ← b.stepSmaller a.id f.pushSecondSmaller creator
    return (a, b, creator)
  else if a.rle > 2 ∧ b.rle > 2 ∧ a.val = b.val then do
    let myRle := min a.rle b.rle
    let creator := if f.pushEqual then creator.pushRle a.id a.val (sub32 myRle 1) else creator
    let a ← a.advanceRun myRle
    let b ← b.advanceRun myRle
    return (a, b, creator)
  else do
    let creator := if f.pushEqual then creator.pushBack a.id else creator
    let a ← a.advance
    let b ← b.advance
    return (a, b, creator)

/-- The loop. A round moves an index forward, so it ends before `rounds` are used up. -/
def opLoop (f : TFunc) :
    Nat → Operand → Operand → RleDECreator → Except Fault (Operand × Operand × RleDECreator)
  | 0, _, _, _ => .error .undefinedBehaviour
  | rounds + 1, a, b, creator =>
    if a.indexIt < a.size ∧ b.indexIt < b.size then do
      let (a, b, creator) ← opRound f a b creator
      opLoop f rounds a b creator
    else .ok (a, b, creator)

def genericOp (f : TFunc) (idx other : ItemIndexPrivateRleDE) :
    Except Fault ItemIndexPrivateRleDE := do
  let a ← Operand.start idx
  let b ← Operand.start other
  let (a, b, creator) ← opLoop f (idx.size + other.size + 1) a b RleDECreator.new
  let dest :=
    if f.pushFirstRemainder ∧ a.indexIt < a.size then a.flushRemainder creator
    else if f.pushSecondRemainder ∧ b.indexIt < b.size then b.flushRemainder creator
    else creator.flush
  ofData dest

def setOp (op : SetOp) (idx other : ItemIndexPrivateRleDE) : Except Fault ItemIndexPrivateRleDE :=
  genericOp op.func idx other

end Sserialize.ItemIndexPrivateRleDE

namespace Sserialize

open RleDE Ascending

namespace RleDECreator

theorem pushBack_same {c : RleDECreator} {delta : Nat} (hprev : c.prev + delta < 2 ^ 32)
    (hdelta : c.lastDiff = delta) :
    c.pushBack (c.prev + delta) = { c with
      rle := u32 (c.rle + 1), prev := c.prev + delta, count := u32 (c.count + 1) } := by
  have hdiff : sub32 (c.prev + delta) c.prev = delta := by
    rw [sub32_of_le (Nat.le_add_right _ _) hprev, Nat.add_sub_cancel_left]
  unfold pushBack
  simp only [hdiff, if_pos hdelta.symm]

theorem foldl_pushBack_same {c : RleDECreator} {delta : Nat} (length : Nat)
    (hprev : c.prev + length * delta < 2 ^ 32) (hdelta : c.lastDiff = delta)
    (hrle : c.rle < 2 ^ 32) (hcount : c.count < 2 ^ 32) :
    (sums c.prev (List.replicate length delta)).foldl pushBack c = { c with
      rle := u32 (c.rle + length)
      prev := c.prev + length * delta
      count := u32 (c.count + length) } := by
  induction length generalizing c with
  | zero => simp [sums, u32_of_lt hrle, u32_of_lt hcount]
  | succ length ih =>
    have hsplit : (length + 1) * delta = length * delta + delta := Nat.succ_mul length delta
    rw [List.replicate_succ, sums, List.foldl_cons, pushBack_same (by omega) hdelta]
    have hrec := ih (c := { c with
      rle := u32 (c.rle + 1), prev := c.prev + delta, count := u32 (c.count + 1) })
      (by simp only; omega) hdelta (u32_lt _) (u32_lt _)
    rw [hrec]
    have hmod : ∀ n : Nat, u32 (u32 (n + 1) + length) = u32 (n + (length + 1)) := by
      intro n
      unfold u32
      omega
    simp only [hmod, hsplit, Nat.add_assoc, Nat.add_comm delta]

variable (c : RleDECreator)

theorem pushBack_prev (id : Nat) : (c.pushBack id).prev = id := rfl

theorem pushBack_count_lt (id : Nat) : (c.pushBack id).count < 2 ^ 32 :=
  u32_lt _

theorem pushBack_rle_lt (id : Nat) : (c.pushBack id).rle < 2 ^ 32 := by
  unfold pushBack
  simp only
  split
  · exact u32_lt _
  · exact (by decide : 1 < 2 ^ 32)

theorem pushBack_lastDiff (id : Nat) : (c.pushBack id).lastDiff = sub32 id c.prev := by
  unfold pushBack
  simp only
  split
  · rename_i h
    exact h.symm
  · rfl

theorem pushRle_eq {nextId delta length : Nat} (hlt : nextId + length * delta < 2 ^ 32) :
    c.pushRle nextId delta length =
      (nextId :: sums nextId (List.replicate length delta)).foldl pushBack c := by
  unfold pushRle
  cases length with
  | zero => rfl
  | succ length =>
    have hsplit : (length + 1) * delta = length * delta + delta := Nat.succ_mul length delta
    have hu : u32 (nextId + delta) = nextId + delta := u32_of_lt (by omega)
    have hdiff : ((c.pushBack nextId).pushBack (nextId + delta)).lastDiff = delta := by
      rw [pushBack_lastDiff, pushBack_prev, sub32_of_le (Nat.le_add_right _ _) (by omega),
        Nat.add_sub_cancel_left]
    have hrun := foldl_pushBack_same (c := (c.pushBack nextId).pushBack (nextId + delta)) length
      (by rw [pushBack_prev]; omega) hdiff (pushBack_rle_lt _ _) (pushBack_count_lt _ _)
    rw [pushBack_prev] at hrun
    have hlast : u32 (nextId + delta + delta * length) = nextId + delta + length * delta := by
      rw [Nat.mul_comm delta, u32_of_lt (by omega)]
    simp only [ne_eq, Nat.succ_ne_zero, not_false_eq_true, if_true, hu, Nat.add_sub_cancel,
      pushBack_prev, hlast, List.replicate_succ, sums, List.foldl_cons, hrun]

end RleDECreator

namespace ItemIndexPrivateRleDE

namespace Operand

variable {s : Operand} {todo : List Word}

theorem getNext_word {w : Word} (hw : w.Fits) (hne : w.NonEmpty) (hrle : s.rle = 0)
    (hdata : Unread (w :: todo) s.data) :
    ∃ data val rle, s.getNext = .ok { s with data, val, rle } ∧ Unread todo data ∧
      w.deltas = val :: List.replicate (rle - 1) val ∧ (rle ≠ 0 ↔ w.isRun = true) ∧
      val < 2 ^ 31 ∧ rle < 2 ^ 31 := by
  have hmore : s.data.getPtr < s.data.size := by
    have hlen := congrArg List.length (show s.data.data.drop s.data.getPtr = _ from hdata)
    have hpos := List.length_pos_of_ne_nil (bytes_ne_nil w)
    rw [List.length_drop, payload_cons, List.length_append] at hlen
    unfold UByteArrayAdapter.size
    omega
  unfold getNext
  rw [if_pos hmore]
  cases w with
  | single d =>
    obtain ⟨data, hget, hdata'⟩ := getVlPackedUint32_single hw hdata
    rw [hget]
    simp only [ok_bind, two_mul_and_one, ne_eq, not_true, if_false, two_mul_shiftRight,
      except_pure]
    refine ⟨data, d, s.rle, rfl, hdata', ?_, ?_, hw, by omega⟩
    · rw [hrle]
      rfl
    · simp [hrle, Word.isRun]
  | run n d =>
    obtain ⟨data, data', hget, hget', hdata'⟩ := getVlPackedUint32_run hw hdata
    rw [hget]
    simp only [ok_bind, two_mul_add_one_and_one, ne_eq, one_ne_zero, not_false_eq_true, if_true,
      hget', two_mul_shiftRight, two_mul_add_one_shiftRight, except_pure]
    have hone : 0 < n := hne
    refine ⟨data', d, n, rfl, hdata', ?_, ?_, hw.2, hw.1⟩
    · rw [Word.deltas, ← List.replicate_succ, Nat.sub_add_cancel hone]
    · simp [Word.isRun, Nat.pos_iff_ne_zero.mp hone]

theorem getNext_end (hdata : Unread [] s.data) : s.getNext = .ok { s with val := 0 } := by
  have hdone : s.data.data.drop s.data.getPtr = [] := hdata
  have hend : ¬ s.data.getPtr < s.data.size := by
    have := List.drop_eq_nil_iff.mp hdone
    unfold UByteArrayAdapter.size
    omega
  unfold getNext
  rw [if_neg hend]
  rfl

def restDeltas (s : Operand) (todo : List Word) : List Nat :=
  List.replicate (s.rle - 1) s.val ++ deltasOf todo

/-- The variables describe an ascending stream whose unread words are `todo`. -/
structure Current (s : Operand) (todo : List Word) : Prop where
  unread : Unread todo s.data
  fits : ∀ w ∈ todo, w.Fits
  nonEmpty : ∀ w ∈ todo, w.NonEmpty
  ascending : ∀ d ∈ s.restDeltas todo, 0 < d
  inRange : s.id + (s.restDeltas todo).sum < 2 ^ 31
  index : s.indexIt + 1 + (s.restDeltas todo).length = s.size
  size : s.size < 2 ^ 32
  rle : s.rle < 2 ^ 31

/-- `rem` are the ids of the operand that are not consumed. -/
inductive Remaining (s : Operand) : List Nat → Prop where
  | done (hindex : s.indexIt = s.size) : Remaining s []
  | more (todo : List Word) (h : Current s todo) :
      Remaining s (s.id :: sums s.id (s.restDeltas todo))

theorem current_getNext {w : Word} (hrle : s.rle = 0) (hdata : Unread (w :: todo) s.data)
    (hfits : ∀ v ∈ w :: todo, v.Fits) (hne : ∀ v ∈ w :: todo, v.NonEmpty)
    (hasc : ∀ d ∈ deltasOf (w :: todo), 0 < d)
    (hrange : s.id + (deltasOf (w :: todo)).sum < 2 ^ 31) (hsize : s.size < 2 ^ 32) :
    ∃ data val rle, s.getNext = .ok { s with data, val, rle } ∧
      w.deltas = val :: List.replicate (rle - 1) val ∧ (rle ≠ 0 ↔ w.isRun = true) ∧
      u32 (s.id + val) = s.id + val ∧
      ∀ indexIt, indexIt + (deltasOf (w :: todo)).length = s.size →
        Current { s with data, val, rle, id := s.id + val, indexIt } todo := by
  obtain ⟨data, val, rle, hget, hdata', hdeltas, hisRun, hval, hrle'⟩ :=
    getNext_word (hfits w (by simp)) (hne w (by simp)) hrle hdata
  rw [deltasOf_cons, hdeltas, List.cons_append] at hrange hasc
  rw [List.sum_cons] at hrange
  refine ⟨data, val, rle, hget, hdeltas, hisRun, u32_of_lt (by omega), ?_⟩
  intro indexIt hindex
  rw [deltasOf_cons, hdeltas, List.cons_append, List.length_cons] at hindex
  exact {
    unread := hdata'
    fits := fun v hv => hfits v (List.mem_cons_of_mem _ hv)
    nonEmpty := fun v hv => hne v (List.mem_cons_of_mem _ hv)
    ascending := fun d hd => hasc d (List.mem_cons_of_mem _ hd)
    inRange := by simp only [restDeltas]; omega
    index := by simp only [restDeltas]; omega
    size := hsize
    rle := hrle' }

theorem remaining_getNext (hrle : s.rle = 0) (hdata : Unread todo s.data)
    (hfits : ∀ w ∈ todo, w.Fits) (hne : ∀ w ∈ todo, w.NonEmpty)
    (hasc : ∀ d ∈ deltasOf todo, 0 < d) (hrange : s.id + (deltasOf todo).sum < 2 ^ 31)
    (hsize : s.size < 2 ^ 32) :
    ∃ data val rle, s.getNext = .ok { s with data, val, rle } ∧
      ∀ indexIt, indexIt + (deltasOf todo).length = s.size →
        Remaining { s with data, val, rle, id := u32 (s.id + val), indexIt }
          (sums s.id (deltasOf todo)) := by
  cases todo with
  | nil =>
    refine ⟨s.data, 0, s.rle, getNext_end hdata, ?_⟩
    intro indexIt hindex
    exact Remaining.done (by simpa using hindex)
  | cons w todo =>
    obtain ⟨data, val, rle, hget, hdeltas, -, hid, hcur⟩ :=
      current_getNext hrle hdata hfits hne hasc hrange hsize
    refine ⟨data, val, rle, hget, ?_⟩
    intro indexIt hindex
    have hmore := Remaining.more todo (hcur indexIt hindex)
    rw [hid, deltasOf_cons, hdeltas, List.cons_append, sums]
    exact hmore

theorem current_run {k : Nat} (h : Current s todo) (hk : k < s.rle) (hpos : 0 < k) :
    ∀ indexIt, indexIt + (s.rle - k) + (deltasOf todo).length = s.size →
      Current { s with rle := s.rle - k, id := s.id + k * s.val, indexIt } todo := by
  intro indexIt hindex
  have hrle := h.rle
  have hrange := h.inRange
  have hasc := h.ascending
  have hsplit : List.replicate (s.rle - 1) s.val =
      List.replicate k s.val ++ List.replicate (s.rle - k - 1) s.val := by
    rw [← List.replicate_add]
    congr 1
    omega
  rw [restDeltas, hsplit, List.append_assoc] at hasc
  rw [restDeltas, hsplit, List.append_assoc, List.sum_append, List.sum_replicate_nat] at hrange
  exact {
    unread := h.unread
    fits := h.fits
    nonEmpty := h.nonEmpty
    ascending := fun d hd => hasc d (List.mem_append_right _ hd)
    inRange := by simp only [restDeltas]; omega
    index := by
      simp only [restDeltas, List.length_append, List.length_replicate]
      omega
    size := h.size
    rle := by simp only; omega }

section
variable {s : Operand} {todo : List Word}

theorem advance_run (h : Current s todo) (hrun : 1 < s.rle) :
    s.advance = .ok { s with
      rle := s.rle - 1, id := s.id + s.val, indexIt := s.indexIt + 1 } ∧
    Current { s with rle := s.rle - 1, id := s.id + s.val, indexIt := s.indexIt + 1 } todo ∧
    s.restDeltas todo = s.val :: (List.replicate (s.rle - 1 - 1) s.val ++ deltasOf todo) := by
  have hindex := h.index
  have hsize := h.size
  have hrange := h.inRange
  have hdeltas : s.restDeltas todo =
      s.val :: (List.replicate (s.rle - 1 - 1) s.val ++ deltasOf todo) := by
    obtain ⟨k, hk⟩ : ∃ k, s.rle = k + 2 := ⟨s.rle - 2, by omega⟩
    rw [restDeltas, hk]
    rfl
  have hcur := current_run h (k := 1) hrun Nat.one_pos (s.indexIt + 1) (by
    rw [restDeltas, List.length_append, List.length_replicate] at hindex
    omega)
  rw [Nat.one_mul] at hcur
  refine ⟨?_, hcur, hdeltas⟩
  rw [hdeltas, List.sum_cons] at hrange
  have hid : u32 (s.id + s.val) = s.id + s.val := u32_of_lt (by omega)
  have hindex' : u32 (s.indexIt + 1) = s.indexIt + 1 := u32_of_lt (by omega)
  have hs : (if s.rle ≠ 0 then { s with rle := s.rle - 1 } else s) =
      { s with rle := s.rle - 1 } := if_pos (by omega)
  have hmore : ¬ s.rle - 1 = 0 := by omega
  unfold advance
  simp only [hs, if_neg hmore, ok_bind, except_pure, hindex', hid]

theorem rle_step_of_le_one (hlast : s.rle ≤ 1) :
    (if s.rle ≠ 0 then { s with rle := s.rle - 1 } else s) = { s with rle := 0 } := by
  by_cases hzero : s.rle = 0
  · rw [if_neg (fun h => h hzero), ← hzero]
  · rw [if_pos hzero]
    congr 1
    omega

theorem restDeltas_of_le_one (hlast : s.rle ≤ 1) : s.restDeltas todo = deltasOf todo := by
  have hzero : s.rle - 1 = 0 := by omega
  rw [restDeltas, hzero, List.replicate_zero, List.nil_append]

theorem advance_word {w : Word} (h : Current s (w :: todo)) (hlast : s.rle ≤ 1) :
    ∃ data val rle, Operand.getNext { s with rle := 0 } = .ok { s with data, val, rle } ∧
      s.advance = .ok { s with
        data, val, rle, id := s.id + val, indexIt := s.indexIt + 1 } ∧
      Current { s with data, val, rle, id := s.id + val, indexIt := s.indexIt + 1 } todo ∧
      w.deltas = val :: List.replicate (rle - 1) val ∧ (rle ≠ 0 ↔ w.isRun = true) := by
  have hindex := h.index
  have hsize := h.size
  have hrange := h.inRange
  have hasc := h.ascending
  rw [restDeltas_of_le_one hlast] at hindex hrange hasc
  obtain ⟨data, val, rle, hget, hdeltas, hisRun, hid, hcur⟩ :=
    current_getNext (s := { s with rle := 0 }) rfl h.unread h.fits h.nonEmpty hasc hrange hsize
  refine ⟨data, val, rle, hget, ?_, hcur (s.indexIt + 1) hindex, hdeltas, hisRun⟩
  have hindex' : u32 (s.indexIt + 1) = s.indexIt + 1 := u32_of_lt (by omega)
  simp only at hid
  unfold advance
  simp only [rle_step_of_le_one hlast, if_true, hget, ok_bind, except_pure, hindex', hid]

theorem advance_end (h : Current s []) (hlast : s.rle ≤ 1) :
    s.advance = .ok { s with rle := 0, val := 0, indexIt := s.indexIt + 1 } ∧
      s.indexIt + 1 = s.size := by
  have hindex := h.index
  have hsize := h.size
  have hrange := h.inRange
  rw [restDeltas_of_le_one hlast] at hindex
  have hget := getNext_end (s := { s with rle := 0 }) h.unread
  have hindex' : u32 (s.indexIt + 1) = s.indexIt + 1 := u32_of_lt (by omega)
  have hid : u32 (s.id + 0) = s.id := u32_of_lt (by omega)
  refine ⟨?_, by simpa using hindex⟩
  unfold advance
  simp only [rle_step_of_le_one hlast, if_true, hget, ok_bind, except_pure, hindex', hid]

theorem advance_spec (h : Current s todo) :
    ∃ s', s.advance = .ok s' ∧ s'.size = s.size ∧
      Remaining s' (sums s.id (s.restDeltas todo)) := by
  by_cases hrun : 1 < s.rle
  · obtain ⟨hadv, hcur, hdeltas⟩ := advance_run h hrun
    rw [hdeltas, sums]
    exact ⟨_, hadv, rfl, Remaining.more todo hcur⟩
  · have hlast : s.rle ≤ 1 := by omega
    rw [restDeltas_of_le_one hlast]
    cases todo with
    | nil =>
      obtain ⟨hadv, hdone⟩ := advance_end h hlast
      exact ⟨_, hadv, rfl, Remaining.done hdone⟩
    | cons w todo =>
      obtain ⟨data, val, rle, -, hadv, hcur, hdeltas, -⟩ := advance_word h hlast
      rw [deltasOf_cons, hdeltas, List.cons_append, sums]
      exact ⟨_, hadv, rfl, Remaining.more todo hcur⟩

end

theorem advanceRun_spec {k : Nat} (h : Current s todo) (hk : k ≤ s.rle) (hpos : 0 < k) :
    s.id + (k - 1) * s.val < 2 ^ 31 ∧
    ∃ s' rem, s.advanceRun k = .ok s' ∧ s'.size = s.size ∧ Remaining s' rem ∧
      s.id :: sums s.id (s.restDeltas todo) =
        (s.id :: sums s.id (List.replicate (k - 1) s.val)) ++ rem := by
  have hindex := h.index
  have hsize := h.size
  have hrange := h.inRange
  have hasc := h.ascending
  have hrle := h.rle
  have hsplit : s.restDeltas todo = List.replicate (k - 1) s.val ++
      (List.replicate (s.rle - k) s.val ++ deltasOf todo) := by
    rw [restDeltas, ← List.append_assoc, ← List.replicate_add]
    congr 2
    omega
  rw [hsplit] at hindex hrange hasc
  rw [List.sum_append, List.sum_replicate_nat] at hrange
  simp only [List.length_append, List.length_replicate] at hindex
  have hlt : s.id + (k - 1) * s.val < 2 ^ 31 := by omega
  refine ⟨hlt, ?_⟩
  have hsub : sub32 s.rle k = s.rle - k := sub32_of_le hk (by omega)
  have hsub' : sub32 k 1 = k - 1 := sub32_of_le hpos (by omega)
  have hindex' : u32 (s.indexIt + k) = s.indexIt + k := u32_of_lt (by omega)
  have hid : u32 (s.id + s.val * (k - 1)) = s.id + (k - 1) * s.val := by
    rw [Nat.mul_comm, u32_of_lt (by omega)]
  have hids : s.id :: sums s.id (s.restDeltas todo) =
      (s.id :: sums s.id (List.replicate (k - 1) s.val)) ++
        sums (s.id + (k - 1) * s.val) (List.replicate (s.rle - k) s.val ++ deltasOf todo) := by
    rw [hsplit, sums_append, List.sum_replicate_nat]
    rfl
  unfold advanceRun
  simp only [hsub, hsub', hindex', hid]
  by_cases hdone : s.rle - k = 0
  · rw [hdone] at hindex hrange hasc hids ⊢
    rw [List.replicate_zero, List.nil_append] at hrange hasc hids
    obtain ⟨data, val, rle, hget, hrem⟩ := remaining_getNext
      (s := { s with rle := 0, indexIt := s.indexIt + k, id := s.id + (k - 1) * s.val }) rfl
      h.unread h.fits h.nonEmpty (fun d hd => hasc d (List.mem_append_right _ hd))
      (by simp only; omega) hsize
    simp only [if_true, hget, ok_bind, except_pure]
    exact ⟨_, _, rfl, rfl, hrem (s.indexIt + k) (by simp only; omega), hids⟩
  · have hcur := current_run h (k := k) (by omega) hpos (s.indexIt + k) (by omega)
    obtain ⟨m, hm⟩ : ∃ m, s.rle - k = m + 1 := ⟨s.rle - k - 1, by omega⟩
    have hmul : k * s.val = (k - 1) * s.val + s.val := by
      rw [← Nat.succ_mul, Nat.succ_eq_add_one, Nat.sub_add_cancel hpos]
    rw [hm, List.replicate_succ, List.cons_append, List.sum_cons] at hrange
    have hlast : u32 (s.id + (k - 1) * s.val + s.val) = s.id + k * s.val := by
      rw [hmul, ← Nat.add_assoc, u32_of_lt (by omega)]
    have hsums : sums (s.id + (k - 1) * s.val) (List.replicate (m + 1) s.val ++ deltasOf todo) =
        (s.id + k * s.val) :: sums (s.id + k * s.val)
          (List.replicate m s.val ++ deltasOf todo) := by
      rw [hmul, ← Nat.add_assoc]
      rfl
    rw [hm, hsums] at hids
    rw [if_neg hdone]
    simp only [ok_bind, except_pure, hlast]
    rw [hm] at hcur
    rw [hm]
    exact ⟨_, _, rfl, rfl, Remaining.more todo hcur, hids⟩

theorem smallerRle_spec {otherId : Nat} (hval : 0 < s.val) (hrle : 1 < s.rle)
    (hnext : s.id + s.val < otherId) (hother : otherId < 2 ^ 31) :
    1 < s.smallerRle otherId ∧ s.smallerRle otherId ≤ s.rle ∧
      s.id + (s.smallerRle otherId - 1) * s.val < otherId := by
  have hgap : sub32 otherId s.id = otherId - s.id := sub32_of_le (by omega) (by omega)
  have hdiv := Nat.div_add_mod (otherId - s.id) s.val
  have hmod := Nat.mod_lt (otherId - s.id) hval
  have hquot : 1 ≤ (otherId - s.id) / s.val := (Nat.one_le_div_iff hval).mpr (by omega)
  have hquotLe : (otherId - s.id) / s.val ≤ otherId - s.id := Nat.div_le_self _ _
  unfold smallerRle
  simp only [hgap]
  generalize (otherId - s.id) / s.val = q at *
  generalize hr : (otherId - s.id) % s.val = r at *
  rw [Nat.mul_comm] at hdiv
  by_cases hzero : r > 0
  · have hsub : sub32 q 0 = q := sub32_of_le (Nat.zero_le q) (by omega)
    rw [if_pos hzero, hsub, u32_of_lt (by omega)]
    have hmin : (min (q + 1) s.rle - 1) * s.val ≤ q * s.val :=
      Nat.mul_le_mul_right _ (by omega)
    exact ⟨by omega, Nat.min_le_right _ _, by omega⟩
  · have htwo : 2 ≤ q := by
      by_contra hlt
      have hone : q = 1 := by omega
      rw [hone, Nat.one_mul] at hdiv
      omega
    have hsub : sub32 q 1 = q - 1 := sub32_of_le hquot (by omega)
    rw [if_neg hzero, hsub, u32_of_lt (by omega), Nat.sub_add_cancel hquot]
    have hmin : (min q s.rle - 1) * s.val ≤ (q - 1) * s.val :=
      Nat.mul_le_mul_right _ (by omega)
    have hlast : (q - 1) * s.val + s.val = q * s.val := by
      rw [← Nat.succ_mul, Nat.succ_eq_add_one, Nat.sub_add_cancel hquot]
    exact ⟨by omega, Nat.min_le_right _ _, by omega⟩

theorem mem_progression_lt {id val k bound : Nat} (h : id + k * val < bound) :
    ∀ c ∈ id :: sums id (List.replicate k val), c < bound := by
  induction k generalizing id with
  | zero =>
    intro c hc
    obtain rfl : c = id := by simpa [sums] using hc
    omega
  | succ k ih =>
    rw [Nat.succ_mul] at h
    intro c hc
    rw [List.replicate_succ, sums] at hc
    rcases List.mem_cons.mp hc with rfl | hc
    · omega
    · exact ih (by omega) c hc

theorem Current.val_pos (h : Current s todo) (hrle : 1 < s.rle) : 0 < s.val := by
  refine h.ascending s.val ?_
  refine List.mem_append_left _ (List.mem_replicate.mpr ⟨by omega, rfl⟩)

/-- Behind the other operand: some ids below `otherId` are consumed, and pushed if the operation
keeps them. -/
theorem stepSmaller_spec {otherId : Nat} (h : Current s todo) (hlt : s.id < otherId)
    (hother : otherId < 2 ^ 31) (push : Bool) (creator : RleDECreator) :
    ∃ s' cs rem, s.stepSmaller otherId push creator =
        .ok (s', (SortedMerge.keep push cs).foldl RleDECreator.pushBack creator) ∧
      s'.size = s.size ∧ Remaining s' rem ∧ cs ≠ [] ∧ (∀ c ∈ cs, c < otherId) ∧
      s.id :: sums s.id (s.restDeltas todo) = cs ++ rem := by
  unfold stepSmaller
  by_cases hfast : s.rle > 1 ∧ u32 (s.id + s.val) < otherId
  · have hpos := h.val_pos hfast.1
    have hnext : s.id + s.val < otherId := by
      have hle : s.val ≤ (s.restDeltas todo).sum := by
        obtain ⟨k, hk⟩ : ∃ k, s.rle - 1 = k + 1 := ⟨s.rle - 2, by omega⟩
        rw [restDeltas, hk, List.replicate_succ, List.cons_append, List.sum_cons]
        exact Nat.le_add_right _ _
      have hrange := h.inRange
      have hu := hfast.2
      rwa [u32_of_lt (by omega)] at hu
    obtain ⟨hone, hle, hlast⟩ := smallerRle_spec hpos hfast.1 hnext hother
    obtain ⟨-, s', rem, hrun, hsize, hrem, hids⟩ := advanceRun_spec h hle (by omega)
    have hrle := h.rle
    have hsub : sub32 (s.smallerRle otherId) 1 = s.smallerRle otherId - 1 :=
      sub32_of_le (by omega) (by omega)
    rw [if_pos hfast, if_neg (by omega)]
    simp only [hrun, ok_bind, except_pure, hsub]
    refine ⟨s', _, rem, ?_, hsize, hrem, List.cons_ne_nil _ _, mem_progression_lt hlast, hids⟩
    cases push
    · rfl
    · rw [if_pos rfl, RleDECreator.pushRle_eq _ (by omega)]
      rfl
  · obtain ⟨s', hrun, hsize, hrem⟩ := advance_spec h
    rw [if_neg hfast]
    simp only [hrun, ok_bind, except_pure]
    refine ⟨s', [s.id], _, ?_, hsize, hrem, by simp, by simpa using hlt, rfl⟩
    cases push <;> rfl

theorem Remaining.cons_or_nil {rem : List Nat} (h : Remaining s rem) :
    (s.indexIt < s.size ∧ ∃ todo, Current s todo ∧ rem = s.id :: sums s.id (s.restDeltas todo)) ∨
      (¬ s.indexIt < s.size ∧ rem = []) := by
  cases h with
  | done hindex => exact .inr ⟨by omega, rfl⟩
  | more todo h =>
    have hindex := h.index
    exact .inl ⟨by omega, todo, h, rfl⟩

end Operand

open Operand

/-- One round takes some ids from the front of the operands and pushes what the operation keeps
of them. -/
theorem opRound_spec (op : SetOp) {a b : Operand} {todoA todoB : List Word} (ha : Current a todoA)
    (hb : Current b todoB) (creator : RleDECreator) :
    ∃ a' b' out as bs, opRound op.func a b creator =
        .ok (a', b', out.foldl RleDECreator.pushBack creator) ∧
      a'.size = a.size ∧ b'.size = b.size ∧ Remaining a' as ∧ Remaining b' bs ∧
      op.apply (a.id :: sums a.id (a.restDeltas todoA)) (b.id :: sums b.id (b.restDeltas todoB)) =
        out ++ op.apply as bs ∧
      as.length + bs.length < (a.restDeltas todoA).length + (b.restDeltas todoB).length + 2 := by
  have hrangeA := ha.inRange
  have hrangeB := hb.inRange
  unfold opRound
  by_cases hlt : a.id < b.id
  · obtain ⟨a', cs, rem, hstep, hsize, hrem, hne, hbelow, hids⟩ :=
      stepSmaller_spec ha hlt (by omega) op.func.pushFirstSmaller creator
    have hlen := congrArg List.length hids
    have hpos := List.length_pos_of_ne_nil hne
    simp only [List.length_cons, length_sums, List.length_append] at hlen
    rw [if_pos hlt]
    simp only [hstep, ok_bind, except_pure]
    refine ⟨a', b, _, rem, _, rfl, hsize, rfl, hrem, Remaining.more todoB hb, ?_, ?_⟩
    · rw [hids]
      exact SortedMerge.merge_append_left _ _ _ hbelow
    · simp only [List.length_cons, length_sums]
      omega
  · by_cases hgt : b.id < a.id
    · obtain ⟨b', cs, rem, hstep, hsize, hrem, hne, hbelow, hids⟩ :=
        stepSmaller_spec hb hgt (by omega) op.func.pushSecondSmaller creator
      have hlen := congrArg List.length hids
      have hpos := List.length_pos_of_ne_nil hne
      simp only [List.length_cons, length_sums, List.length_append] at hlen
      rw [if_neg hlt, if_pos hgt]
      simp only [hstep, ok_bind, except_pure]
      refine ⟨a, b', _, _, rem, rfl, rfl, hsize, Remaining.more todoA ha, hrem, ?_, ?_⟩
      · rw [hids]
        exact SortedMerge.merge_append_right _ _ _ hbelow
      · simp only [List.length_cons, length_sums]
        omega
    · have heq : a.id = b.id := by omega
      rw [if_neg hlt, if_neg hgt]
      by_cases hfast : a.rle > 2 ∧ b.rle > 2 ∧ a.val = b.val
      · have hleA : min a.rle b.rle ≤ a.rle := Nat.min_le_left _ _
        have hleB : min a.rle b.rle ≤ b.rle := Nat.min_le_right _ _
        obtain ⟨hlast, a', remA, hrunA, hsizeA, hremA, hidsA⟩ :=
          advanceRun_spec ha hleA (by omega)
        obtain ⟨-, b', remB, hrunB, hsizeB, hremB, hidsB⟩ :=
          advanceRun_spec hb hleB (by omega)
        have hrle := ha.rle
        have hsub : sub32 (min a.rle b.rle) 1 = min a.rle b.rle - 1 :=
          sub32_of_le (by omega) (by omega)
        have hlenA := congrArg List.length hidsA
        have hlenB := congrArg List.length hidsB
        simp only [List.length_cons, length_sums, List.length_append, List.length_replicate]
          at hlenA hlenB
        rw [if_pos hfast]
        simp only [hrunA, hrunB, ok_bind, except_pure, hsub]
        refine ⟨a', b', SortedMerge.keep op.func.pushEqual
          (a.id :: sums a.id (List.replicate (min a.rle b.rle - 1) a.val)), remA, remB, ?_, hsizeA,
          hsizeB, hremA, hremB, ?_, by omega⟩
        · cases op.func.pushEqual
          · rfl
          · rw [if_pos rfl, RleDECreator.pushRle_eq _ (by omega)]
            rfl
        · rw [hidsA, hidsB, ← heq, ← hfast.2.2]
          exact SortedMerge.merge_append_both _ _ _ _ _ _
      · obtain ⟨a', hrunA, hsizeA, hremA⟩ := advance_spec ha
        obtain ⟨b', hrunB, hsizeB, hremB⟩ := advance_spec hb
        rw [if_neg hfast]
        simp only [hrunA, hrunB, ok_bind, except_pure]
        refine ⟨a', b', SortedMerge.keep op.func.pushEqual [a.id], _, _, ?_, hsizeA, hsizeB, hremA,
          hremB, ?_, ?_⟩
        · cases op.func.pushEqual <;> rfl
        · rw [← heq]
          exact SortedMerge.merge_append_both _ _ _ [a.id] _ _
        · simp only [length_sums]
          omega

theorem opLoop_spec (op : SetOp) {rounds : Nat} {a b : Operand} {as bs : List Nat}
    (ha : Remaining a as) (hb : Remaining b bs) (creator : RleDECreator)
    (hrounds : as.length + bs.length < rounds) :
    ∃ a' b' out as' bs', opLoop op.func rounds a b creator =
        .ok (a', b', out.foldl RleDECreator.pushBack creator) ∧
      a'.size = a.size ∧ b'.size = b.size ∧ Remaining a' as' ∧ Remaining b' bs' ∧
      op.apply as bs = out ++ op.apply as' bs' ∧ (as' = [] ∨ bs' = []) := by
  induction rounds generalizing a b as bs creator with
  | zero => omega
  | succ rounds ih =>
    unfold opLoop
    rcases ha.cons_or_nil with ⟨hmoreA, todoA, hA, rfl⟩ | ⟨hdoneA, rfl⟩
    · rcases hb.cons_or_nil with ⟨hmoreB, todoB, hB, rfl⟩ | ⟨hdoneB, rfl⟩
      · obtain ⟨a', b', out, as', bs', hround, hsizeA, hsizeB, ha', hb', happly, hless⟩ :=
          opRound_spec op hA hB creator
        simp only [List.length_cons, length_sums] at hrounds
        obtain ⟨a'', b'', out', as'', bs'', hloop, hsizeA', hsizeB', ha'', hb'', happly', hend⟩ :=
          ih ha' hb' (out.foldl RleDECreator.pushBack creator) (by omega)
        rw [if_pos ⟨hmoreA, hmoreB⟩]
        simp only [hround, ok_bind, hloop, ← List.foldl_append]
        refine ⟨a'', b'', out ++ out', as'', bs'', rfl, hsizeA'.trans hsizeA,
          hsizeB'.trans hsizeB, ha'', hb'', ?_, hend⟩
        rw [happly, happly', List.append_assoc]
      · rw [if_neg (fun h => hdoneB h.2)]
        exact ⟨a, b, [], _, [], rfl, rfl, rfl, ha, hb, rfl, .inr rfl⟩
    · rw [if_neg (fun h => hdoneA h.1)]
      exact ⟨a, b, [], [], bs, rfl, rfl, rfl, ha, hb, rfl, .inl rfl⟩

end ItemIndexPrivateRleDE

end Sserialize
