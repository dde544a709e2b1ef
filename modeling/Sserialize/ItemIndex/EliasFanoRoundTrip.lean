import Sserialize.ItemIndex.EliasFano
import Sserialize.ItemIndex.ItemIndex

namespace Sserialize.ItemIndexPrivateEliasFano

open BitString Ascending

theorem upperBound_of_le {count largest : Nat} (hcount : 0 < count) (hlt : count < 2 ^ 32)
    (hle : count ≤ largest + 1) (hlargest : largest < 2 ^ 32)
    (hbound : largest - (count - 1) ≤ 2 ^ 31) :
    ∃ k < 32, upperBound count largest = .ok (2 ^ k) := by
  have hone : sub32 count 1 = count - 1 := sub32_of_le hcount hlt
  have hreduced : sub32 largest (sub32 count 1) = largest - (count - 1) := by
    rw [hone]
    exact sub32_of_le (by omega) hlargest
  generalize hm : largest - (count - 1) = m at *
  unfold upperBound
  simp only [hreduced]
  by_cases hzero : m = 0
  · subst hzero
    exact ⟨1, by decide, rfl⟩
  · have hmlt : m < 2 ^ 32 := by omega
    have hlog : Nat.log2 m < 32 := (Nat.log2_lt hzero).mpr hmlt
    rw [msb_eq_log2 hzero hmlt, Nat.shiftLeft_eq, Nat.one_mul]
    by_cases hpow : 2 ^ Nat.log2 m = m
    · rw [if_pos hpow]
      exact ⟨Nat.log2 m, hlog, rfl⟩
    · have hself : 2 ^ Nat.log2 m ≤ m := Nat.log2_self_le hzero
      have hsmall : Nat.log2 m + 1 < 32 := by
        by_contra hbig
        have hk : Nat.log2 m = 31 := by omega
        rw [hk] at hself hpow
        omega
      have hnext : u32 (2 ^ Nat.log2 m <<< 1) = 2 ^ (Nat.log2 m + 1) := by
        rw [Nat.shiftLeft_eq, Nat.pow_one, ← Nat.pow_succ]
        exact u32_of_lt (Nat.pow_lt_pow_right (by decide) hsmall)
      have hne : (2 : Nat) ^ (Nat.log2 m + 1) ≠ 0 := (Nat.two_pow_pos _).ne'
      rw [if_neg hpow, hnext, if_neg hne]
      exact ⟨Nat.log2 m + 1, hsmall, rfl⟩

theorem upperBound_of_lt {count largest : Nat} (hcount : 0 < count) (hlt : count < 2 ^ 32)
    (hle : count ≤ largest + 1) (hlargest : largest < 2 ^ 32)
    (hbound : 2 ^ 31 < largest - (count - 1)) :
    upperBound count largest = .error .domainError := by
  have hone : sub32 count 1 = count - 1 := sub32_of_le hcount hlt
  have hreduced : sub32 largest (sub32 count 1) = largest - (count - 1) := by
    rw [hone]
    exact sub32_of_le (by omega) hlargest
  generalize hm : largest - (count - 1) = m at *
  have hzero : m ≠ 0 := by omega
  have hmlt : m < 2 ^ 32 := by omega
  have hlog : Nat.log2 m = 31 := by
    have hupper : Nat.log2 m < 32 := (Nat.log2_lt hzero).mpr hmlt
    have hlower : ¬ Nat.log2 m < 31 := by
      rw [Nat.log2_lt hzero]
      omega
    omega
  have hshift : (1 : Nat) <<< 31 = 2 ^ 31 := by decide
  have hover : u32 (2 ^ 31 <<< 1) = 0 := by decide
  unfold upperBound
  simp only [hreduced]
  rw [msb_eq_log2 hzero hmlt, hlog, hshift, if_neg (by omega), if_pos hover]

def restore : Nat → List Nat → List Nat
  | _, [] => []
  | off, y :: ys => (y + off) :: restore (off + 1) ys

@[simp] theorem length_reduced (off : Nat) (src : List Nat) :
    (reduced off src).length = src.length := by
  induction src generalizing off with
  | nil => rfl
  | cons x src ih => rw [reduced, List.length_cons, ih, List.length_cons]

@[simp] theorem length_restore (off : Nat) (ys : List Nat) : (restore off ys).length = ys.length := by
  induction ys generalizing off with
  | nil => rfl
  | cons y ys ih => rw [restore, List.length_cons, ih, List.length_cons]

variable {src : List Nat}

theorem reduced_cons {off x : Nat} (hx : off ≤ x) (hlt : x < 2 ^ 32) (hoff : off + 1 < 2 ^ 32) :
    reduced off (x :: src) = (x - off) :: reduced (off + 1) src := by
  rw [reduced, sub32_of_le hx hlt, u32_of_lt hoff]

theorem From.next {off x : Nat} (h : From off (x :: src)) : From (off + 1) src :=
  h.tail.mono (Nat.succ_le_succ (h.2 x (by simp)))

theorem restore_reduced {off : Nat} (h : From off src) (hlt : ∀ x ∈ src, x < 2 ^ 32)
    (hlen : off + src.length < 2 ^ 32) : restore off (reduced off src) = src := by
  induction src generalizing off with
  | nil => rfl
  | cons x src ih =>
    rw [List.length_cons] at hlen
    have hx : off ≤ x := h.2 x (by simp)
    rw [reduced_cons hx (hlt x (by simp)) (by omega), restore, Nat.sub_add_cancel hx,
      ih (From.next h) (fun y hy => hlt y (List.mem_cons_of_mem _ hy)) (by omega)]

theorem reduced_lt {off y : Nat} (hy : y ∈ reduced off src) : y < 2 ^ 32 := by
  induction src generalizing off with
  | nil => cases hy
  | cons x src ih =>
    rw [reduced] at hy
    rcases List.mem_cons.mp hy with rfl | hy
    · exact u32_lt _
    · exact ih hy

theorem le_of_mem_reduced {off k y : Nat} (h : From (off + k) src) (hlt : ∀ x ∈ src, x < 2 ^ 32)
    (hlen : off + src.length < 2 ^ 32) (hy : y ∈ reduced off src) : k ≤ y := by
  induction src generalizing off with
  | nil => cases hy
  | cons x src ih =>
    rw [List.length_cons] at hlen
    have hx : off + k ≤ x := h.2 x (by simp)
    rw [reduced_cons (by omega) (hlt x (by simp)) (by omega)] at hy
    rcases List.mem_cons.mp hy with rfl | hy
    · omega
    · refine ih ((From.next h).mono (by omega))
        (fun y hy => hlt y (List.mem_cons_of_mem _ hy)) (by omega) hy

theorem pairwise_reduced {off : Nat} (h : From off src) (hlt : ∀ x ∈ src, x < 2 ^ 32)
    (hlen : off + src.length < 2 ^ 32) : (reduced off src).Pairwise (· ≤ ·) := by
  induction src generalizing off with
  | nil => exact List.Pairwise.nil
  | cons x src ih =>
    rw [List.length_cons] at hlen
    have hx : off ≤ x := h.2 x (by simp)
    have hlt' : ∀ y ∈ src, y < 2 ^ 32 := fun y hy => hlt y (List.mem_cons_of_mem _ hy)
    rw [reduced_cons hx (hlt x (by simp)) (by omega), List.pairwise_cons]
    refine ⟨fun y hy => ?_, ih (From.next h) hlt' (by omega)⟩
    have htail : From (off + 1 + (x - off)) src := h.tail.mono (by omega)
    exact le_of_mem_reduced htail hlt' (by omega) hy

/-- What the iterator relies on: reduced ids at the positions from `off` on. -/
structure Reduced (off : Nat) (ys : List Nat) : Prop where
  mono : ys.Pairwise (· ≤ ·)
  lt : ∀ id ∈ restore off ys, id < 2 ^ 32
  length : off + ys.length < 2 ^ 32

theorem Reduced.tail {off y : Nat} {ys : List Nat} (h : Reduced off (y :: ys)) :
    Reduced (off + 1) ys := by
  have hlength := h.length
  rw [List.length_cons] at hlength
  exact ⟨(List.pairwise_cons.mp h.mono).2, fun id hid => h.lt id (List.mem_cons_of_mem _ hid),
    by omega⟩

variable {ys : List Nat}

theorem Reduced.head_lt {off y : Nat} (h : Reduced off (y :: ys)) : y + off < 2 ^ 32 :=
  h.lt _ (by rw [restore]; exact List.mem_cons_self)

variable {l : IdList}

theorem reduced_ids (hlen : l.ids.length < 2 ^ 32) : Reduced 0 (reduced 0 l.ids) := by
  have hlen' : 0 + l.ids.length < 2 ^ 32 := by omega
  refine ⟨pairwise_reduced l.from_zero l.inRange hlen', ?_, by rw [length_reduced]; exact hlen'⟩
  rw [restore_reduced l.from_zero l.inRange hlen']
  exact l.inRange

def uppers (w : Nat) (ys : List Nat) : List Nat := ys.map (· >>> w)

theorem shiftRight_mono {m n : Nat} (w : Nat) (h : m ≤ n) : m >>> w ≤ n >>> w := by
  rw [Nat.shiftRight_eq_div_pow, Nat.shiftRight_eq_div_pow]
  exact Nat.div_le_div_right h

theorem pairwise_uppers (w : Nat) (h : ys.Pairwise (· ≤ ·)) : (uppers w ys).Pairwise (· ≤ ·) :=
  List.pairwise_map.mpr (h.imp (shiftRight_mono w))

theorem putGaps_eq (w : Nat) {prev : Nat} (ucc : UnaryCodeCreator)
    (hmono : (uppers w ys).Pairwise (· ≤ ·)) (hprev : ∀ u ∈ uppers w ys, prev ≤ u)
    (hlt : ∀ y ∈ ys, y < 2 ^ 32) :
    putGaps w prev ys ucc = (deltas prev (uppers w ys)).foldl UnaryCodeCreator.put ucc := by
  induction ys generalizing prev ucc with
  | nil => rfl
  | cons y ys ih =>
    have hy : prev ≤ y >>> w := hprev _ (by rw [uppers, List.map_cons]; exact List.mem_cons_self)
    have hlt_y : y >>> w < 2 ^ 32 := (Nat.shiftRight_le y w).trans_lt (hlt y (by simp))
    rw [uppers, List.map_cons, List.pairwise_cons] at hmono
    unfold putGaps
    simp only [sub32_of_le hy hlt_y]
    exact ih _ hmono.2 hmono.1 fun z hz => hlt z (List.mem_cons_of_mem _ hz)

theorem upperBits_spec (w : Nat) (h : Reduced 0 ys) (hlt : ∀ y ∈ ys, y < 2 ^ 32) :
    ∃ upper k, (putGaps w 0 ys (.new [])).flush.d = upper ∧ upper.length < 2 ^ 32 ∧
      bits upper = unary (deltas 0 (uppers w ys)) ++ List.replicate k false := by
  have hmono := pairwise_uppers w h.mono
  obtain ⟨hfree, hwritten⟩ := UnaryCodeCreator.foldl_put_spec (UnaryCodeCreator.free_new [])
    (deltas 0 (uppers w ys))
  obtain ⟨k, hk, hflush⟩ := UnaryCodeCreator.flush_spec hfree
  rw [hwritten, UnaryCodeCreator.written_new, bits_nil, List.nil_append] at hflush
  rw [putGaps_eq w _ hmono (fun _ _ => Nat.zero_le _) hlt]
  refine ⟨_, k, rfl, ?_, hflush⟩
  have hsum : (deltas 0 (uppers w ys)).sum < 2 ^ 32 := by
    have hlast := getLastD_sums 0 (deltas 0 (uppers w ys))
    rw [sums_deltas_of_le hmono fun _ _ => Nat.zero_le _, Nat.zero_add] at hlast
    rw [← hlast]
    have hzero : ∀ u ∈ 0 :: uppers w ys, u < 2 ^ 32 := by
      refine List.forall_mem_cons.mpr ⟨by decide, fun u hu => ?_⟩
      obtain ⟨y, hy, rfl⟩ := List.mem_map.mp hu
      exact (Nat.shiftRight_le y w).trans_lt (hlt y hy)
    exact hzero _ List.getLastD_mem_cons
  have hlength := congrArg List.length hflush
  have hcount : (deltas 0 (uppers w ys)).length = ys.length := by
    rw [length_deltas, uppers, List.length_map]
  have hys := h.length
  rw [length_bits, List.length_append, length_unary, List.length_replicate, hcount] at hlength
  unfold chunkBits at hk
  omega

/-- The iterator stands in front of the reduced ids `ys` at the positions from `i` on. -/
structure Stands (w i : Nat) (ys : List Nat) (it : EliasFanoIterator) : Prop where
  numLowerBits : it.numLowerBits = w
  lbPos : it.lbPos = i
  baseValue : it.baseValue = i
  lower : w ≠ 0 → ∀ j y, ys[j]? = some y → it.lb.at (i + j) = .ok (y &&& createMask w)
  upper : ∀ y rest, ys = y :: rest → it.lastUb ≤ y >>> w ∧ it.ub.last = y >>> w - it.lastUb ∧
    ∃ k, it.ub.Ahead (unary (deltas (y >>> w) (uppers w rest)) ++ List.replicate k false)

theorem split_or (y w : Nat) : (y >>> w) <<< w ||| (y &&& createMask w) = y := by
  rw [createMask, Nat.and_two_pow_sub_one_eq_mod,
    ← Nat.shiftLeft_add_eq_or_of_lt (Nat.mod_lt y (Nat.two_pow_pos w)), Nat.shiftLeft_eq,
    Nat.shiftRight_eq_div_pow, Nat.mul_comm, Nat.div_add_mod]

theorem split_le (y w : Nat) : (y >>> w) <<< w ≤ y := by
  rw [Nat.shiftLeft_eq, Nat.shiftRight_eq_div_pow]
  exact Nat.div_mul_le_self y (2 ^ w)

theorem get_spec {w i y : Nat} {it : EliasFanoIterator} (h : Stands w i (y :: ys) it)
    (hlt : y + i < 2 ^ 32) : it.get = .ok (y + i) := by
  obtain ⟨hle, hlast, -⟩ := h.upper y ys rfl
  have hsum : it.lastUb + it.ub.last = y >>> w := by omega
  have hupper : u32 (y >>> w) = y >>> w := u32_of_lt (by
    have hshift := Nat.shiftRight_le y w
    omega)
  unfold EliasFanoIterator.get
  rw [h.numLowerBits, hsum, hupper, h.baseValue, h.lbPos]
  by_cases hw : w ≠ 0
  · have hlower := h.lower hw 0 y rfl
    have hshifted : u32 ((y >>> w) <<< w) = (y >>> w) <<< w := u32_of_lt (by
      have hsplit := split_le y w
      omega)
    rw [Nat.add_zero] at hlower
    rw [if_pos hw, hlower, ok_bind, hshifted, split_or, u32_of_lt hlt]
    rfl
  · obtain rfl : w = 0 := not_not.mp hw
    rw [if_neg hw, Nat.shiftRight_zero, u32_of_lt hlt]

theorem next_spec {w i y : Nat} {it : EliasFanoIterator} (h : Stands w i (y :: ys) it)
    (hys : Reduced i (y :: ys)) : Stands w (i + 1) ys it.next := by
  have hlength := hys.length
  rw [List.length_cons] at hlength
  have hhead := hys.head_lt
  obtain ⟨hle, hlast, k, hahead⟩ := h.upper y ys rfl
  have hsum : u32 (it.lastUb + it.ub.last) = y >>> w := by
    have hshift := Nat.shiftRight_le y w
    have hadd : it.lastUb + it.ub.last = y >>> w := by omega
    rw [hadd, u32_of_lt (by omega)]
  have hbase : u32 (it.baseValue + 1) = i + 1 := by
    rw [h.baseValue, u32_of_lt (by omega)]
  have hpos : it.lbPos + 1 = i + 1 := by rw [h.lbPos]
  refine ⟨h.numLowerBits, hpos, hbase, ?_, ?_⟩
  · intro hw j z hz
    have hlower := h.lower hw (j + 1) z (by simpa using hz)
    have hindex : i + (j + 1) = i + 1 + j := by omega
    rw [hindex] at hlower
    exact hlower
  · rintro z rest rfl
    have hyz : y ≤ z := (List.pairwise_cons.mp hys.mono).1 z (by simp)
    have hmono := shiftRight_mono w hyz
    rw [uppers, List.map_cons, deltas, unary_cons, List.append_assoc, List.cons_append] at hahead
    obtain ⟨hvalue, hrest⟩ := UnaryCodeIterator.next_spec hahead
    have hz_lt := hys.tail.head_lt
    have hshift := Nat.shiftRight_le z w
    have hgap : u32 (z >>> w - y >>> w) = z >>> w - y >>> w := u32_of_lt (by omega)
    rw [hgap] at hvalue
    refine ⟨?_, ?_, k, hrest⟩
    · show u32 (it.lastUb + it.ub.last) ≤ z >>> w
      rw [hsum]
      exact hmono
    · show it.ub.next.last = z >>> w - u32 (it.lastUb + it.ub.last)
      rw [hsum]
      exact hvalue

theorem idsFrom_spec {w i : Nat} {it last : EliasFanoIterator} (steps : Nat)
    (h : Stands w i ys it) (hys : Reduced i ys) (hlast : last.lbPos = i + ys.length)
    (hsteps : ys.length < steps) : idsFrom last steps it = .ok (some (restore i ys)) := by
  induction ys generalizing i it steps with
  | nil =>
    obtain ⟨steps, rfl⟩ : ∃ s, steps = s + 1 := ⟨steps - 1, by omega⟩
    unfold idsFrom
    rw [h.lbPos, hlast, List.length_nil, Nat.add_zero, if_neg (not_not.mpr rfl)]
    rfl
  | cons y ys ih =>
    rw [List.length_cons] at hlast hsteps
    obtain ⟨steps, rfl⟩ : ∃ s, steps = s + 1 := ⟨steps - 1, by omega⟩
    have hrec := ih steps (next_spec h hys) hys.tail (by omega) (by omega)
    unfold idsFrom
    rw [h.lbPos, hlast, if_pos (by omega), get_spec h hys.head_lt, ok_bind, hrec]
    rfl

def Cached (w : Nat) (ids : List Nat) (c : Cache) : Prop :=
  ∃ ys, c.cache ++ restore c.cache.length ys = ids ∧ Stands w c.cache.length ys c.it ∧
    Reduced c.cache.length ys

theorem fillTo_spec {w pos : Nat} {ids : List Nat} {c : Cache} (rounds : Nat)
    (h : Cached w ids c) (hpos : pos < ids.length) (hrounds : pos < c.cache.length + rounds) :
    ∃ c', fillTo pos rounds c = .ok c' ∧ Cached w ids c' ∧ pos < c'.cache.length := by
  induction rounds generalizing c with
  | zero => exact ⟨c, rfl, h, hrounds⟩
  | succ rounds ih =>
    unfold fillTo
    by_cases hmore : c.cache.length ≤ pos
    · obtain ⟨ys, hids, hstands, hys⟩ := h
      cases ys with
      | nil =>
        have hall := congrArg List.length hids
        rw [List.length_append, length_restore, List.length_nil] at hall
        omega
      | cons y ys =>
        rw [if_pos hmore, get_spec hstands hys.head_lt, ok_bind]
        have hlength : (c.cache ++ [y + c.cache.length]).length = c.cache.length + 1 := by simp
        have hcached : Cached w ids ⟨c.it.next, c.cache ++ [y + c.cache.length]⟩ := by
          refine ⟨ys, ?_, ?_, ?_⟩
          · rw [hlength, List.append_assoc]
            exact hids
          · rw [hlength]
            exact next_spec hstands hys
          · rw [hlength]
            exact hys.tail
        exact ih hcached (by rw [hlength]; omega)
    · rw [if_neg hmore]
      exact ⟨c, rfl, h, by omega⟩

variable {idx : ItemIndexPrivateEliasFano}

theorem at_spec {w pos : Nat} {ids : List Nat} {c : Cache} (h : Cached w ids c)
    (hsize : idx.size = ids.length) (hpos : pos < ids.length) :
    ∃ c', idx.at c pos = .ok (ids.getD pos 0, c') ∧ Cached w ids c' := by
  obtain ⟨c', hfill, hcached, hlt⟩ := fillTo_spec (pos + 1) h hpos (by omega)
  have hsame : c'.cache.getD pos 0 = ids.getD pos 0 := by
    obtain ⟨ys, hids, -⟩ := hcached
    rw [← hids]
    simp [List.getD, List.getElem?_append_left hlt]
  unfold «at»
  rw [if_neg (by omega), hfill, ok_bind, hsame]
  exact ⟨c', rfl, hcached⟩

theorem atEach_spec {w : Nat} {ids positions : List Nat} {c : Cache} (h : Cached w ids c)
    (hsize : idx.size = ids.length) (hpos : ∀ pos ∈ positions, pos < ids.length) :
    idx.atEach positions c = .ok (positions.map (ids.getD · 0)) := by
  induction positions generalizing c with
  | nil => rfl
  | cons pos rest ih =>
    obtain ⟨c', hat, hcached⟩ := at_spec h hsize (hpos pos (by simp))
    have hrec := ih hcached fun p hp => hpos p (List.mem_cons_of_mem _ hp)
    unfold atEach
    simp only [hat, ok_bind, hrec]
    rfl

theorem resize_append (front rest : Bytes) :
    UByteArrayAdapter.resize (front ++ rest) front.length = front := by
  rw [UByteArrayAdapter.resize, List.take_left, List.length_append]
  have hnone : front.length - (front.length + rest.length) = 0 := by omega
  rw [hnone, List.replicate_zero, List.append_nil]

theorem upperBoundAt_of_drop {d rest : Bytes} {pos k : Nat} (hk : k < 32)
    (hdrop : d.drop pos = pVu32 k ++ rest) : upperBoundAt d pos = .ok (2 ^ k) := by
  unfold upperBoundAt
  have hshift : (1 : Nat) <<< k = 2 ^ k := by rw [Nat.shiftLeft_eq, Nat.one_mul]
  simp only [getVlPackedUint32At_of_drop (show k < 2 ^ 32 by omega) hdrop, ok_bind,
    if_neg (show ¬ k ≥ 32 by omega), hshift]
  rfl

def lowerBitsOf (w n : Nat) (d : Bytes) : CompactUintArray :=
  if w ≠ 0 then { data := d, bpn := w, maxCount := n } else .new

theorem openLowerBits_eq {w n : Nat} {d : Bytes} (hw : w < 32)
    (hspace : CompactUintArray.minStorageBytes w n ≤ d.length) :
    openLowerBits w n d = .ok (lowerBitsOf w n d) := by
  unfold openLowerBits lowerBitsOf
  by_cases hzero : w ≠ 0
  · rw [if_pos hzero, if_pos hzero, CompactUintArray.ofDataWithSize, if_neg (by omega),
      CompactUintArray.clampBits_eq (by omega) (by omega)]
  · rw [if_neg hzero, if_neg hzero]

variable {nlb : Nat → Nat → Nat}

theorem ofData_code {n k w : Nat} (lower upper rest : Bytes) (hn : n ≠ 0) (hn_lt : n < 2 ^ 32)
    (hk : k < 32) (hw : nlb n (2 ^ k) = w) (hw_lt : w < 32)
    (hlower : lower.length = CompactUintArray.minStorageBytes w n)
    (hupper : upper.length < 2 ^ 32) :
    ofData nlb (pVu32 n ++ pVu32 k ++ lower ++ pVu32 upper.length ++ upper ++ rest) = .ok {
      d := pVu32 n ++ pVu32 k ++ lower ++ pVu32 upper.length ++ upper
      size := n
      lowerBits := lowerBitsOf w n (lower ++ pVu32 upper.length ++ upper)
      upperBits := .ofData upper } := by
  have hk_lt : k < 2 ^ 32 := by omega
  have hn_size := length_pVu32 hn_lt
  have hk_size := length_pVu32 hk_lt
  have hupper_size := length_pVu32 hupper
  have hcount : getVlPackedUint32At
      (pVu32 n ++ pVu32 k ++ lower ++ pVu32 upper.length ++ upper ++ rest) 0 =
        .ok (n, (pVu32 n).length) := by
    have hdrop : (pVu32 n ++ pVu32 k ++ lower ++ pVu32 upper.length ++ upper ++ rest).drop 0 =
        pVu32 n ++ (pVu32 k ++ (lower ++ (pVu32 upper.length ++ (upper ++ rest)))) := by
      simp only [List.drop_zero, List.append_assoc]
    exact getVlPackedUint32At_of_drop hn_lt hdrop
  have hbound : upperBoundAt
      (pVu32 n ++ pVu32 k ++ lower ++ pVu32 upper.length ++ upper ++ rest) (psizeVu32 n) =
        .ok (2 ^ k) := by
    rw [← hn_size]
    have hdrop : (pVu32 n ++ pVu32 k ++ lower ++ pVu32 upper.length ++ upper ++ rest).drop
        (pVu32 n).length = pVu32 k ++ (lower ++ (pVu32 upper.length ++ (upper ++ rest))) := by
      simp only [List.append_assoc, List.drop_left]
    exact upperBoundAt_of_drop hk hdrop
  have hstorage : upperBoundStorage (2 ^ k) = k := msb_two_pow hk
  have hupperSize : getVlPackedUint32At
      (pVu32 n ++ pVu32 k ++ lower ++ pVu32 upper.length ++ upper ++ rest)
      (psizeVu32 n + psizeVu32 k + CompactUintArray.minStorageBytes w n) =
        .ok (upper.length, (pVu32 upper.length).length) := by
    have hdrop : (pVu32 n ++ pVu32 k ++ lower ++ pVu32 upper.length ++ upper ++ rest).drop
        (psizeVu32 n + psizeVu32 k + CompactUintArray.minStorageBytes w n) =
          pVu32 upper.length ++ (upper ++ rest) := by
      rw [← hn_size, ← hk_size, ← hlower, ← List.length_append, ← List.length_append,
        List.append_assoc _ upper rest, List.append_assoc _ (pVu32 upper.length), List.drop_left]
    exact getVlPackedUint32At_of_drop hupper hdrop
  have hresize : UByteArrayAdapter.resize
      (pVu32 n ++ pVu32 k ++ lower ++ pVu32 upper.length ++ upper ++ rest)
      (psizeVu32 n + psizeVu32 k + CompactUintArray.minStorageBytes w n +
        psizeVu32 upper.length + upper.length) =
        pVu32 n ++ pVu32 k ++ lower ++ pVu32 upper.length ++ upper := by
    rw [← hn_size, ← hk_size, ← hlower, ← hupper_size, ← List.length_append, ← List.length_append,
      ← List.length_append, ← List.length_append, resize_append]
  have hlower_drop : (pVu32 n ++ pVu32 k ++ lower ++ pVu32 upper.length ++ upper).drop
      (psizeVu32 n + psizeVu32 k) = lower ++ pVu32 upper.length ++ upper := by
    rw [← hn_size, ← hk_size, ← List.length_append, List.append_assoc _ _ upper,
      List.append_assoc _ lower, List.drop_left, List.append_assoc]
  have hupper_drop : (pVu32 n ++ pVu32 k ++ lower ++ pVu32 upper.length ++ upper).drop
      (psizeVu32 n + psizeVu32 k + CompactUintArray.minStorageBytes w n +
        psizeVu32 upper.length) = upper := by
    rw [← hn_size, ← hk_size, ← hlower, ← hupper_size, ← List.length_append, ← List.length_append,
      ← List.length_append, List.drop_left]
  have hopen : openLowerBits w n (lower ++ pVu32 upper.length ++ upper) =
      .ok (lowerBitsOf w n (lower ++ pVu32 upper.length ++ upper)) := by
    refine openLowerBits_eq hw_lt ?_
    simp only [List.length_append]
    omega
  generalize pVu32 n ++ pVu32 k ++ lower ++ pVu32 upper.length ++ upper ++ rest = data at *
  generalize pVu32 n ++ pVu32 k ++ lower ++ pVu32 upper.length ++ upper = d at *
  unfold ofData
  rw [hcount, ok_bind]
  simp only [if_pos hn]
  rw [hbound, ok_bind]
  simp only [hstorage, hw, hupperSize, ok_bind, hresize, hopen, hupper_drop, hlower_drop,
    except_pure]

/-- The bytes `code`, whatever follows them, are read as the ids of `l`. -/
structure RoundTrips (nlb : Nat → Nat → Nat) (l : IdList) (code rest : Bytes)
    (idx : ItemIndexPrivateEliasFano) : Prop where
  opens : ofData nlb (code ++ rest) = .ok idx
  data : idx.d = code
  size : idx.size = l.ids.length
  atEach : ∀ positions : List Nat, (∀ pos ∈ positions, pos < l.ids.length) →
    idx.atEach positions (.new idx) = .ok (positions.map (l.ids.getD · 0))
  iterate : ∀ steps > l.ids.length, idx.iterate steps = .ok (some l.ids)

/-- A choice of the number of lower bits for which `createMask` and the shifts are defined. -/
def Chooses (nlb : Nat → Nat → Nat) : Prop := ∀ count k, k < 32 → nlb count (2 ^ k) < 32

theorem chooses_numLowerBits : Chooses numLowerBits := by
  intro count k hk
  unfold numLowerBits
  split
  · decide
  · split
    · decide
    · refine Nat.log_lt_of_lt_pow (by
        rename_i hcount hle
        have hpos := Nat.div_pos (Nat.not_lt.mp hle) (Nat.pos_of_ne_zero hcount)
        omega) ?_
      have hdiv := Nat.div_le_self (2 ^ k) count
      have hpow : 2 ^ k < 2 ^ 32 := Nat.pow_lt_pow_right (by decide) hk
      omega

def lowerBytes (w : Nat) (ys : List Nat) : Except Fault Bytes :=
  if w ≠ 0 then CompactUintArray.create (ys.map (· &&& createMask w)) w else .ok []

theorem lowerBytes_spec {w : Nat} (hw : w < 32) (ys : List Nat) :
    ∃ lower, lowerBytes w ys = .ok lower ∧
      lower.length = CompactUintArray.minStorageBytes w ys.length ∧
      ∀ tail, w ≠ 0 → ∀ j y, ys[j]? = some y →
        (lowerBitsOf w ys.length (lower ++ tail)).at j = .ok (y &&& createMask w) := by
  unfold lowerBytes
  by_cases hzero : w ≠ 0
  · obtain ⟨lower, hcreate, hlength, hbits⟩ := CompactUintArray.create_spec
      (ys.map (· &&& createMask w)) (show 0 < w by omega) (show w ≤ 64 by omega)
    rw [List.length_map] at hlength hbits
    rw [if_pos hzero]
    refine ⟨lower, hcreate, hlength, ?_⟩
    intro tail _ j y hj
    have hj_lt : j < ys.length := (List.getElem?_eq_some_iff.mp hj).1
    have hspace := CompactUintArray.le_minStorageBytes w ys.length
    have hentry := CompactUintArray.mul_le_of_lt w hj_lt
    have hvalue : (ys.map (· &&& createMask w)).getD j 0 = y &&& createMask w := by
      simp [List.getD, hj]
    unfold lowerBitsOf
    rw [if_pos hzero]
    refine CompactUintArray.at_spec (show 0 < w by omega) (show w ≤ 64 by omega) hj_lt ?_
      (CompactUintArray.and_createMask_lt y w) ?_
    · simp only [List.length_append]
      omega
    · intro t ht
      simp only at ht ⊢
      rw [bit_append_left (by omega), hbits j hj_lt t ht, hvalue]
  · rw [if_neg hzero]
    refine ⟨[], rfl, ?_, fun _ h => absurd h hzero⟩
    obtain rfl : w = 0 := not_not.mp hzero
    simp [CompactUintArray.minStorageBytes]

theorem create_eq {lower upper : Bytes} {k w : Nat} (dest : Bytes) (hn : src.length ≠ 0)
    (hn_lt : src.length < 2 ^ 32) (hk : k < 32)
    (hbound : upperBound src.length (src.getLastD 0) = .ok (2 ^ k))
    (hw : nlb src.length (2 ^ k) = w) (hlower : lowerBytes w (reduced 0 src) = .ok lower)
    (hupper : (putGaps w 0 (reduced 0 src) (.new [])).flush.d = upper)
    (hupper_lt : upper.length < 2 ^ 32) :
    create nlb src dest = (.ok (), dest ++ (pVu32 src.length ++ pVu32 k ++ lower ++
      pVu32 upper.length ++ upper)) := by
  have hstorage : upperBoundStorage (2 ^ k) = k := msb_two_pow hk
  unfold lowerBytes at hlower
  unfold create
  simp only [narrowCheck32_of_lt hn_lt, if_neg hn, hbound, hw, hlower, hupper, hstorage,
    narrowCheck32_of_lt hupper_lt, List.append_assoc]

/-- The bytes `code`, whatever follows them, are opened as an index whose iterator stands in front
of the ids of `l`. -/
structure Opens (nlb : Nat → Nat → Nat) (l : IdList) (code rest : Bytes)
    (idx : ItemIndexPrivateEliasFano) (w : Nat) : Prop where
  opens : ofData nlb (code ++ rest) = .ok idx
  data : idx.d = code
  size : idx.size = l.ids.length
  stands : Stands w 0 (reduced 0 l.ids) idx.cbegin
  reduced : Reduced 0 (reduced 0 l.ids)
  ids : restore 0 (ItemIndexPrivateEliasFano.reduced 0 l.ids) = l.ids

theorem Opens.roundTrips {code rest : Bytes} {w : Nat} (h : Opens nlb l code rest idx w) :
    RoundTrips nlb l code rest idx := by
  refine ⟨h.opens, h.data, h.size, ?_, ?_⟩
  · intro positions hpos
    have hcached : Cached w l.ids (Cache.new idx) := ⟨_, h.ids, h.stands, h.reduced⟩
    exact atEach_spec hcached h.size hpos
  · intro steps hsteps
    have hlast : idx.cend.lbPos = 0 + (ItemIndexPrivateEliasFano.reduced 0 l.ids).length := by
      rw [length_reduced, Nat.zero_add]
      exact h.size
    unfold iterate
    rw [idsFrom_spec steps h.stands h.reduced hlast (by rwa [length_reduced]), h.ids]

theorem create_empty (nlb : Nat → Nat → Nat) (dest : Bytes) :
    create nlb [] dest = (.ok (), dest ++ [0]) := rfl

theorem opens_empty (nlb : Nat → Nat → Nat) (h : l.ids = []) (rest : Bytes) :
    ∃ idx w, Opens nlb l [0] rest idx w := by
  have hdrop : ([0] ++ rest : Bytes).drop 0 = pVu32 0 ++ rest := rfl
  have hcount : getVlPackedUint32At ([0] ++ rest) 0 = .ok (0, 1) :=
    getVlPackedUint32At_of_drop (by decide) hdrop
  have hresize : UByteArrayAdapter.resize ([0] ++ rest) (psizeVu32 0) = [0] :=
    resize_append [0] rest
  refine ⟨{ d := [0], size := 0, lowerBits := .new, upperBits := .new }, 0, ?_⟩
  refine ⟨?_, rfl, by rw [h]; rfl, ?_, ?_, by rw [h]; rfl⟩
  · unfold ofData
    rw [hcount, ok_bind]
    simp only [ne_eq, not_true_eq_false, if_false, hresize]
    rfl
  · rw [h]
    exact ⟨rfl, rfl, rfl, fun h => absurd rfl h, fun _ _ h => by cases h⟩
  · rw [h]
    exact ⟨List.Pairwise.nil, fun _ h => absurd h (List.not_mem_nil), by decide⟩

theorem create_opens (hnlb : Chooses nlb) (l : IdList) (dest : Bytes)
    (hlen : l.ids.length < 2 ^ 32) (hbound : l.ids.getLastD 0 - (l.ids.length - 1) ≤ 2 ^ 31) :
    ∃ code, create nlb l.ids dest = (.ok (), dest ++ code) ∧
      ∀ rest, ∃ idx w, Opens nlb l code rest idx w := by
  by_cases hnil : l.ids = []
  · refine ⟨[0], by rw [hnil]; exact create_empty nlb dest, opens_empty nlb hnil⟩
  · have hn : l.ids.length ≠ 0 := fun h => hnil (List.eq_nil_of_length_eq_zero h)
    have hle : l.ids.length ≤ l.ids.getLastD 0 + 1 := by
      have hlast : ∀ x ∈ l.ids, x < l.ids.getLastD 0 + 1 := fun x hx =>
        Nat.lt_succ_of_le (le_getLastD_of_from l.from_zero hx)
      have hfrom := length_le_of_from l.from_zero hlast
      omega
    obtain ⟨k, hk, hub⟩ := upperBound_of_le (by omega) hlen hle l.getLastD_lt hbound
    have hys := reduced_ids hlen
    have hids : restore 0 (reduced 0 l.ids) = l.ids :=
      restore_reduced l.from_zero l.inRange (by omega)
    have hcount : (reduced 0 l.ids).length = l.ids.length := length_reduced 0 l.ids
    have hys_lt : ∀ y ∈ reduced 0 l.ids, y < 2 ^ 32 := by
      intro y hy
      exact reduced_lt hy
    generalize hw : nlb l.ids.length (2 ^ k) = w
    have hw_lt : w < 32 := hw ▸ hnlb l.ids.length k hk
    obtain ⟨lower, hlower, hlower_length, hat⟩ := lowerBytes_spec hw_lt (reduced 0 l.ids)
    obtain ⟨upper, padding, hupper, hupper_lt, hbits⟩ := upperBits_spec w hys hys_lt
    rw [hcount] at hlower_length hat
    refine ⟨_, create_eq dest hn hlen hk hub hw hlower hupper hupper_lt, ?_⟩
    intro rest
    refine ⟨_, w, ofData_code lower upper rest hn hlen hk hw hw_lt hlower_length hupper_lt, rfl,
      rfl, ?_, hys, hids⟩
    refine ⟨?_, rfl, rfl, ?_, ?_⟩
    · show (lowerBitsOf w _ _).bpn = w
      unfold lowerBitsOf
      by_cases hzero : w ≠ 0
      · rw [if_pos hzero]
      · rw [if_neg hzero]
        exact (not_not.mp hzero).symm
    · intro hzero j y hj
      rw [Nat.zero_add]
      have hentry := hat (pVu32 upper.length ++ upper) hzero j y hj
      rw [← List.append_assoc] at hentry
      exact hentry
    · intro y ys' hcons
      rw [hcons, uppers, List.map_cons, deltas, unary_cons, Nat.sub_zero, List.append_assoc,
        List.cons_append] at hbits
      obtain ⟨hlast, hahead⟩ := UnaryCodeIterator.ofData_spec hbits
      have hy_lt : y >>> w < 2 ^ 32 :=
        (Nat.shiftRight_le y w).trans_lt (hys_lt y (by rw [hcons]; exact List.mem_cons_self))
      rw [u32_of_lt hy_lt] at hlast
      exact ⟨Nat.zero_le _, hlast, padding, hahead⟩

theorem create_roundTrips (hnlb : Chooses nlb) (l : IdList) (dest : Bytes)
    (hlen : l.ids.length < 2 ^ 32) (hbound : l.ids.getLastD 0 - (l.ids.length - 1) ≤ 2 ^ 31) :
    ∃ code, create nlb l.ids dest = (.ok (), dest ++ code) ∧
      ∀ rest, ∃ idx, RoundTrips nlb l code rest idx := by
  obtain ⟨code, hcreate, hopens⟩ := create_opens hnlb l dest hlen hbound
  refine ⟨code, hcreate, fun rest => ?_⟩
  obtain ⟨idx, w, h⟩ := hopens rest
  exact ⟨idx, h.roundTrips⟩

structure CreateSpec (nlb : Nat → Nat → Nat) (l : IdList) (dest : Bytes) : Prop where
  throws_iff : (create nlb l.ids dest).1 = .error .domainError ↔
    2 ^ 31 < l.ids.getLastD 0 - (l.ids.length - 1)
  untouched : (create nlb l.ids dest).1 = .error .domainError → (create nlb l.ids dest).2 = dest
  decodes : (create nlb l.ids dest).1 ≠ .error .domainError →
    ∃ code, create nlb l.ids dest = (.ok (), dest ++ code) ∧
      ∀ rest, ∃ idx, RoundTrips nlb l code rest idx

theorem create_of_lt (nlb : Nat → Nat → Nat) (l : IdList) (dest : Bytes)
    (hlen : l.ids.length < 2 ^ 32)
    (hbound : 2 ^ 31 < l.ids.getLastD 0 - (l.ids.length - 1)) :
    create nlb l.ids dest = (.error .domainError, dest) := by
  have hn : l.ids.length ≠ 0 := by
    intro h
    rw [List.eq_nil_of_length_eq_zero h, List.getLastD_nil] at hbound
    omega
  have hpos : 0 < l.ids.length := by omega
  have hub := upperBound_of_lt hpos hlen (by omega) l.getLastD_lt hbound
  unfold create
  simp only [narrowCheck32_of_lt hlen, if_neg hn, hub]

theorem createSpec (hnlb : Chooses nlb) (l : IdList) (dest : Bytes) (hlen : l.ids.length < 2 ^ 32) :
    CreateSpec nlb l dest := by
  by_cases hbound : 2 ^ 31 < l.ids.getLastD 0 - (l.ids.length - 1)
  · have hthrows := create_of_lt nlb l dest hlen hbound
    refine ⟨⟨fun _ => hbound, fun _ => by rw [hthrows]⟩, fun _ => by rw [hthrows], ?_⟩
    intro h
    rw [hthrows] at h
    exact absurd rfl h
  · obtain ⟨code, hcreate, hread⟩ := create_roundTrips hnlb l dest hlen (Nat.not_lt.mp hbound)
    refine ⟨⟨fun h => ?_, fun h => absurd h hbound⟩, fun h => ?_, fun _ => ⟨code, hcreate, hread⟩⟩
    · rw [hcreate] at h
      cases h
    · rw [hcreate] at h
      cases h

/-- Every list of fewer than `2 ^ 32` ids is refused without a trace, exactly when its bound is not
representable, or read back, whatever the number of lower bits is. -/
theorem eliasFano_create (l : IdList) (dest : Bytes) (hlen : l.ids.length < 2 ^ 32) :
    CreateSpec numLowerBits l dest ∧ ∀ nlb, Chooses nlb → CreateSpec nlb l dest :=
  ⟨createSpec chooses_numLowerBits l dest hlen, fun _ hnlb => createSpec hnlb l dest hlen⟩

theorem eliasFano_create_two : CreateSpec numLowerBits ⟨[3, 1000], by simp, by simp⟩ [] :=
  (eliasFano_create ⟨[3, 1000], by simp, by simp⟩ [] (by decide)).1

theorem not_createSpec_of_le {dest : Bytes} (hlen : 2 ^ 32 ≤ l.ids.length) :
    ¬ CreateSpec nlb l dest := by
  intro h
  have hnarrow := narrowCheck32_of_le hlen
  have hcreate : create nlb l.ids dest = (.error .typeOverflow, dest) := by
    unfold create
    rw [hnarrow]
  obtain ⟨code, hcode, -⟩ := h.decodes (by rw [hcreate]; simp)
  rw [hcreate] at hcode
  cases hcode

theorem eliasFano_create_allIds :
    ¬ CreateSpec numLowerBits (IdList.firstIds (2 ^ 32) (Nat.le_refl _)) [] :=
  not_createSpec_of_le (IdList.length_firstIds (2 ^ 32) (Nat.le_refl _)).ge

end Sserialize.ItemIndexPrivateEliasFano
