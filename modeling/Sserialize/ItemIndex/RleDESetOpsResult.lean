import Sserialize.ItemIndex.RleDERoundTrip
import Sserialize.ItemIndex.RleDESetOps

namespace Sserialize

open RleDE Ascending

/-- An index with its words: any runs and any deltas, as long as the ids are strictly ascending
and below `2 ^ 31`. -/
structure RleDEIndex where
  index : ItemIndexPrivateRleDE
  words : List Word
  data : index.data = payload words
  dataSize : index.data.length < 2 ^ 32
  fits : ∀ w ∈ words, w.Fits
  nonEmpty : ∀ w ∈ words, w.NonEmpty
  size : index.size = (deltasOf words).length
  ascending : ∀ d ∈ (deltasOf words).tail, 0 < d
  inRange : (deltasOf words).sum < 2 ^ 31

namespace RleDEIndex

open ItemIndexPrivateRleDE Operand

def ids (i : RleDEIndex) : List Nat := sums 0 (deltasOf i.words)

variable (i : RleDEIndex)

theorem putIntoArray_eq : i.index.putIntoArray = .ok i.ids := by
  have hinRange := i.inRange
  rw [putIntoArray_spec i.fits i.data (Nat.le_of_eq i.size.symm), if_pos i.size.symm,
    wrapSums_eq_sums (by omega)]
  rfl

theorem size_eq : i.index.size = i.ids.length := by
  rw [i.size, ids, length_sums]

theorem pairwise_ids : i.ids.Pairwise (· < ·) := by
  have hasc := i.ascending
  unfold ids
  cases hdeltas : deltasOf i.words with
  | nil => exact List.Pairwise.nil
  | cons d ds =>
    rw [hdeltas, List.tail_cons] at hasc
    have hfrom := from_sums (0 + d) hasc
    rw [sums, List.pairwise_cons]
    exact ⟨fun x hx => hfrom.2 x hx, hfrom.1⟩

theorem length_ids_le : i.ids.length ≤ 2 ^ 31 := by
  have hle := length_le_sum_succ i.ascending
  have hinRange := i.inRange
  rw [ids, length_sums]
  omega

theorem start_spec (hne : i.ids ≠ []) :
    ∃ s w todo, start i.index = .ok s ∧ s.size = i.index.size ∧ Current s todo ∧
      i.ids = s.id :: sums s.id (s.restDeltas todo) ∧ i.words = w :: todo ∧ s.indexIt = 0 ∧
      w.deltas.length = s.rle - 1 + 1 ∧ (s.rle ≠ 0 ↔ w.isRun = true) := by
  have hsize := i.size
  have hlength := i.length_ids_le
  have hinRange := i.inRange
  have hasc := i.ascending
  have hfits := i.fits
  have hnonEmpty := i.nonEmpty
  have hunread : Unread i.words ⟨i.index.data, 0⟩ := i.data
  unfold ids at hne hlength ⊢
  rw [length_sums] at hlength
  unfold start
  cases hwords : i.words with
  | nil => simp [hwords, sums] at hne
  | cons w todo =>
    rw [hwords] at hunread hinRange hasc hsize hlength hfits hnonEmpty
    -- what the two kinds of a first word have in common
    have hstart : ∀ (data : UByteArrayAdapter) (val rle : Nat), Unread todo data →
        w.deltas = val :: List.replicate (rle - 1) val → rle < 2 ^ 31 →
        Current ⟨data, 0, i.index.size, rle, val, val⟩ todo ∧
          sums 0 (deltasOf (w :: todo)) = val :: sums val (restDeltas
            ⟨data, 0, i.index.size, rle, val, val⟩ todo) ∧
          w.deltas.length = rle - 1 + 1 := by
      intro data val rle hdata hdeltas hrle
      rw [deltasOf_cons, hdeltas, List.cons_append] at hinRange hasc hsize hlength ⊢
      rw [List.sum_cons] at hinRange
      rw [List.length_cons] at hsize hlength
      rw [sums, Nat.zero_add]
      refine ⟨?_, rfl, by rw [List.length_cons, List.length_replicate]⟩
      exact {
        unread := hdata
        fits := fun v hv => hfits v (List.mem_cons_of_mem _ hv)
        nonEmpty := fun v hv => hnonEmpty v (List.mem_cons_of_mem _ hv)
        ascending := hasc
        inRange := hinRange
        index := by simp only [restDeltas]; omega
        size := by simp only; omega
        rle := hrle }
    cases w with
    | single d =>
      obtain ⟨data, hget, hdata⟩ := getVlPackedUint32_single (hfits _ (by simp)) hunread
      obtain ⟨hcur, hids, hword⟩ := hstart data d 0 hdata rfl (by decide)
      rw [hget]
      simp only [ok_bind, two_mul_and_one, ne_eq, not_true, if_false, two_mul_shiftRight,
        except_pure]
      exact ⟨_, _, todo, rfl, rfl, hcur, hids, rfl, rfl, hword, by simp [Word.isRun]⟩
    | run n d =>
      have hw := hfits (Word.run n d) (by simp)
      have hn : 0 < n := hnonEmpty (Word.run n d) (by simp)
      obtain ⟨data, data', hget, hget', hdata⟩ := getVlPackedUint32_run hw hunread
      obtain ⟨hcur, hids, hword⟩ := hstart data' d n hdata
        (by rw [Word.deltas, ← List.replicate_succ, Nat.sub_add_cancel hn]) hw.1
      rw [hget]
      simp only [ok_bind, two_mul_add_one_and_one, ne_eq, one_ne_zero, not_false_eq_true, if_true,
        hget', two_mul_shiftRight, two_mul_add_one_shiftRight, except_pure]
      exact ⟨_, _, todo, rfl, rfl, hcur, hids, rfl, rfl, hword,
        by simp [Word.isRun, Nat.pos_iff_ne_zero.mp hn]⟩

theorem length_payload_le_two_mul {ws : List Word} (hne : ∀ w ∈ ws, w.NonEmpty)
    (hpos : ∀ d ∈ deltasOf ws, 0 < d) : (payload ws).length ≤ 2 * (deltasOf ws).sum := by
  have hdelta : ∀ d, 0 < d → Leb128.size 5 (2 * d) + 1 ≤ 2 * d := by
    intro d hd
    have hfive := Leb128.size_le 5 (2 * d)
    by_cases hsmall : d < 8
    · have hone := Leb128.size_le_of_lt (k := 0) 5 (n := 2 * d) (by omega)
      omega
    · omega
  have hcount : ∀ n, 0 < n → Leb128.size 5 (2 * n + 1) + 1 ≤ 2 * n := by
    intro n hn
    have hfive := Leb128.size_le 5 (2 * n + 1)
    by_cases hsmall : n < 8
    · have hone := Leb128.size_le_of_lt (k := 0) 5 (n := 2 * n + 1) (by omega)
      omega
    · omega
  induction ws with
  | nil => simp
  | cons w ws ih =>
    rw [deltasOf_cons] at hpos ⊢
    have hrec := ih (fun v hv => hne v (List.mem_cons_of_mem _ hv))
      fun d hd => hpos d (List.mem_append_right _ hd)
    rw [payload_cons, List.length_append, List.sum_append]
    cases w with
    | single d =>
      have hd := hdelta d (hpos d (by simp [Word.deltas]))
      have hlen := length_single_le d
      simp only [Word.deltas, List.sum_cons, List.sum_nil]
      omega
    | run n d =>
      have hn : 0 < n := hne (Word.run n d) (by simp)
      have hd0 : 0 < d := hpos d (by simp [Word.deltas, Nat.pos_iff_ne_zero.mp hn])
      have hd := hdelta d hd0
      have hc := hcount n hn
      have hlen := length_run_le n d
      have hmul : n + d ≤ n * d + 1 := by
        obtain ⟨a, rfl⟩ : ∃ a, n = a + 1 := ⟨n - 1, by omega⟩
        obtain ⟨b, rfl⟩ : ∃ b, d = b + 1 := ⟨d - 1, by omega⟩
        rw [Nat.add_mul, Nat.mul_add]
        omega
      simp only [Word.deltas, List.sum_replicate_nat]
      omega

theorem fits_toWord {rs : List (Nat × Nat)} (hmax : RunLength.Maximal rs)
    (hpos : ∀ d ∈ (RunLength.expand rs).tail, 0 < d) (hsum : (RunLength.expand rs).sum < 2 ^ 31) :
    ∀ w ∈ rs.map toWord, w.Fits := by
  intro w hw
  obtain ⟨r, hr, rfl⟩ := List.mem_map.mp hw
  obtain ⟨before, after, rfl⟩ := List.append_of_mem hr
  obtain ⟨n, d⟩ := r
  have hn : 0 < n := hmax.pos (n, d) hr
  rw [RunLength.expand_append, RunLength.expand_cons] at hpos hsum
  rw [List.sum_append, List.sum_append, List.sum_replicate_nat] at hsum
  have hd : d ≤ n * d := Nat.le_mul_of_pos_left d hn
  unfold toWord
  split
  · exact (by omega : d < 2 ^ 31)
  · rename_i hone
    simp only at hone
    have hd0 : 0 < d := by
      apply hpos
      obtain ⟨m, rfl⟩ : ∃ m, n = m + 2 := ⟨n - 2, by omega⟩
      cases RunLength.expand before with
      | nil | cons e es => simp [List.replicate_succ]
    have hn' : n ≤ n * d := Nat.le_mul_of_pos_right n hd0
    exact ⟨(by omega : n < 2 ^ 31), (by omega : d < 2 ^ 31)⟩

theorem nonEmpty_toWord {rs : List (Nat × Nat)} (hmax : RunLength.Maximal rs) :
    ∀ w ∈ rs.map toWord, w.NonEmpty := by
  intro w hw
  obtain ⟨r, hr, rfl⟩ := List.mem_map.mp hw
  have hpos := hmax.pos r hr
  unfold toWord
  split
  · trivial
  · exact hpos

theorem ofData_flushWithData (out : List Nat) (todo : List Word) (count : Nat)
    (hfits : ∀ w ∈ todo, w.Fits) (hne : ∀ w ∈ todo, w.NonEmpty)
    (hcount : count = (deltasOf todo).length) (hout : out = [] → todo = [])
    (hasc : From 0 (out ++ sums (out.getLastD 0) (deltasOf todo)))
    (hlt : out.getLastD 0 + (deltasOf todo).sum < 2 ^ 31) :
    ∃ r : RleDEIndex, ofData ((out.foldl RleDECreator.pushBack RleDECreator.new).flushWithData
      (payload todo) count) = .ok r.index ∧
      r.ids = out ++ sums (out.getLastD 0) (deltasOf todo) := by
  have hfromOut : From 0 out := ⟨(List.pairwise_append.mp hasc.1).1, fun _ _ => Nat.zero_le _⟩
  have hsumOut : (deltas 0 out).sum = out.getLastD 0 := by
    have hsum := sum_deltas hfromOut
    omega
  have hdeltas : deltas 0 (out ++ sums (out.getLastD 0) (deltasOf todo)) =
      deltas 0 out ++ deltasOf todo := by
    rw [deltas_append, deltas_sums]
  have hpos := deltas_tail_pos hasc
  rw [hdeltas] at hpos
  have hltOut : ∀ x ∈ out, x < 2 ^ 32 := by
    intro x hx
    have hle := le_getLastD_of_from hfromOut hx
    omega
  obtain ⟨flushed, htook⟩ := RleDECreator.took_new.foldl_pushBack (l := out)
    (by simpa using hfromOut) hltOut
  rw [List.nil_append, List.sum_nil] at htook
  have hmax := RunLength.maximal_runs (deltas 0 out)
  have hposOut := deltas_tail_pos hfromOut
  have hposTodo : ∀ d ∈ deltasOf todo, 0 < d := by
    intro d hd
    apply hpos
    cases out with
    | nil =>
      rw [hout rfl] at hd
      cases hd
    | cons x xs =>
      rw [deltas, List.cons_append, List.tail_cons]
      exact List.mem_append_right _ hd
  have hbytesOut := length_payload_le hmax (by rw [RunLength.expand_runs]; exact hposOut)
  rw [RunLength.expand_runs, hsumOut] at hbytesOut
  have hbytesTodo := length_payload_le_two_mul hne hposTodo
  have hlength := length_le_sum_succ hpos
  rw [List.sum_append, List.length_append, hsumOut] at hlength
  have hwords : deltasOf ((RunLength.runs (deltas 0 out)).map toWord ++ todo) =
      deltas 0 out ++ deltasOf todo := by
    rw [deltasOf_append, deltasOf_map_toWord, RunLength.expand_runs]
  have hpayload : payload ((RunLength.runs (deltas 0 out)).map toWord ++ todo) =
      payload ((RunLength.runs (deltas 0 out)).map toWord) ++ payload todo := payload_append _ _
  have hsize : (payload ((RunLength.runs (deltas 0 out)).map toWord ++ todo)).length < 2 ^ 32 := by
    rw [hpayload, List.length_append]
    omega
  refine ⟨{
    index := ⟨payload ((RunLength.runs (deltas 0 out)).map toWord ++ todo),
      (deltas 0 out).length + (deltasOf todo).length⟩
    words := (RunLength.runs (deltas 0 out)).map toWord ++ todo
    data := rfl
    dataSize := hsize
    fits := by
      intro w hw
      rcases List.mem_append.mp hw with hw | hw
      · refine fits_toWord hmax ?_ ?_ w hw
        · rw [RunLength.expand_runs]
          exact hposOut
        · rw [RunLength.expand_runs, hsumOut]
          omega
      · exact hfits w hw
    nonEmpty := by
      intro w hw
      rcases List.mem_append.mp hw with hw | hw
      · exact nonEmpty_toWord hmax w hw
      · exact hne w hw
    size := by rw [hwords, List.length_append]
    ascending := by rw [hwords]; exact hpos
    inRange := by rw [hwords, List.sum_append, hsumOut]; exact hlt }, ?_, ?_⟩
  · have hcount' : u32 (u32 (deltas 0 out).length + count) =
        (deltas 0 out).length + (deltasOf todo).length := by
      rw [hcount, u32_of_lt (n := (deltas 0 out).length) (by omega), u32_of_lt (by omega)]
    rw [RleDECreator.flushWithData, RleDECreator.flushData]
    simp only [htook.flushRle_data, RleDECreator.flushRle_count, htook.count, hcount', ← hpayload]
    rw [u32_of_lt hsize, List.append_assoc, ofData_header (by omega) hsize]
  · simp only [ids]
    rw [hwords, sums_append, sums_deltas hfromOut, hsumOut, Nat.zero_add]

theorem foldl_count_lt (out : List Nat) :
    (out.foldl RleDECreator.pushBack RleDECreator.new).count < 2 ^ 32 := by
  rcases List.eq_nil_or_concat out with rfl | ⟨init, x, rfl⟩
  · exact (by decide : 0 < 2 ^ 32)
  · rw [List.concat_eq_append, List.foldl_append]
    exact RleDECreator.pushBack_count_lt _ x

variable {out : List Nat}

theorem ofData_flush (hasc : From 0 out) (hlt : out.getLastD 0 < 2 ^ 31) :
    ∃ r : RleDEIndex, ofData (out.foldl RleDECreator.pushBack RleDECreator.new).flush =
      .ok r.index ∧ r.ids = out := by
  obtain ⟨r, hdata, hids⟩ := ofData_flushWithData out [] 0 (by simp) (by simp) rfl (fun _ => rfl)
    (by simpa [sums] using hasc) (by simpa using hlt)
  rw [payload_nil, RleDECreator.flushWithData, RleDECreator.flushRle_count, Nat.add_zero,
    List.append_nil, u32_of_lt (foldl_count_lt out),
    ← RleDECreator.flushRle_count (out.foldl RleDECreator.pushBack RleDECreator.new)] at hdata
  refine ⟨r, hdata, ?_⟩
  rw [hids, deltasOf_nil, sums, List.append_nil]

theorem getLastD_append_cons (l m : List Nat) (x first : Nat) :
    (l ++ x :: m).getLastD first = m.getLastD x := by
  induction l generalizing first with
  | nil => rw [List.nil_append, List.getLastD_cons]
  | cons y ys ih => rw [List.cons_append, List.getLastD_cons, ih]

theorem restDeltas_split (s : Operand) (todo : List Word) :
    s.id :: sums s.id (s.restDeltas todo) =
      (s.id :: sums s.id (List.replicate (s.rle - 1) s.val)) ++
        sums (s.id + (s.rle - 1) * s.val) (deltasOf todo) := by
  rw [restDeltas, sums_append, List.sum_replicate_nat]
  rfl

variable {todo : List Word}

theorem ofData_flushWord {s : Operand} (h : Current s todo)
    (hasc : From 0 (out ++ s.id :: sums s.id (s.restDeltas todo))) :
    ∃ r : RleDEIndex, ofData (((out ++ s.id :: sums s.id (List.replicate (s.rle - 1) s.val)).foldl
        RleDECreator.pushBack RleDECreator.new).flushWithData s.data.unread
          (deltasOf todo).length) = .ok r.index ∧
      r.ids = out ++ s.id :: sums s.id (s.restDeltas todo) := by
  have hrange := h.inRange
  have hunread : s.data.unread = payload todo := h.unread
  rw [restDeltas, List.sum_append, List.sum_replicate_nat] at hrange
  have hlast : (out ++ s.id :: sums s.id (List.replicate (s.rle - 1) s.val)).getLastD 0 =
      s.id + (s.rle - 1) * s.val := by
    rw [getLastD_append_cons, getLastD_sums, List.sum_replicate_nat]
  rw [restDeltas_split, ← List.append_assoc] at hasc ⊢
  have hflush := ofData_flushWithData
    (out ++ s.id :: sums s.id (List.replicate (s.rle - 1) s.val)) todo _ h.fits h.nonEmpty rfl
    (by simp) (by rw [hlast]; exact hasc) (by rw [hlast]; omega)
  rw [hlast] at hflush
  rw [hunread]
  exact hflush

theorem unread_count {s : Operand} (h : Current s todo) {taken : Nat}
    (htaken : taken = s.rle - 1 + 1) :
    u32 (s.indexIt + taken) = s.indexIt + taken ∧
      sub32 s.size (s.indexIt + taken) = (deltasOf todo).length := by
  have hindex := h.index
  have hsize := h.size
  rw [restDeltas, List.length_append, List.length_replicate] at hindex
  refine ⟨u32_of_lt (by omega), ?_⟩
  rw [sub32_of_le (by omega) (by omega)]
  omega

theorem ofData_flushRemainder {s : Operand} (h : Current s todo)
    (hasc : From 0 (out ++ s.id :: sums s.id (s.restDeltas todo))) :
    ∃ r : RleDEIndex, ofData (s.flushRemainder
      (out.foldl RleDECreator.pushBack RleDECreator.new)) = .ok r.index ∧
      r.ids = out ++ s.id :: sums s.id (s.restDeltas todo) := by
  have hrange := h.inRange
  rw [restDeltas, List.sum_append, List.sum_replicate_nat] at hrange
  have hflush := ofData_flushWord h hasc
  rw [List.foldl_append] at hflush
  unfold flushRemainder
  by_cases hzero : s.rle = 0
  · obtain ⟨hu, hcount⟩ := unread_count h (show 1 = s.rle - 1 + 1 by omega)
    rw [hzero] at hflush
    rw [if_neg (fun hne => hne hzero), hu, hcount]
    exact hflush
  · obtain ⟨hu, hcount⟩ := unread_count h (Nat.sub_add_cancel (Nat.pos_of_ne_zero hzero)).symm
    rw [if_pos hzero, hu, hcount, RleDECreator.pushRle_eq _ (by omega)]
    exact hflush

theorem lt_of_mem_ids {id : Nat} (h : id ∈ i.ids) : id < 2 ^ 31 := by
  have hle := le_getLastD_of_from ⟨i.pairwise_ids, fun _ _ => Nat.zero_le _⟩ h
  have hsum := getLastD_sums 0 (deltasOf i.words)
  have hinRange := i.inRange
  unfold ids at hle
  omega

theorem setOp_eq (op : SetOp) (a b : RleDEIndex) (ha : a.ids ≠ []) (hb : b.ids ≠ []) :
    ∃ r : RleDEIndex, setOp op a.index b.index = .ok r.index ∧ r.ids = op.apply a.ids b.ids := by
  have hasc : From 0 (op.apply a.ids b.ids) :=
    ⟨op.pairwise_apply a.pairwise_ids b.pairwise_ids, fun _ _ => Nat.zero_le _⟩
  have hlt : ∀ id ∈ op.apply a.ids b.ids, id < 2 ^ 31 := fun id hid =>
    (SortedMerge.mem_of_mem_merge hid).elim a.lt_of_mem_ids b.lt_of_mem_ids
  obtain ⟨sa, -, todoA, hstartA, -, hcurA, hidsA, -⟩ := a.start_spec ha
  obtain ⟨sb, -, todoB, hstartB, -, hcurB, hidsB, -⟩ := b.start_spec hb
  have hrounds : (sa.id :: sums sa.id (sa.restDeltas todoA)).length +
      (sb.id :: sums sb.id (sb.restDeltas todoB)).length < a.index.size + b.index.size + 1 := by
    rw [← hidsA, ← hidsB, ← a.size_eq, ← b.size_eq]
    omega
  obtain ⟨sa', sb', out, as, bs, hloop, hsizeA', hsizeB', hremA, hremB, happly, hend⟩ :=
    opLoop_spec op (.more todoA hcurA) (.more todoB hcurB) RleDECreator.new hrounds
  rw [← hidsA, ← hidsB] at happly
  have hremainder := op.remainder_eq
  unfold setOp genericOp
  simp only [hstartA, hstartB, ok_bind, hloop]
  rw [happly] at hasc hlt ⊢
  -- with nothing left to append the pushed ids are the whole result
  have hflush : op.apply as bs = [] →
      ∃ r : RleDEIndex, ofData (out.foldl RleDECreator.pushBack RleDECreator.new).flush =
        .ok r.index ∧ r.ids = out ++ op.apply as bs := by
    intro hnil
    rw [hnil, List.append_nil] at hasc hlt ⊢
    refine ofData_flush hasc ?_
    rcases List.eq_nil_or_concat out with rfl | ⟨init, x, rfl⟩
    · exact (by decide : 0 < 2 ^ 31)
    · rw [List.concat_eq_append, getLastD_append_cons]
      exact hlt x (by simp)
  rcases hremA.cons_or_nil with ⟨hmoreA, todoA', hA, rfl⟩ | ⟨hdoneA, rfl⟩
  · obtain rfl : bs = [] := by simpa using hend
    have hdoneB : ¬ sb'.indexIt < sb'.size := by
      rcases hremB.cons_or_nil with ⟨-, _, _, hcons⟩ | ⟨hdone, -⟩
      · simp at hcons
      · exact hdone
    have hrest := SortedMerge.merge_nil_right op.func.pushFirstSmaller op.func.pushEqual
      op.func.pushSecondSmaller (sa'.id :: sums sa'.id (sa'.restDeltas todoA'))
    by_cases hpush : op.func.pushFirstRemainder = true
    · rw [if_pos ⟨hpush, hmoreA⟩]
      rw [SetOp.apply, hrest, ← hremainder.1, hpush] at hasc ⊢
      exact ofData_flushRemainder hA hasc
    · rw [if_neg (fun h => hpush h.1), if_neg (fun h => hdoneB h.2)]
      apply hflush
      rw [SetOp.apply, hrest, ← hremainder.1, Bool.eq_false_iff.mpr hpush]
      rfl
  · have hrest := SortedMerge.merge_nil_left op.func.pushFirstSmaller op.func.pushEqual
      op.func.pushSecondSmaller bs
    rw [if_neg (fun h => hdoneA h.2)]
    rcases hremB.cons_or_nil with ⟨hmoreB, todoB', hB, rfl⟩ | ⟨hdoneB, rfl⟩
    · by_cases hpush : op.func.pushSecondRemainder = true
      · rw [if_pos ⟨hpush, hmoreB⟩]
        rw [SetOp.apply, hrest, ← hremainder.2, hpush] at hasc ⊢
        exact ofData_flushRemainder hB hasc
      · rw [if_neg (fun h => hpush h.1)]
        apply hflush
        rw [SetOp.apply, hrest, ← hremainder.2, Bool.eq_false_iff.mpr hpush]
        rfl
    · rw [if_neg (fun h => hdoneB h.2)]
      apply hflush
      rw [SetOp.apply, hrest, SortedMerge.keep_nil]

/-- The set operations on two non-empty indices return a well-formed index on exactly the ids of
the operation, in ascending order. -/
theorem rleDE_setOp_correct (op : SetOp) (a b : RleDEIndex) (ha : a.ids ≠ []) (hb : b.ids ≠ []) :
    ∃ r : RleDEIndex, setOp op a.index b.index = .ok r.index ∧
      r.index.size = r.ids.length ∧ r.index.putIntoArray = .ok r.ids ∧
      r.ids.Pairwise (· < ·) ∧ ∀ id, id ∈ r.ids ↔ op.Holds (id ∈ a.ids) (id ∈ b.ids) := by
  obtain ⟨r, hrun, hids⟩ := setOp_eq op a b ha hb
  refine ⟨r, hrun, r.size_eq, r.putIntoArray_eq, r.pairwise_ids, ?_⟩
  intro id
  rw [hids, op.mem_apply a.pairwise_ids b.pairwise_ids]

theorem rleDE_setOp_correct_unite : ∃ r : RleDEIndex,
    setOp .unite ⟨[7, 2], 3⟩ ⟨[4, 6], 2⟩ = .ok r.index ∧
      r.index.size = r.ids.length ∧ r.index.putIntoArray = .ok r.ids ∧
      r.ids.Pairwise (· < ·) ∧
      ∀ id, id ∈ r.ids ↔ SetOp.unite.Holds (id ∈ [1, 2, 3]) (id ∈ [2, 5]) :=
  rleDE_setOp_correct .unite
    { index := ⟨[7, 2], 3⟩, words := [.run 3 1], data := by decide +kernel, dataSize := by decide,
      fits := by decide, nonEmpty := by decide, size := by decide, ascending := by decide,
      inRange := by decide }
    { index := ⟨[4, 6], 2⟩, words := [.single 2, .single 3], data := by decide +kernel,
      dataSize := by decide, fits := by decide, nonEmpty := by decide, size := by decide,
      ascending := by decide, inRange := by decide }
    (by decide) (by decide)

end RleDEIndex

end Sserialize
