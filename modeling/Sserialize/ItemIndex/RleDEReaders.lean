import Sserialize.ItemIndex.RleDEWords

namespace Sserialize

open RleDE

namespace ItemIndexPrivateRleDE

variable {idx : ItemIndexPrivateRleDE}

/-- The cache holds the ids of the words `done`; the words `todo` are unread. -/
structure Cached (idx : ItemIndexPrivateRleDE) (done todo : List Word) (c : Cache) : Prop where
  unread : idx.data.drop c.dataOffset = payload todo
  curId : c.curId = wrapLast 0 (deltasOf done)
  cache : c.cache = wrapSums 0 (deltasOf done)

variable {ws : List Word}

theorem cached_new (hdata : idx.data = payload ws) : Cached idx [] ws Cache.new :=
  ⟨hdata, rfl, rfl⟩

theorem pushRun_eq (value rle : Nat) (c : Cache) :
    Cache.pushRun value rle c = { c with
      curId := wrapLast c.curId (List.replicate rle value)
      cache := c.cache ++ wrapSums c.curId (List.replicate rle value) } := by
  induction rle generalizing c with
  | zero => simp [Cache.pushRun, wrapLast, wrapSums]
  | succ rle ih =>
    rw [Cache.pushRun, ih]
    simp [Cache.pushBack, List.replicate_succ, wrapSums, wrapLast]

variable {todo : List Word}

theorem offset_add_lt {w : Word} {offset : Nat} (hlen : idx.data.length < 2 ^ 32)
    (hdrop : idx.data.drop offset = payload (w :: todo)) : offset + w.bytes.length < 2 ^ 32 := by
  have hpos := List.length_pos_of_ne_nil (bytes_ne_nil w)
  have hle := congrArg List.length hdrop
  simp only [List.length_drop, payload_cons, List.length_append] at hle
  omega

theorem fill_spec {done todo : List Word} {w : Word} {c : Cache} (hw : w.Fits)
    (hlen : idx.data.length < 2 ^ 32) (hc : Cached idx done (w :: todo) c) :
    ∃ c', idx.fill c = .ok c' ∧ Cached idx (done ++ [w]) todo c' := by
  have hbound := offset_add_lt hlen hc.unread
  have hunread := hc.unread
  rw [payload_cons] at hunread
  have hnext := drop_add_of_drop hunread
  have hdeltas : deltasOf (done ++ [w]) = deltasOf done ++ w.deltas := by
    simp [deltasOf_append]
  unfold fill
  cases w with
  | single d =>
    rw [get_single hw hunread]
    simp only [ok_bind, two_mul_and_one, ne_eq, not_true, if_false, two_mul_shiftRight,
      except_pure]
    refine ⟨_, rfl, ?_, ?_, ?_⟩
    · rw [Cache.pushBack, u32_of_lt hbound]
      exact hnext
    · rw [hdeltas, wrapLast_append, ← hc.curId]
      rfl
    · rw [hdeltas, wrapSums_append, ← hc.curId, ← hc.cache]
      rfl
  | run n d =>
    obtain ⟨len₁, len₂, hcount, hdelta, hsum⟩ := get_run hw.1 hw.2 hunread
    have hfirst : u32 (c.dataOffset + len₁) = c.dataOffset + len₁ := u32_of_lt (by omega)
    have hsecond : u32 (c.dataOffset + len₁ + len₂) =
        c.dataOffset + (Word.run n d).bytes.length := by
      rw [u32_of_lt (by omega)]
      omega
    rw [hcount]
    simp only [ok_bind, two_mul_add_one_and_one, ne_eq, one_ne_zero, not_false_eq_true, if_true,
      hfirst, hdelta, two_mul_shiftRight, two_mul_add_one_shiftRight, except_pure, pushRun_eq]
    refine ⟨_, rfl, ?_, ?_, ?_⟩
    · simp only [hsecond]
      exact hnext
    · rw [hdeltas, wrapLast_append, ← hc.curId]
      rfl
    · rw [hdeltas, wrapSums_append, ← hc.curId, ← hc.cache]
      rfl

theorem fillTo_spec {pos rounds : Nat} {done todo : List Word} {c : Cache}
    (hfits : ∀ w ∈ todo, w.Fits) (hlen : idx.data.length < 2 ^ 32)
    (hc : Cached idx done todo c) (hpos : pos < (deltasOf (done ++ todo)).length)
    (hrounds : todo.length < rounds) :
    ∃ c' done' todo', idx.fillTo pos rounds c = .ok c' ∧ Cached idx done' todo' c' ∧
      done' ++ todo' = done ++ todo ∧ pos < (deltasOf done').length := by
  induction rounds generalizing done todo c with
  | zero => omega
  | succ rounds ih =>
    have hcache : c.cache.length = (deltasOf done).length := by rw [hc.cache, length_wrapSums]
    unfold fillTo
    by_cases hmore : c.cache.length ≤ pos
    · cases todo with
      | nil =>
        rw [List.append_nil] at hpos
        omega
      | cons w todo =>
        obtain ⟨c', hfill, hc'⟩ := fill_spec (hfits w (by simp)) hlen hc
        have happend : done ++ [w] ++ todo = done ++ w :: todo := by simp
        rw [if_pos hmore, hfill, ok_bind]
        rw [List.length_cons] at hrounds
        obtain ⟨c'', done', todo', hrun, hc'', hwords, hdone⟩ :=
          ih (fun v hv => hfits v (List.mem_cons_of_mem _ hv)) hc' (by rw [happend]; exact hpos)
            (by omega)
        exact ⟨c'', done', todo', hrun, hc'', hwords.trans happend, hdone⟩
    · rw [if_neg hmore]
      exact ⟨c, done, todo, rfl, hc, rfl, by omega⟩

section
variable {ws : List Word} (hfits : ∀ w ∈ ws, w.Fits) (hdata : idx.data = payload ws)
  (hlen : idx.data.length < 2 ^ 32) (hsize : idx.size = (deltasOf ws).length)

include hfits hdata hlen hsize

theorem at_spec {done todo : List Word} {c : Cache} {pos : Nat} (hwords : done ++ todo = ws)
    (hc : Cached idx done todo c) (hpos : pos < idx.size) :
    ∃ c' done' todo', idx.at c pos = .ok ((wrapSums 0 (deltasOf ws)).getD pos 0, c') ∧
      done' ++ todo' = ws ∧ Cached idx done' todo' c' := by
  have hrounds : todo.length < idx.data.length + 1 := by
    have hle := length_le_length_payload ws
    rw [← hwords, List.length_append] at hle
    rw [hdata, ← hwords]
    omega
  have htodo : ∀ w ∈ todo, w.Fits := fun w hw => hfits w (by rw [← hwords]; simp [hw])
  obtain ⟨c', done', todo', hfill, hc', hwords', hdone⟩ :=
    fillTo_spec htodo hlen hc (by rw [hwords, ← hsize]; exact hpos) hrounds
  have hprefix : c'.cache.getD pos 0 = (wrapSums 0 (deltasOf ws)).getD pos 0 := by
    have hall : deltasOf ws = deltasOf done' ++ deltasOf todo' := by
      rw [← hwords, ← hwords', deltasOf_append]
    rw [hall, wrapSums_append, ← hc'.cache]
    have hlt : pos < c'.cache.length := by rw [hc'.cache, length_wrapSums]; exact hdone
    simp [List.getD, List.getElem?_append_left hlt]
  unfold «at»
  rw [if_neg (by omega), hfill, ok_bind, hprefix]
  exact ⟨c', done', todo', rfl, hwords'.trans hwords, hc'⟩

theorem atEach_spec {done todo : List Word} {c : Cache} {positions : List Nat}
    (hwords : done ++ todo = ws) (hc : Cached idx done todo c)
    (hpos : ∀ pos ∈ positions, pos < idx.size) :
    idx.atEach positions c =
      .ok (positions.map fun pos => (wrapSums 0 (deltasOf ws)).getD pos 0) := by
  induction positions generalizing done todo c with
  | nil => rfl
  | cons pos positions ih =>
    obtain ⟨c', done', todo', hat, hwords', hc'⟩ :=
      at_spec hfits hdata hlen hsize hwords hc (hpos pos (by simp))
    have hrest := ih hwords' hc' fun p hp => hpos p (List.mem_cons_of_mem _ hp)
    simp only [atEach, hat, ok_bind, hrest]
    rfl

end

/-- The pending run of `it` and the words `todo` are still to come. -/
structure AtWord (idx : ItemIndexPrivateRleDE) (todo : List Word) (it : MyIterator) : Prop where
  unread : idx.data.drop it.dataOffset = payload todo
  inside : it.dataOffset ≤ idx.data.length

variable {it : MyIterator}

theorem next_pending {count : Nat} (hcount : it.curRleCount = count + 1) :
    idx.next it = .ok { it with
      curRleCount := count, curId := u32 (it.curId + it.curRleDiff) } := by
  unfold next
  rw [if_pos (by omega), hcount, Nat.add_sub_cancel]

theorem next_word {w : Word} (hw : w.Fits) (hne : w.NonEmpty) (hcount : it.curRleCount = 0)
    (hit : AtWord idx (w :: todo) it) :
    ∃ it' d ds, idx.next it = .ok it' ∧ AtWord idx todo it' ∧ w.deltas = d :: ds ∧
      it'.curId = u32 (it.curId + d) ∧ ds = List.replicate it'.curRleCount it'.curRleDiff := by
  have hunread := hit.unread
  rw [payload_cons] at hunread
  have hnext := drop_add_of_drop hunread
  have hpos := List.length_pos_of_ne_nil (bytes_ne_nil w)
  have hle := congrArg List.length hunread
  rw [List.length_drop, List.length_append] at hle
  unfold next
  rw [if_neg (by omega), if_pos (by omega)]
  cases w with
  | single d =>
    rw [get_single hw hunread]
    simp only [ok_bind, two_mul_and_one, ne_eq, not_true, if_false, two_mul_shiftRight,
      except_pure]
    refine ⟨_, d, [], rfl, ⟨hnext, ?_⟩, rfl, rfl, ?_⟩
    · have := hit.inside
      simp only
      omega
    · simp [hcount]
  | run n d =>
    obtain ⟨len₁, len₂, hrle, hdelta, hsum⟩ := get_run hw.1 hw.2 hunread
    rw [hrle]
    simp only [ok_bind, two_mul_add_one_and_one, ne_eq, one_ne_zero, not_false_eq_true, if_true,
      hdelta, two_mul_shiftRight, two_mul_add_one_shiftRight, except_pure]
    have hn : n < 2 ^ 31 := hw.1
    have hone : 1 ≤ n := hne
    refine ⟨_, d, List.replicate (n - 1) d, rfl, ⟨?_, ?_⟩, ?_, rfl, ?_⟩
    · rw [Nat.add_assoc, hsum]
      exact hnext
    · have := hit.inside
      simp only
      omega
    · obtain ⟨m, rfl⟩ : ∃ m, n = m + 1 := ⟨n - 1, by omega⟩
      rfl
    · rw [sub32_of_le hone (by omega)]

theorem next_end (hcount : it.curRleCount = 0) (hit : AtWord idx [] it) :
    idx.next it = .ok { it with curId := 2 ^ 32 - 1, dataOffset := 2 ^ 32 - 1 } := by
  have hdone := congrArg List.length hit.unread
  rw [List.length_drop, payload_nil, List.length_nil] at hdone
  unfold next
  rw [if_neg (by omega), if_neg (by omega)]

theorem idsFrom_spec {it last : MyIterator} {steps : Nat} (hfits : ∀ w ∈ todo, w.Fits)
    (hne : ∀ w ∈ todo, w.NonEmpty) (hlen : idx.data.length < 2 ^ 32 - 1)
    (hlast : last.dataOffset = 2 ^ 32 - 1) (hit : AtWord idx todo it)
    (hsteps : it.curRleCount + (deltasOf todo).length + 1 < steps) :
    idx.idsFrom last steps it = .ok (some (it.curId ::
      wrapSums it.curId (List.replicate it.curRleCount it.curRleDiff ++ deltasOf todo))) := by
  induction steps generalizing todo it with
  | zero => omega
  | succ steps ih =>
    have hinside := hit.inside
    have hmore : it.dataOffset ≠ last.dataOffset := by omega
    rw [idsFrom, if_pos hmore]
    cases hcount : it.curRleCount with
    | succ count =>
      have hit' : AtWord idx todo { it with
          curRleCount := count, curId := u32 (it.curId + it.curRleDiff) } :=
        ⟨hit.unread, hit.inside⟩
      have hrest := ih hfits hne hit' (by simp only; omega)
      rw [next_pending hcount, ok_bind, hrest]
      rfl
    | zero =>
      cases todo with
      | nil =>
        rw [next_end hcount hit, ok_bind]
        cases steps with
        | zero => omega
        | succ steps =>
          rw [idsFrom, if_neg (by simp [hlast])]
          rfl
      | cons w todo =>
        obtain ⟨it', d, ds, hnext, hit', hdeltas, hid, hds⟩ :=
          next_word (hfits w (by simp)) (hne w (by simp)) hcount hit
        have hlength : (deltasOf (w :: todo)).length =
            1 + it'.curRleCount + (deltasOf todo).length := by
          rw [deltasOf_cons, hdeltas, hds]
          simp
          omega
        rw [hnext, ok_bind,
          ih (fun v hv => hfits v (List.mem_cons_of_mem _ hv))
            (fun v hv => hne v (List.mem_cons_of_mem _ hv)) hit' (by omega), ok_bind]
        simp only [except_pure, Option.map_some, deltasOf_cons, hdeltas, List.replicate_zero,
          List.nil_append, List.cons_append, wrapSums, ← hid, ← hds]

def Unread (todo : List Word) (d : UByteArrayAdapter) : Prop := d.unread = payload todo

variable {tmpData : UByteArrayAdapter}

theorem getVlPackedUint32_single {d : Nat} (hw : (Word.single d).Fits)
    (hdata : Unread (Word.single d :: todo) tmpData) :
    ∃ tmpData', tmpData.getVlPackedUint32 = .ok (2 * d, tmpData') ∧ Unread todo tmpData' := by
  have hdrop : tmpData.data.drop tmpData.getPtr = (Word.single d).bytes ++ payload todo := by
    rw [← payload_cons]
    exact hdata
  unfold UByteArrayAdapter.getVlPackedUint32
  rw [get_single hw hdrop]
  exact ⟨_, rfl, drop_add_of_drop hdrop⟩

theorem getVlPackedUint32_run {n d : Nat} (hw : (Word.run n d).Fits)
    (hdata : Unread (Word.run n d :: todo) tmpData) :
    ∃ tmpData' tmpData'', tmpData.getVlPackedUint32 = .ok (2 * n + 1, tmpData') ∧
      tmpData'.getVlPackedUint32 = .ok (2 * d, tmpData'') ∧ Unread todo tmpData'' := by
  have hdrop : tmpData.data.drop tmpData.getPtr = (Word.run n d).bytes ++ payload todo := by
    rw [← payload_cons]
    exact hdata
  obtain ⟨len₁, len₂, hcount, hdelta, hsum⟩ := get_run hw.1 hw.2 hdrop
  refine ⟨{ tmpData with getPtr := tmpData.getPtr + len₁ },
    { tmpData with getPtr := tmpData.getPtr + len₁ + len₂ }, ?_, ?_, ?_⟩
  · unfold UByteArrayAdapter.getVlPackedUint32
    rw [hcount]
    rfl
  · unfold UByteArrayAdapter.getVlPackedUint32
    rw [hdelta]
    rfl
  · change tmpData.data.drop (tmpData.getPtr + len₁ + len₂) = payload todo
    rw [Nat.add_assoc, hsum]
    exact drop_add_of_drop hdrop

theorem getVlPackedUint32_end (hdata : Unread [] tmpData) :
    tmpData.getVlPackedUint32 = .error .outOfBounds := by
  have hdone : tmpData.data.drop tmpData.getPtr = [] := hdata
  unfold UByteArrayAdapter.getVlPackedUint32
  rw [getVlPackedUint32At_end _ (List.drop_eq_nil_iff.mp hdone)]
  rfl

theorem putRun_eq {val rle prev room : Nat} {dest : List Nat} (hroom : rle ≤ room) :
    putRun val rle prev room dest = .ok (wrapLast prev (List.replicate rle val), room - rle,
      dest ++ wrapSums prev (List.replicate rle val)) := by
  induction rle generalizing prev room dest with
  | zero => simp [putRun, wrapLast, wrapSums]
  | succ rle ih =>
    obtain ⟨room, rfl⟩ : ∃ k, room = k + 1 := ⟨room - 1, by omega⟩
    rw [putRun, ih (by omega)]
    simp [List.replicate_succ, wrapSums, wrapLast]

/-- The array is filled exactly when the payload has an id for each of its elements; with fewer
ids the reader runs over the end of the data. -/
theorem putIntoArrayLoop_spec {rounds prev room : Nat} {dest : List Nat}
    (hfits : ∀ w ∈ todo, w.Fits) (hdata : Unread todo tmpData)
    (hroom : (deltasOf todo).length ≤ room) (hrounds : todo.length < rounds) :
    putIntoArrayLoop rounds tmpData prev room dest =
      if (deltasOf todo).length = room then .ok (dest ++ wrapSums prev (deltasOf todo))
      else .error .outOfBounds := by
  induction rounds generalizing todo tmpData prev room dest with
  | zero => omega
  | succ rounds ih =>
    unfold putIntoArrayLoop
    by_cases hfull : room = 0
    · have hnone : deltasOf todo = [] := List.length_eq_zero_iff.mp (by omega)
      simp [hfull, hnone, wrapSums]
    · rw [if_pos hfull]
      cases todo with
      | nil =>
        have hne : ¬ (deltasOf []).length = room := fun h => hfull h.symm
        rw [getVlPackedUint32_end hdata, error_bind, if_neg hne]
      | cons w todo =>
        have htodo : ∀ v ∈ todo, v.Fits := fun v hv => hfits v (List.mem_cons_of_mem _ hv)
        rw [List.length_cons] at hrounds
        rw [deltasOf_cons, List.length_append] at hroom ⊢
        cases w with
        | single d =>
          obtain ⟨tmpData', hget, hdata'⟩ := getVlPackedUint32_single (hfits _ (by simp)) hdata
          have hlen : (Word.single d).deltas.length = 1 := rfl
          rw [hlen] at hroom ⊢
          rw [hget]
          simp only [ok_bind, two_mul_and_one, ne_eq, not_true, if_false, two_mul_shiftRight]
          rw [ih htodo hdata' (by omega) (by omega)]
          have hiff : (deltasOf todo).length = room - 1 ↔ 1 + (deltasOf todo).length = room := by
            omega
          simp only [hiff]
          split
          · simp [Word.deltas, wrapSums]
          · rfl
        | run n d =>
          obtain ⟨tmpData', tmpData'', hget, hget', hdata'⟩ :=
            getVlPackedUint32_run (hfits _ (by simp)) hdata
          have hlen : (Word.run n d).deltas.length = n := by simp [Word.deltas]
          rw [hlen] at hroom ⊢
          rw [hget]
          simp only [ok_bind, two_mul_add_one_and_one, ne_eq, one_ne_zero, not_false_eq_true,
            if_true, hget', two_mul_shiftRight, two_mul_add_one_shiftRight]
          rw [putRun_eq (by omega)]
          simp only [ok_bind]
          rw [ih htodo hdata' (by omega) (by omega)]
          have hiff : (deltasOf todo).length = room - n ↔ n + (deltasOf todo).length = room := by
            omega
          simp only [hiff]
          split
          · rw [wrapSums_append, Word.deltas, List.append_assoc]
          · rfl

theorem putIntoArray_spec (hfits : ∀ w ∈ ws, w.Fits) (hdata : idx.data = payload ws)
    (hsize : (deltasOf ws).length ≤ idx.size) :
    idx.putIntoArray = if (deltasOf ws).length = idx.size then .ok (wrapSums 0 (deltasOf ws))
      else .error .outOfBounds := by
  have hrounds : ws.length < idx.data.length + 1 := by
    rw [hdata]
    exact Nat.lt_succ_of_le (length_le_length_payload ws)
  have hunread : Unread ws ⟨idx.data, 0⟩ := hdata
  unfold putIntoArray
  rw [putIntoArrayLoop_spec hfits hunread hsize hrounds, List.nil_append]

end ItemIndexPrivateRleDE

end Sserialize
