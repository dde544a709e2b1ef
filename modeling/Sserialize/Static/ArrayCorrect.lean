import Sserialize.Static.Array

namespace Sserialize

namespace ArrayCreator

def starts (items : List Bytes) : List Nat :=
  (List.range items.length).map fun i => (items.take i).flatten.length

@[simp] theorem length_starts (items : List Bytes) : (starts items).length = items.length := by
  rw [starts, List.length_map, List.length_range]

variable (items : List Bytes)

theorem getElem_starts {i : Nat} (h : i < (starts items).length) :
    (starts items)[i] = (items.take i).flatten.length := by
  simp [starts]

theorem starts_append (bs : Bytes) :
    starts (items ++ [bs]) = starts items ++ [items.flatten.length] := by
  have hfront : ∀ i ∈ List.range items.length,
      ((items ++ [bs]).take i).flatten.length = (items.take i).flatten.length := by
    intro i hi
    rw [List.take_append_of_le_length (Nat.le_of_lt (List.mem_range.mp hi))]
  rw [starts, List.length_append, List.length_singleton, List.range_succ, List.map_append,
    List.map_congr_left hfront, List.map_singleton, List.take_left, starts]

theorem length_flatten_take_succ {items : List Bytes} {i : Nat} (h : i < items.length) :
    (items.take (i + 1)).flatten.length = (items.take i).flatten.length + items[i].length := by
  rw [List.take_succ_eq_append_getElem h, List.flatten_append, List.length_append]
  simp

theorem length_flatten_take_le (i : Nat) : (items.take i).flatten.length ≤ items.flatten.length := by
  have hsplit := congrArg List.length (congrArg List.flatten (List.take_append_drop i items))
  rw [List.flatten_append, List.length_append] at hsplit
  omega

theorem length_flatten_take_mono {i j : Nat} (h : i ≤ j) :
    (items.take i).flatten.length ≤ (items.take j).flatten.length := by
  have hle := length_flatten_take_le (items.take j) i
  rwa [List.take_take, Nat.min_eq_left h] at hle

theorem starts_sorted : (starts items).Pairwise (· ≤ ·) := by
  rw [starts, List.pairwise_map]
  exact List.pairwise_lt_range.imp fun h => length_flatten_take_mono items (Nat.le_of_lt h)

theorem le_of_mem_starts {items : List Bytes} {id : Nat} (h : id ∈ starts items) :
    id ≤ items.flatten.length := by
  obtain ⟨i, -, rfl⟩ := List.mem_map.mp h
  exact length_flatten_take_le items i

theorem drop_flatten {items : List Bytes} {i : Nat} (h : i < items.length) :
    items.flatten.drop (items.take i).flatten.length =
      items[i] ++ (items.drop (i + 1)).flatten := by
  have hsplit : items.flatten =
      (items.take i).flatten ++ (items[i] ++ (items.drop (i + 1)).flatten) := by
    rw [← List.flatten_cons, ← List.drop_eq_getElem_cons h, ← List.flatten_append,
      List.take_append_drop]
  rw [hsplit, List.drop_left]

end ArrayCreator

namespace ValueType

variable {α : Type} (ty : ValueType α)

structure Encodes (bs : Bytes) (value : α) : Prop where
  length : ∀ n, ty.fixedLength = some n → bs.length = n
  minLength : ty.minLength ≤ bs.length
  deserialize : ty.deserialize bs = .ok value
  get : ty.serializationSupport = true → ty.fixedLength.isSome = true →
    ∀ rest, ty.get (bs ++ rest) = .ok value

structure Lawful : Prop where
  encodes : ∀ value, ty.Encodes (ty.serialize value) value
  length_pos : ∀ n, ty.fixedLength = some n → 0 < n
  length_lt : ∀ n, ty.fixedLength = some n → n < 2 ^ 32

end ValueType

namespace ArrayCreator

variable {α : Type} (ty : ValueType α) (estimate : List Nat → RegLine)

/-- The operations store these values in this order. -/
inductive Stores : List (Op α) → List α → Prop where
  | nil : Stores [] []
  | put {ops : List (Op α)} {values : List α} (value : α) (h : Stores ops values) :
      Stores (.put value :: ops) (value :: values)
  | rawPut {ops : List (Op α)} {values : List α} {bs : Bytes} {value : α}
      (hbs : ty.Encodes bs value) (h : Stores ops values) :
      Stores (.rawPut bs :: ops) (value :: values)
  | flush {ops : List (Op α)} {values : List α} (h : Stores ops values) :
      Stores (.flush :: ops) values

def items : List (Op α) → List Bytes
  | [] => []
  | .put value :: ops => ty.serialize value :: items ops
  | .rawPut bs :: ops => bs :: items ops
  | .flush :: ops => items ops

variable {ty estimate}

theorem Stores.encodes (hty : ty.Lawful) {ops : List (Op α)} {values : List α}
    (h : Stores ty ops values) : List.Forall₂ ty.Encodes (items ty ops) values := by
  induction h with
  | nil => exact .nil
  | put value _ ih => exact .cons (hty.encodes value) ih
  | rawPut hbs _ ih => exact .cons hbs ih
  | flush _ ih => exact ih

/-- A creator that began behind `front` and has put these items. -/
structure Holds (ty : ValueType α) (front : Bytes) (items : List Bytes) (c : ArrayCreator) :
    Prop where
  written : ∃ dataLen : Bytes, dataLen.length = 5 ∧
    c.dest.written = front ++ (4 :: dataLen) ++ items.flatten
  size : c.size = items.length
  offsets : c.offsets = if ty.fixedLength.isNone then starts items else []
  dataLenPtr : c.dataLenPtr = front.length + 1
  dataBegin : c.dataBegin = front.length + 6

theorem holds_new (destination : PutAdapter) :
    Holds ty destination.written [] (new destination) where
  written := ⟨leBytes 5 0, length_leBytes 5 0, by simp [new, PutAdapter.put]⟩
  size := rfl
  offsets := by
    cases ty.fixedLength with
    | none => rfl
    | some n => rfl
  dataLenPtr := by simp [new, PutAdapter.put, PutAdapter.tellPutPtr]
  dataBegin := by simp [new, PutAdapter.put, PutAdapter.tellPutPtr]

section Holds

variable {front : Bytes} {its : List Bytes} {c : ArrayCreator}

theorem Holds.tellPutPtr (h : Holds ty front its c) :
    c.dest.tellPutPtr - c.dataBegin = its.flatten.length := by
  obtain ⟨dataLen, hlength, hwritten⟩ := h.written
  rw [PutAdapter.tellPutPtr, hwritten, h.dataBegin, List.length_append, List.length_append,
    List.length_cons, hlength]
  omega

theorem Holds.putRaw (h : Holds ty front its c) (bs : Bytes) :
    Holds ty front (its ++ [bs]) (c.putRaw ty bs) where
  written := by
    obtain ⟨dataLen, hlength, hwritten⟩ := h.written
    refine ⟨dataLen, hlength, ?_⟩
    change c.dest.written ++ bs = _
    rw [hwritten, List.flatten_append, List.flatten_singleton, List.append_assoc]
  size := by
    change c.size + 1 = _
    rw [h.size, List.length_append, List.length_singleton]
  offsets := by
    change (if ty.fixedLength.isNone then c.offsets ++ [c.dest.tellPutPtr - c.dataBegin]
      else c.offsets) = _
    rw [h.offsets, h.tellPutPtr, starts_append]
    cases ty.fixedLength with
    | none => rfl
    | some n => rfl
  dataLenPtr := h.dataLenPtr
  dataBegin := h.dataBegin

theorem Holds.putOffset (h : Holds ty front its c) :
    c.dest.putOffset c.dataLenPtr (c.dest.tellPutPtr - c.dataBegin) =
      .ok ⟨front ++ (4 :: leBytes 5 its.flatten.length) ++ its.flatten, c.dest.behind⟩ := by
  obtain ⟨dataLen, hlength, hwritten⟩ := h.written
  have hsplit : c.dest.written = (front ++ [4]) ++ (dataLen ++ its.flatten) := by
    rw [hwritten]
    simp
  have hpos : c.dataLenPtr = (front ++ [4]).length := by
    rw [h.dataLenPtr, List.length_append, List.length_singleton]
  have htake : c.dest.written.take c.dataLenPtr = front ++ [4] := by
    rw [hsplit, hpos, List.take_left]
  have hdrop : c.dest.written.drop (c.dataLenPtr + 5) = its.flatten := by
    rw [hsplit, hpos, ← hlength, ← List.drop_drop, List.drop_left, List.drop_left]
  have hfits : c.dataLenPtr + 5 ≤ c.dest.written.length := by
    rw [hsplit, hpos]
    simp only [List.length_append, hlength]
    omega
  rw [PutAdapter.putOffset, h.tellPutPtr, putUint, if_pos hfits, htake, hdrop]
  simp

theorem Holds.flush_integral (estimate : List Nat → RegLine) (h : Holds ty front its c)
    (hint : ty.isIntegral = true)
    (hfixed : ty.fixedLength.isSome = true) :
    ∃ c', c.flush ty estimate = .ok c' ∧ Holds ty front its c' ∧
      c'.dest.written = front ++ (4 :: leBytes 5 its.flatten.length) ++ its.flatten := by
  obtain ⟨n, hn⟩ := Option.isSome_iff_exists.mp hfixed
  refine ⟨{ c with
      dest := ⟨front ++ (4 :: leBytes 5 its.flatten.length) ++ its.flatten, c.dest.behind⟩ },
    ?_, ⟨⟨leBytes 5 its.flatten.length, length_leBytes 5 _, rfl⟩, h.size, h.offsets,
      h.dataLenPtr, h.dataBegin⟩, rfl⟩
  rw [flush, h.putOffset, ok_bind, putIndex, hn, hint]
  rfl

theorem Holds.run (estimate : List Nat → RegLine) (h : Holds ty front its c)
    {ops : List (Op α)}
    (hflush : ∀ op ∈ ops, op = .flush → ty.isIntegral = true ∧ ty.fixedLength.isSome = true) :
    ∃ c', run ty estimate c ops = .ok c' ∧ Holds ty front (its ++ items ty ops) c' := by
  induction ops generalizing its c with
  | nil => exact ⟨c, rfl, by rwa [items, List.append_nil]⟩
  | cons op ops ih =>
    have hrest : ∀ op ∈ ops, op = .flush →
        ty.isIntegral = true ∧ ty.fixedLength.isSome = true :=
      fun op hop => hflush op (List.mem_cons_of_mem _ hop)
    cases op with
    | put value =>
      obtain ⟨c', hrun, hholds⟩ := ih (h.putRaw (ty.serialize value)) hrest
      exact ⟨c', hrun, by rwa [List.append_assoc] at hholds⟩
    | rawPut bs =>
      obtain ⟨c', hrun, hholds⟩ := ih (h.putRaw bs) hrest
      exact ⟨c', hrun, by rwa [List.append_assoc] at hholds⟩
    | flush =>
      obtain ⟨hint, hfixed⟩ := hflush .flush List.mem_cons_self rfl
      obtain ⟨c₁, hc₁, hholds₁, -⟩ := h.flush_integral estimate hint hfixed
      obtain ⟨c', hrun, hholds⟩ := ih hholds₁ hrest
      refine ⟨c', ?_, hholds⟩
      rw [ArrayCreator.run, List.foldlM_cons, step, hc₁]
      exact hrun

end Holds

def IndexReads (ty : ValueType α) (its : List Bytes) (written : Bytes) : Prop :=
  ∀ tail, ∃ index, ArrayOffsetIndex.load ty its.flatten.length (written ++ tail) = .ok index ∧
    index.size = its.length ∧ index.getSizeInBytes ty = written.length ∧
    ∀ i < its.length, i < 2 ^ 32 ∨ ty.fixedLength.isSome = true →
      index.at i = .ok (its.take i).flatten.length

variable {its : List Bytes}

theorem length_flatten_fixed {n : Nat} (h : ∀ bs ∈ its, bs.length = n) :
    its.flatten.length = its.length * n := by
  induction its with
  | nil => simp
  | cons bs its ih =>
    have hbs := h bs List.mem_cons_self
    have hrest := ih fun b hb => h b (List.mem_cons_of_mem _ hb)
    rw [List.flatten_cons, List.length_append, hbs, hrest, List.length_cons, Nat.succ_mul,
      Nat.add_comm]

theorem indexReads_fixed {n : Nat} (hn : ty.fixedLength = some n) (hpos : 0 < n)
    (hlt : n < 2 ^ 32) (hits : ∀ bs ∈ its, bs.length = n) :
    IndexReads ty its (if ty.isIntegral then [] else pVu32 n) := by
  intro tail
  have htotal := length_flatten_fixed hits
  have hdiv : its.flatten.length / n = its.length := by
    rw [htotal]
    exact Nat.mul_div_cancel _ hpos
  have hmul : ¬ its.flatten.length / n * n ≠ its.flatten.length := by
    rw [hdiv, htotal]
    exact not_not_intro rfl
  refine ⟨.fixed n its.length, ?_, rfl, ?_, fun i hi _ => ?_⟩
  · rw [ArrayOffsetIndex.load, hn]
    dsimp only
    rw [if_neg hmul, hdiv]
    cases hint : ty.isIntegral with
    | true => rfl
    | false =>
      have hread : getVlPackedUint32At (pVu32 n ++ tail) 0 = .ok (n, (pVu32 n).length) :=
        getVlPackedUint32At_of_drop hlt (List.drop_zero)
      simp [hread]
  · rw [ArrayOffsetIndex.getSizeInBytes]
    cases hint : ty.isIntegral with
    | true => rfl
    | false => simp [length_pVu32 hlt]
  · have htake : (its.take i).flatten.length = i * n := by
      rw [length_flatten_fixed fun bs hbs => hits bs (List.mem_of_mem_take hbs), List.length_take,
        Nat.min_eq_left (Nat.le_of_lt hi)]
    rw [htake, Nat.mul_comm]
    rfl

theorem indexReads_sorted {written : Bytes} (hnone : ty.fixedLength = none)
    (h : SortedOffsetIndex.ReadsAs written (starts its)) : IndexReads ty its written := by
  intro tail
  obtain ⟨index, hinit, hsize, hbytes, hat⟩ := h tail
  rw [length_starts] at hsize
  refine ⟨.sorted index, ?_, hsize, hbytes, fun i hi hi32 => ?_⟩
  · rw [ArrayOffsetIndex.load, hnone]
    dsimp only
    rw [hinit]
    rfl
  · have hlt : i < 2 ^ 32 := by
      rcases hi32 with hlt | hsome
      · exact hlt
      · rw [hnone] at hsome
        exact absurd hsome (by simp)
    have hstart : i < (starts its).length := by rwa [length_starts]
    rw [ArrayOffsetIndex.at, narrowCheckU32, if_pos hlt, ok_bind, hat i hstart, getElem_starts]

theorem create_starts (line : RegLine) (its : List Bytes) (hdata : its.flatten.length < 2 ^ 64)
    (hfit : SortedOffsetIndex.ParamsFit line (starts its)) (old : Bytes) :
    ∃ bytes moved, SortedOffsetIndex.create line (starts its) old = .ok (bytes, moved) ∧
      SortedOffsetIndex.ReadsAs (bytes.take moved) (starts its) := by
  have hids : ∀ id ∈ starts its, id < 2 ^ 64 := fun id hid =>
    Nat.lt_of_le_of_lt (le_of_mem_starts hid) hdata
  have hsorted := starts_sorted its
  generalize starts its = ids at *
  match ids with
  | [] => exact ⟨_, _, rfl, SortedOffsetIndex.readsAs_nil⟩
  | [id] =>
    refine ⟨_, _, rfl, ?_⟩
    rw [List.take_left]
    exact SortedOffsetIndex.readsAs_singleton (hids id (List.mem_singleton_self id))
  | a :: b :: ids =>
    obtain ⟨bytes, moved, hcreate, -, hreads⟩ :=
      SortedOffsetIndex.create_several (by simp) hsorted hids hfit old
    exact ⟨bytes, moved, hcreate, hreads⟩

theorem Holds.flush {front : Bytes} {c : ArrayCreator} (h : Holds ty front its c)
    (hty : ty.Lawful) (hits : ∀ n, ty.fixedLength = some n → ∀ bs ∈ its, bs.length = n)
    (hdata : its.flatten.length < 2 ^ 40)
    (hfit : ty.fixedLength = none →
      SortedOffsetIndex.ParamsFit (estimate (starts its)) (starts its)) :
    ∃ c' index, c.flush ty estimate = .ok c' ∧
      c'.dest.written = front ++ (4 :: leBytes 5 its.flatten.length) ++ its.flatten ++ index ∧
      c'.dataBegin = front.length + 6 ∧ IndexReads ty its index := by
  have hoffset := h.putOffset
  generalize front ++ (4 :: leBytes 5 its.flatten.length) ++ its.flatten = written at *
  cases hfixed : ty.fixedLength with
  | some n =>
    refine ⟨{ c with dest := if ty.isIntegral then ⟨written, c.dest.behind⟩
        else PutAdapter.put ⟨written, c.dest.behind⟩ (pVu32 n) },
      if ty.isIntegral then [] else pVu32 n, ?_, ?_, h.dataBegin,
      indexReads_fixed hfixed (hty.length_pos n hfixed) (hty.length_lt n hfixed) (hits n hfixed)⟩
    · rw [ArrayCreator.flush, hoffset, ok_bind, putIndex, hfixed]
      cases ty.isIntegral with
      | true => rfl
      | false => rfl
    · cases ty.isIntegral with
      | true => exact (List.append_nil _).symm
      | false => rfl
  | none =>
    obtain ⟨bytes, moved, hcreate, hreads⟩ := create_starts (estimate (starts its)) its
      (Nat.lt_trans hdata (by decide)) (hfit hfixed) c.dest.behind
    have hoffsets : c.offsets = starts its := by
      rw [h.offsets, hfixed]
      rfl
    refine ⟨{ c with dest := ⟨written ++ bytes.take moved, bytes.drop moved⟩ },
      bytes.take moved, ?_, rfl, h.dataBegin, indexReads_sorted hfixed hreads⟩
    rw [ArrayCreator.flush, hoffset, ok_bind, putIndex, hfixed]
    simp only [hoffsets, hcreate, ok_bind]
    rfl

end ArrayCreator

namespace StaticArray

open ArrayCreator

variable {α : Type} {ty : ValueType α}

def Covers (a : StaticArray) : Prop :=
  ∃ bound : Nat → Nat, bound 0 = 0 ∧ bound a.size = a.data.length ∧
    ∀ i < a.size, bound i ≤ bound (i + 1) ∧ a.range i = .ok (bound i, bound (i + 1) - bound i)

theorem length_mul_le_flatten {its : List Bytes} {m : Nat} (h : ∀ bs ∈ its, m ≤ bs.length) :
    its.length * m ≤ its.flatten.length := by
  induction its with
  | nil => simp
  | cons bs its ih =>
    have hbs := h bs List.mem_cons_self
    have hrest := ih fun b hb => h b (List.mem_cons_of_mem _ hb)
    rw [List.flatten_cons, List.length_append, List.length_cons, Nat.succ_mul]
    omega

theorem load_spec {its : List Bytes} {index : Bytes} (hindex : IndexReads ty its index)
    (hmin : ∀ bs ∈ its, ty.minLength ≤ bs.length) (hdata : its.flatten.length < 2 ^ 40)
    (tail : Bytes) :
    ∃ a, load ty ((4 :: leBytes 5 its.flatten.length) ++ its.flatten ++ index ++ tail) = .ok a ∧
      a.data = its.flatten ∧ a.size = its.length ∧
      a.getSizeInBytes ty = 6 + its.flatten.length + index.length ∧
      ∀ i < its.length, i < 2 ^ 32 ∨ ty.fixedLength.isSome = true →
        a.index.at i = .ok (its.take i).flatten.length := by
  obtain ⟨idx, hload, hsize, hbytes, hat⟩ := hindex tail
  refine ⟨⟨its.flatten, idx⟩, ?_, rfl, hsize, ?_, hat⟩
  · have hsplit : (4 :: leBytes 5 its.flatten.length) ++ its.flatten ++ index ++ tail =
        4 :: (leBytes 5 its.flatten.length ++ (its.flatten ++ (index ++ tail))) := by
      simp only [List.cons_append, List.append_assoc]
    have hlen : getUint 5 (4 :: (leBytes 5 its.flatten.length ++
        (its.flatten ++ (index ++ tail)))) 1 = .ok its.flatten.length :=
      getUint_of_drop hdata (by decide) rfl
    have hbehind : (leBytes 5 its.flatten.length ++ (its.flatten ++ (index ++ tail))).drop 5 =
        its.flatten ++ (index ++ tail) := List.drop_left' (length_leBytes 5 _)
    have hrest : (4 :: (leBytes 5 its.flatten.length ++ (its.flatten ++ (index ++ tail)))).drop
        (1 + 5 + its.flatten.length) = index ++ tail := by
      rw [Nat.add_assoc, Nat.add_comm 1, List.drop_succ_cons, ← List.drop_drop, hbehind,
        List.drop_left]
    have hfits : ¬ u64 (idx.size * ty.minLength : Nat) > its.flatten.length := by
      have hle : idx.size * ty.minLength ≤ its.flatten.length := by
        rw [hsize]
        exact length_mul_le_flatten hmin
      have hmod : u64 (idx.size * ty.minLength : Nat) ≤ idx.size * ty.minLength := by
        rw [u64]
        omega
      omega
    rw [hsplit, load, hlen, ok_bind]
    have hversion : byteAt (4 :: (leBytes 5 its.flatten.length ++
        (its.flatten ++ (index ++ tail)))) 0 = .ok 4 := by
      rw [byteAt, if_pos (by simp)]
      rfl
    rw [hversion, ok_bind, if_neg (not_not_intro rfl)]
    dsimp only
    rw [Nat.add_comm 1 5, List.drop_succ_cons, hbehind, List.take_left, Nat.add_comm 5 1, hrest,
      hload, ok_bind, if_neg hfits]
    rfl
  · rw [getSizeInBytes, hbytes]
    change 1 + 5 + index.length + its.flatten.length = _
    omega

section

variable {a : StaticArray} {its : List Bytes} (hdata : a.data = its.flatten)
  (hsize : a.size = its.length)
  (hat : ∀ i < its.length, a.index.at i = .ok (its.take i).flatten.length)
include hdata hsize hat

theorem range_spec {i : Nat} (hi : i < its.length) :
    a.range i = .ok ((its.take i).flatten.length, its[i].length) := by
  have hnext := length_flatten_take_succ hi
  rw [range, hat i hi, ok_bind, hsize, hdata]
  by_cases hlast : i + 1 = its.length
  · have hall : its.take (i + 1) = its := List.take_of_length_le (Nat.le_of_eq hlast.symm)
    rw [hall] at hnext
    rw [if_pos hlast, hnext, Nat.add_sub_cancel_left]
    rfl
  · rw [if_neg hlast, hat (i + 1) (by omega), ok_bind, hnext, Nat.add_sub_cancel_left]
    rfl

theorem covers : a.Covers := by
  refine ⟨fun i => (its.take i).flatten.length, rfl, ?_, fun i hi => ?_⟩
  · rw [hdata, hsize]
    exact congrArg (fun l => (List.flatten l).length) List.take_length
  · rw [hsize] at hi
    refine ⟨length_flatten_take_mono its (Nat.le_succ i), ?_⟩
    rw [range_spec hdata hsize hat hi]
    dsimp only
    rw [length_flatten_take_succ hi, Nat.add_sub_cancel_left]

theorem at_spec {i : Nat} {value : α} (hi : i < its.length)
    (hvalue : ty.Encodes its[i] value) : a.at ty i = .ok value := by
  have hnot : ¬ i ≥ a.size := by omega
  rw [StaticArray.at, if_neg hnot]
  by_cases hget : (ty.fixedLength.isSome && ty.serializationSupport) = true
  · obtain ⟨hfixed, hsupport⟩ := Bool.and_eq_true_iff.mp hget
    rw [if_pos hget, hat i hi, ok_bind, hdata, drop_flatten hi]
    exact hvalue.get hsupport hfixed _
  · have hdataAt : a.dataAt i = .ok its[i] := by
      rw [dataAt, if_neg hnot, range_spec hdata hsize hat hi, ok_bind, hdata]
      change Except.ok ((its.flatten.drop (its.take i).flatten.length).take its[i].length) = _
      rw [drop_flatten hi, List.take_left]
    rw [if_neg hget, hdataAt, ok_bind]
    exact hvalue.deserialize

end

/-- What is to be read behind a `flush`, with `tail` behind the flushed bytes. -/
def Reads (ty : ValueType α) (flushed : Bytes) (values : List α) (tail : Bytes) : Prop :=
  ∃ a, load ty (flushed ++ tail) = .ok a ∧ a.size = values.length ∧
    (∀ i, ∀ h : i < values.length, a.at ty i = .ok values[i]) ∧ a.Covers ∧
    a.getSizeInBytes ty = flushed.length ∧ consume ty (flushed ++ tail) = .ok (a, tail)

end StaticArray

namespace ArrayCreator

variable {α : Type} {ty : ValueType α} {estimate : List Nat → RegLine}

variable {c : ArrayCreator}

theorem Holds.getFlushedData {front : Bytes} {its : List Bytes} {index : Bytes}
    (hwritten : c.dest.written =
      front ++ (4 :: leBytes 5 its.flatten.length) ++ its.flatten ++ index)
    (hbegin : c.dataBegin = front.length + 6) :
    c.getFlushedData = (4 :: leBytes 5 its.flatten.length) ++ its.flatten ++ index := by
  have hpos : front.length + 6 - 1 - 5 = front.length := by omega
  rw [ArrayCreator.getFlushedData, hwritten, hbegin, hpos]
  simp only [List.append_assoc, List.drop_left]

/-- The values of all puts are read back from the flushed bytes, whatever is behind them. Only a
creator of integral values may be used behind its first `flush`. -/
theorem arrayCreator_reads (hty : ty.Lawful) (estimate : List Nat → RegLine)
    (destination : PutAdapter) {ops : List (Op α)} {values : List α}
    (hstores : Stores ty ops values)
    (hflush : ∀ op ∈ ops, op = .flush → ty.isIntegral = true ∧ ty.fixedLength.isSome = true)
    (hdata : (items ty ops).flatten.length < 2 ^ 40)
    (hcount : ty.fixedLength = none → values.length ≤ 2 ^ 32)
    (hfit : ty.fixedLength = none → SortedOffsetIndex.ParamsFit
      (estimate (starts (items ty ops))) (starts (items ty ops))) :
    ∃ c, run ty estimate (new destination) (ops ++ [.flush]) = .ok c ∧
      c.dest.written = destination.written ++ c.getFlushedData ∧
      ∀ tail, StaticArray.Reads ty c.getFlushedData values tail := by
  have hencodes := hstores.encodes hty
  have hlength := hencodes.length_eq
  have hmem : ∀ bs ∈ items ty ops, ∃ value, ty.Encodes bs value := by
    intro bs hbs
    obtain ⟨i, hi, rfl⟩ := List.mem_iff_getElem.mp hbs
    exact ⟨_, hencodes.get hi (by omega)⟩
  have hits : ∀ n, ty.fixedLength = some n → ∀ bs ∈ items ty ops, bs.length = n := by
    intro n hn bs hbs
    obtain ⟨value, hvalue⟩ := hmem bs hbs
    exact hvalue.length n hn
  have hmin : ∀ bs ∈ items ty ops, ty.minLength ≤ bs.length := by
    intro bs hbs
    obtain ⟨value, hvalue⟩ := hmem bs hbs
    exact hvalue.minLength
  obtain ⟨c₁, hrun, hholds⟩ := (holds_new destination).run estimate hflush
  rw [List.nil_append] at hholds
  obtain ⟨c, index, hc, hwritten, hbegin, hindex⟩ := hholds.flush hty hits hdata hfit
  have hflushed := Holds.getFlushedData hwritten hbegin
  refine ⟨c, ?_, ?_, fun tail => ?_⟩
  · rw [run, List.foldlM_append]
    change (run ty estimate (new destination) ops >>= _) = _
    rw [hrun, ok_bind]
    change (c₁.flush ty estimate >>= _) = _
    rw [hc]
    rfl
  · rw [hflushed, hwritten]
    simp only [List.append_assoc]
  · obtain ⟨a, hload, hdata', hsize, hbytes, hat⟩ :=
      StaticArray.load_spec hindex hmin hdata tail
    have hat' : ∀ i < (items ty ops).length,
        a.index.at i = .ok ((items ty ops).take i).flatten.length := by
      intro i hi
      refine hat i hi ?_
      cases hfixed : ty.fixedLength with
      | none =>
        have hle := hcount hfixed
        exact .inl (by omega)
      | some n => exact .inr rfl
    have htotal : a.getSizeInBytes ty = c.getFlushedData.length := by
      rw [hbytes, hflushed]
      simp only [List.length_append, List.length_cons, length_leBytes]
    rw [← hflushed] at hload
    refine ⟨a, hload, hsize.trans hlength, fun i hi => ?_,
      StaticArray.covers hdata' hsize hat', htotal, ?_⟩
    · have hi' : i < (items ty ops).length := by omega
      exact StaticArray.at_spec hdata' hsize hat' hi' (hencodes.get hi' hi)
    · rw [StaticArray.consume, hload, ok_bind, htotal, List.drop_left]
      rfl

/-- `uint8_t`. -/
def uint8Type : ValueType UInt8 where
  fixedLength := some 1
  minLength := 1
  isIntegral := true
  serializationSupport := true
  serialize b := [b]
  deserialize bs := byteAt bs 0
  get bs := byteAt bs 0

def floatType : ValueType (UInt8 × UInt8 × UInt8 × UInt8) where
  fixedLength := some 4
  minLength := 4
  isIntegral := false
  serializationSupport := true
  serialize x := [x.1, x.2.1, x.2.2.1, x.2.2.2]
  deserialize
    | a :: b :: c :: d :: _ => .ok (a, b, c, d)
    | _ => .error .outOfBounds
  get
    | a :: b :: c :: d :: _ => .ok (a, b, c, d)
    | _ => .error .outOfBounds

def bytesType : ValueType Bytes where
  fixedLength := none
  minLength := 0
  isIntegral := false
  serializationSupport := false
  serialize bs := bs
  deserialize bs := .ok bs
  get _ := .error .unsupportedFeature

theorem lawful_bytesType : bytesType.Lawful where
  encodes bs := ⟨fun _ h => (nomatch h), Nat.zero_le _, rfl, fun h => (nomatch h)⟩
  length_pos n h := by cases h
  length_lt n h := by cases h

def flatLine : RegLine := ⟨0, 0, by decide, by decide, by decide⟩

theorem arrayCreator_reads_bytes :
    ∃ c, run bytesType (fun _ => flatLine) (new ⟨[7], [1, 2]⟩)
        ([.put [10, 11], .rawPut [], .put [12]] ++ [.flush]) = .ok c ∧
      c.dest.written = [7] ++ c.getFlushedData ∧
      ∀ tail, StaticArray.Reads bytesType c.getFlushedData [[10, 11], [], [12]] tail :=
  arrayCreator_reads lawful_bytesType (fun _ => flatLine) ⟨[7], [1, 2]⟩
    (.put [10, 11] (.rawPut (lawful_bytesType.encodes []) (.put [12] .nil)))
    (by simp) (by decide) (fun _ => by decide)
    (fun _ => ⟨by decide, fun _ => by decide, fun _ => by decide⟩)

theorem items_replicate (value : α) (n : Nat) :
    items ty (List.replicate n (.put value)) = List.replicate n (ty.serialize value) := by
  induction n with
  | zero => rfl
  | succ n ih => rw [List.replicate_succ, List.replicate_succ, items, ih]

theorem run_append_flush {c c' : ArrayCreator} {ops : List (Op α)}
    (h : run ty estimate c (ops ++ [.flush]) = .ok c') :
    ∃ c₁, run ty estimate c ops = .ok c₁ ∧ c₁.flush ty estimate = .ok c' := by
  rw [run, List.foldlM_append] at h
  obtain ⟨c₁, hrun, hflush⟩ := bind_eq_ok h
  refine ⟨c₁, hrun, ?_⟩
  rw [List.foldlM_cons] at hflush
  obtain ⟨c₂, hstep, hnil⟩ := bind_eq_ok hflush
  exact hstep.trans hnil

theorem load_no_data (rest : Bytes) :
    StaticArray.load uint8Type (4 :: leBytes 5 0 ++ rest) = .ok ⟨[], .fixed 1 0⟩ := by
  have hlen : getUint 5 (4 :: leBytes 5 0 ++ rest) 1 = .ok 0 :=
    getUint_of_drop (by decide) (by decide) rfl
  rw [StaticArray.load, hlen, ok_bind, byteAt, if_pos (by simp), ok_bind, if_neg (by simp)]
  dsimp only
  rw [List.take_zero]
  rfl

theorem not_reads_uint8 {n : Nat} (hn : n = 2 ^ 40)
    (h : run uint8Type estimate (new ⟨[], []⟩) (List.replicate n (.put 0) ++ [.flush]) = .ok c) :
    ¬ StaticArray.Reads uint8Type c.getFlushedData (List.replicate n 0) [] := by
  rintro ⟨a, hload, hsize, -⟩
  have hput : ∀ op ∈ List.replicate n (Op.put (0 : UInt8)), op = .flush →
      uint8Type.isIntegral = true ∧ uint8Type.fixedLength.isSome = true :=
    fun _ _ _ => ⟨rfl, rfl⟩
  have hstart : Holds uint8Type [] [] (new ⟨[], []⟩) := holds_new ⟨[], []⟩
  obtain ⟨c₁, hrun, hflush⟩ := run_append_flush h
  obtain ⟨c₂, hrun', hholds⟩ := hstart.run estimate hput
  obtain rfl : c₂ = c₁ := Except.ok.inj (hrun'.symm.trans hrun)
  obtain ⟨c₃, hflush', hholds', hwritten⟩ := hholds.flush_integral estimate rfl rfl
  obtain rfl : c₃ = c := Except.ok.inj (hflush'.symm.trans hflush)
  rw [items_replicate] at hwritten
  simp only [List.nil_append] at hwritten
  have hlength : (List.replicate n (uint8Type.serialize 0)).flatten.length = n := by
    rw [length_flatten_fixed fun bs hbs => congrArg List.length (List.eq_of_mem_replicate hbs),
      List.length_replicate]
    exact Nat.mul_one n
  have hzero : leBytes 5 n = leBytes 5 0 := by
    rw [hn]
    decide
  rw [hlength, hzero] at hwritten
  have hflushed : c₃.getFlushedData =
      4 :: leBytes 5 0 ++ (List.replicate n (uint8Type.serialize 0)).flatten := by
    rw [getFlushedData, hwritten, hholds'.dataBegin]
    rfl
  rw [hflushed, List.append_assoc, load_no_data] at hload
  obtain rfl := Except.ok.inj hload
  rw [List.length_replicate, hn] at hsize
  exact absurd hsize (by decide)

theorem not_reads_bytes {n : Nat} (hn : 2 ^ 32 < n) {flushed : Bytes} :
    ¬ StaticArray.Reads bytesType flushed (List.replicate n []) [] := by
  rintro ⟨a, hload, hsize, hat, -⟩
  rw [List.length_replicate] at hsize
  have hindex : ∃ index, a.index = .sorted index := by
    obtain ⟨dataLen, -, hload⟩ := bind_eq_ok hload
    obtain ⟨version, -, hload⟩ := bind_eq_ok hload
    by_cases hversion : version ≠ 4
    · rw [if_pos hversion] at hload
      exact nomatch hload
    rw [if_neg hversion] at hload
    obtain ⟨arrayIndex, harrayIndex, hload⟩ := bind_eq_ok hload
    obtain ⟨index, -, hsorted⟩ := bind_eq_ok harrayIndex
    refine ⟨index, ?_⟩
    split at hload
    · exact nomatch hload
    · obtain rfl := Except.ok.inj hload
      exact (Except.ok.inj hsorted).symm
  obtain ⟨index, hindex⟩ := hindex
  have herror := hat (2 ^ 32) (by rwa [List.length_replicate])
  have hpos : ¬ 2 ^ 32 ≥ a.size := by omega
  have hover : a.index.at (2 ^ 32) = .error .typeOverflow := by
    rw [hindex]
    rfl
  rw [StaticArray.at, if_neg hpos, StaticArray.dataAt, if_neg hpos, StaticArray.range,
    hover] at herror
  exact absurd herror (by simp [bytesType])

theorem not_reads_float
    (h : run floatType (fun _ => flatLine) (new ⟨[], []⟩)
      [.put (0, 0, 0, 0), .flush, .put (0, 0, 0, 0), .flush] = .ok c) :
    ¬ StaticArray.Reads floatType c.getFlushedData [(0, 0, 0, 0), (0, 0, 0, 0)] [] := by
  have hrun : run floatType (fun _ => flatLine) (new ⟨[], []⟩)
      [.put (0, 0, 0, 0), .flush, .put (0, 0, 0, 0), .flush] =
        .ok ⟨⟨[4, 9, 0, 0, 0, 0, 0, 0, 0, 0, 4, 0, 0, 0, 0, 4], []⟩, 2, [], 1, 6⟩ := rfl
  obtain rfl := Except.ok.inj (hrun.symm.trans h)
  rintro ⟨a, hload, -⟩
  have herror : StaticArray.load floatType
      [4, 9, 0, 0, 0, 0, 0, 0, 0, 0, 4, 0, 0, 0, 0, 4] = .error .corruptData := rfl
  exact absurd (herror.symm.trans hload) (by simp)

/-- No array reads as it should behind two flushes of floats, behind `2 ^ 40` bytes, and behind more
than `2 ^ 32` values of any length. -/
theorem not_always_reads :
    (¬ ∃ c, run floatType (fun _ => flatLine) (new ⟨[], []⟩)
        [.put (0, 0, 0, 0), .flush, .put (0, 0, 0, 0), .flush] = .ok c ∧
      StaticArray.Reads floatType c.getFlushedData [(0, 0, 0, 0), (0, 0, 0, 0)] []) ∧
    (¬ ∃ c, run uint8Type (fun _ => flatLine) (new ⟨[], []⟩)
        (List.replicate (2 ^ 40) (.put 0) ++ [.flush]) = .ok c ∧
      StaticArray.Reads uint8Type c.getFlushedData (List.replicate (2 ^ 40) 0) []) ∧
    ¬ ∃ c, run bytesType (fun _ => flatLine) (new ⟨[], []⟩)
        (List.replicate (2 ^ 32 + 1) (.put []) ++ [.flush]) = .ok c ∧
      StaticArray.Reads bytesType c.getFlushedData (List.replicate (2 ^ 32 + 1) []) [] :=
  ⟨fun ⟨_, hrun, hreads⟩ => not_reads_float hrun hreads,
    fun ⟨_, hrun, hreads⟩ => not_reads_uint8 rfl hrun hreads,
    fun ⟨_, _, hreads⟩ => not_reads_bytes (Nat.lt_succ_self _) hreads⟩

end ArrayCreator

end Sserialize
