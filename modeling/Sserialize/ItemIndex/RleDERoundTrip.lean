import Sserialize.ItemIndex.RleDEReaders
import Sserialize.ItemIndex.RleDECreator

namespace Sserialize

open RleDE

namespace RleDE

theorem length_pVu32_le {s t : Nat} (hs : s < 2 ^ 32) (hst : s ≤ t) :
    (pVu32 s).length ≤ Leb128.size 5 t := by
  rw [pVu32_eq_encode hs, Leb128.length_encode]
  exact Leb128.size_mono 5 hst

theorem length_single_le (d : Nat) : (Word.single d).bytes.length ≤ Leb128.size 5 (2 * d) := by
  refine length_pVu32_le (u32_lt _) ?_
  rw [u32, Nat.shiftLeft_eq]
  omega

theorem tagged_le (n : Nat) : u32 (n <<< 1) ||| 0x1 ≤ 2 * n + 1 := by
  have heven : u32 (n <<< 1) = 2 * (n % 2 ^ 31) := by
    rw [u32, Nat.shiftLeft_eq]
    omega
  rw [heven, two_mul_or_one]
  omega

theorem tagged_lt (n : Nat) : u32 (n <<< 1) ||| 0x1 < 2 ^ 32 :=
  Nat.or_lt_two_pow (u32_lt _) (by decide)

theorem length_run_le (n d : Nat) :
    (Word.run n d).bytes.length ≤ Leb128.size 5 (2 * n + 1) + Leb128.size 5 (2 * d) := by
  have hcount := length_pVu32_le (tagged_lt n) (tagged_le n)
  have hdelta := length_single_le d
  simp only [Word.bytes, List.length_append] at hdelta ⊢
  omega

theorem size_delta_le {d : Nat} (hd : 2 ≤ d) : 4 * Leb128.size 5 (2 * d) + 2 ≤ 3 * d := by
  have hfive := Leb128.size_le 5 (2 * d)
  by_cases hsmall : d < 8
  · have hone := Leb128.size_le_of_lt (k := 0) 5 (n := 2 * d) (by omega)
    omega
  · omega

theorem size_count_le {n : Nat} (hn : 2 ≤ n) : 4 * Leb128.size 5 (2 * n + 1) + 4 ≤ 3 * n + 2 := by
  have hfive := Leb128.size_le 5 (2 * n + 1)
  by_cases hsmall : n < 8
  · have hone := Leb128.size_le_of_lt (k := 0) 5 (n := 2 * n + 1) (by omega)
    omega
  · omega

theorem size_one : Leb128.size 5 (2 * 1) = 1 := rfl

theorem length_toWord_le {n d : Nat} (hn : 0 < n) (hd : 0 < d) :
    4 * (toWord (n, d)).bytes.length + (if d = 1 then 0 else 2) ≤
      3 * (n * d) + (if d = 1 then 2 else 0) := by
  by_cases hsingle : n = 1
  · subst hsingle
    have hlen := length_single_le d
    have hword : toWord (1, d) = .single d := rfl
    rw [hword, Nat.one_mul]
    by_cases hd1 : d = 1
    · subst hd1
      rw [size_one] at hlen
      simp only [if_true]
      omega
    · have hsize := size_delta_le (d := d) (by omega)
      simp only [hd1, if_false]
      omega
  · have hword : toWord (n, d) = .run n d := by simp [toWord, hsingle]
    have hlen := length_run_le n d
    have hcount := size_count_le (n := n) (by omega)
    rw [hword]
    by_cases hd1 : d = 1
    · subst hd1
      rw [size_one] at hlen
      simp only [if_true]
      omega
    · have hsize := size_delta_le (d := d) (by omega)
      have hmul : n + d ≤ n * d := by
        obtain ⟨a, rfl⟩ : ∃ a, n = a + 2 := ⟨n - 2, by omega⟩
        obtain ⟨b, rfl⟩ : ∃ b, d = b + 2 := ⟨d - 2, by omega⟩
        rw [Nat.add_mul, Nat.mul_add]
        omega
      simp only [hd1, if_false]
      omega

variable {rs : List (Nat × Nat)}

theorem length_payload_of_pos (hmax : RunLength.Maximal rs) (hpos : ∀ r ∈ rs, 0 < r.2) :
    4 * (payload (rs.map toWord)).length ≤ 3 * (RunLength.expand rs).sum +
      (if rs.head?.map Prod.snd = some 1 then 2 else 0) := by
  induction rs with
  | nil => simp
  | cons r rs ih =>
    obtain ⟨n, d⟩ := r
    have hword := length_toWord_le (hmax.pos (n, d) (by simp)) (hpos (n, d) (by simp))
    have hrec := ih hmax.tail fun r hr => hpos r (List.mem_cons_of_mem _ hr)
    rw [List.map_cons, payload_cons, List.length_append, RunLength.expand_cons, List.sum_append,
      List.sum_replicate_nat]
    have hnext : d = 1 → ¬ rs.head?.map Prod.snd = some 1 := by
      intro hd hhead
      cases rs with
      | nil => simp at hhead
      | cons s ss =>
        have hne : d ≠ s.2 := (List.isChain_cons_cons.mp hmax.ne).1
        have hs : s.2 = 1 := by simpa using hhead
        exact hne (by rw [hd, hs])
    by_cases hd : d = 1
    · subst hd
      rw [if_neg (hnext rfl)] at hrec
      simp only [if_true] at hword
      simp only [List.head?_cons, Option.map_some, if_true]
      omega
    · have hbonus : (if rs.head?.map Prod.snd = some 1 then 2 else 0) ≤ 2 := by
        split <;> omega
      simp only [hd, if_false] at hword
      have hhead : ¬ ((n, d) :: rs).head?.map Prod.snd = some 1 := by simpa using hd
      rw [if_neg hhead]
      omega

theorem length_payload_le (hmax : RunLength.Maximal rs)
    (hpos : ∀ d ∈ (RunLength.expand rs).tail, 0 < d) :
    4 * (payload (rs.map toWord)).length ≤ 3 * (RunLength.expand rs).sum + 6 := by
  cases rs with
  | nil => simp
  | cons r rs =>
    obtain ⟨n, d⟩ := r
    have hn : 0 < n := hmax.pos (n, d) (by simp)
    obtain ⟨m, rfl⟩ : ∃ m, n = m + 1 := ⟨n - 1, by omega⟩
    rw [RunLength.expand_cons, List.replicate_succ, List.cons_append, List.tail_cons] at hpos
    have hrest : ∀ r ∈ rs, 0 < r.2 := by
      intro r hr
      apply hpos
      refine List.mem_append_right _ ?_
      exact RunLength.mem_expand_of_mem hr (hmax.pos r (List.mem_cons_of_mem _ hr))
    by_cases hd : 0 < d
    · have hall : ∀ r ∈ (m + 1, d) :: rs, 0 < r.2 := by
        intro r hr
        rcases List.mem_cons.mp hr with rfl | hr
        · exact hd
        · exact hrest r hr
      have hbound := length_payload_of_pos hmax hall
      split at hbound <;> omega
    · have hzero : d = 0 := by omega
      subst hzero
      have hm : m = 0 := by
        by_contra hm
        have hmem : 0 ∈ List.replicate m 0 ++ RunLength.expand rs := by simp [hm]
        exact absurd (hpos 0 hmem) (Nat.lt_irrefl 0)
      subst hm
      have hbound := length_payload_of_pos hmax.tail hrest
      have hone : (toWord (0 + 1, 0)).bytes.length = 1 := by decide
      rw [List.map_cons, payload_cons, List.length_append, hone, RunLength.expand_cons,
        List.sum_append, List.sum_replicate_nat]
      split at hbound <;> omega

def truncate : Word → Word
  | .single d => .single (d % 2 ^ 31)
  | .run n d => .run (n % 2 ^ 31) (d % 2 ^ 31)

end RleDE

namespace ItemIndexPrivateRleDE

open Ascending (deltas)

def wordsOf (l : IdList) : List Word := (RunLength.runs (deltas 0 l.ids)).map toWord

variable (l : IdList)

theorem length_payload_wordsOf : (payload (wordsOf l)).length < 2 ^ 32 - 1 := by
  have hpos := Ascending.deltas_tail_pos l.from_zero
  have hsum := l.sum_deltas_lt
  have hmax := RunLength.maximal_runs (deltas 0 l.ids)
  have hbound := length_payload_le hmax (by rw [RunLength.expand_runs]; exact hpos)
  rw [RunLength.expand_runs] at hbound
  rw [wordsOf]
  omega

theorem create_eq :
    create l.ids = pVu32 (u32 l.ids.length) ++
      (pVu32 (payload (wordsOf l)).length ++ payload (wordsOf l)) := by
  obtain ⟨flushed, htook⟩ := RleDECreator.took_new.foldl_pushBack (l := l.ids)
    (by simpa using l.from_zero) l.inRange
  rw [List.nil_append, List.sum_nil] at htook
  have hlen := length_payload_wordsOf l
  rw [create, RleDECreator.flush, RleDECreator.flushData, htook.flushRle_data,
    RleDECreator.flushRle_count, htook.count, Ascending.length_deltas, ← wordsOf,
    u32_of_lt (n := (payload (wordsOf l)).length) (by omega), List.append_assoc]

theorem ofData_header {count : Nat} {data : Bytes} (hcount : count < 2 ^ 32)
    (hsize : data.length < 2 ^ 32) :
    ofData (pVu32 count ++ (pVu32 data.length ++ data)) = .ok ⟨data, count⟩ := by
  have hfirst := UByteArrayAdapter.getVlPackedUint32_append hcount []
    (pVu32 data.length ++ data)
  have hsecond := UByteArrayAdapter.getVlPackedUint32_append hsize (pVu32 count) data
  have hrest : List.drop ((pVu32 count).length + (pVu32 data.length).length)
      (pVu32 count ++ (pVu32 data.length ++ data)) = data := by
    rw [← List.length_append, ← List.append_assoc, List.drop_left]
  simp only [List.nil_append, List.length_nil, Nat.zero_add] at hfirst
  unfold ofData
  simp only [hfirst, hsecond, ok_bind, UByteArrayAdapter.unread, hrest, ne_eq, not_true, if_false,
    except_pure]

/-- The index on the written bytes describes them, and each of its readers returns the ids of the
list. -/
structure RoundTrips (l : IdList) (idx : ItemIndexPrivateRleDE) : Prop where
  opens : ofData (create l.ids) = .ok idx
  size : idx.size = l.ids.length
  sizeInBytes : idx.getSizeInBytes = (create l.ids).length
  atEach : ∀ positions : List Nat, (∀ pos ∈ positions, pos < l.ids.length) →
    idx.atEach positions Cache.new = .ok (positions.map fun pos => l.ids.getD pos 0)
  iterate : ∀ steps, l.ids.length + 1 < steps → idx.iterate steps = .ok (some l.ids)
  putIntoArray : idx.putIntoArray = .ok l.ids
  putIntoBitSet : ∀ bitSet, ∃ result, idx.putIntoBitSet bitSet = .ok result ∧
    ∀ q, result.isSet q = (decide (q ∈ l.ids) || bitSet.isSet q)

def Fits (l : IdList) : Prop := ∀ r ∈ RunLength.runs (deltas 0 l.ids), r.1 < 2 ^ 31 ∧ r.2 < 2 ^ 31

instance (l : IdList) : Decidable (Fits l) :=
  inferInstanceAs (Decidable (∀ r ∈ RunLength.runs (deltas 0 l.ids), r.1 < 2 ^ 31 ∧ r.2 < 2 ^ 31))

end ItemIndexPrivateRleDE

end Sserialize
