import Sserialize.ItemIndex.RleDEWords
import Sserialize.ItemIndex.ItemIndex
import Sserialize.Library.RunLength

namespace Sserialize

open RleDE

namespace RleDE

def toWord (r : Nat × Nat) : Word := if r.1 = 1 then .single r.2 else .run r.1 r.2

theorem runBytes_eq (r : Nat × Nat) : RleDECreator.runBytes r.1 r.2 = (toWord r).bytes := by
  unfold RleDECreator.runBytes toWord
  split <;> rfl

theorem deltas_toWord (r : Nat × Nat) : (toWord r).deltas = List.replicate r.1 r.2 := by
  unfold toWord
  split
  · rename_i hone
    rw [hone]
    rfl
  · rfl

theorem deltasOf_map_toWord (rs : List (Nat × Nat)) :
    deltasOf (rs.map toWord) = RunLength.expand rs := by
  induction rs with
  | nil => rfl
  | cons r rs ih =>
    obtain ⟨n, d⟩ := r
    rw [List.map_cons, deltasOf_cons, ih, deltas_toWord]
    rfl

end RleDE

namespace RleDECreator

def pending (c : RleDECreator) : List (Nat × Nat) := if c.rle = 0 then [] else [(c.rle, c.lastDiff)]

/-- The creator has taken the deltas `ds`: the runs `flushed` are written, one may be pending. -/
structure Took (c : RleDECreator) (flushed : List (Nat × Nat)) (ds : List Nat) : Prop where
  data : c.data = payload (flushed.map toWord)
  maximal : RunLength.Maximal (flushed ++ c.pending)
  expand : RunLength.expand (flushed ++ c.pending) = ds
  start : c.rle = 0 → flushed = [] ∧ c.lastDiff = 0
  count : c.count = u32 ds.length
  prev : c.prev = ds.sum

theorem took_new : Took new [] [] where
  data := rfl
  maximal := RunLength.Maximal.nil
  expand := rfl
  start := fun _ => ⟨rfl, rfl⟩
  count := rfl
  prev := rfl

variable {flushed : List (Nat × Nat)} {c : RleDECreator} {ds : List Nat}

theorem Took.rle_mul_le (h : Took c flushed ds) : c.rle * c.lastDiff ≤ ds.sum := by
  by_cases hrle : c.rle = 0
  · simp [hrle]
  · have hexpand := h.expand
    rw [pending, if_neg hrle, RunLength.expand_append, RunLength.expand_cons,
      RunLength.expand_nil, List.append_nil] at hexpand
    rw [← hexpand, List.sum_append, List.sum_replicate_nat]
    omega

theorem Took.runs_eq (h : Took c flushed ds) : RunLength.runs ds = flushed ++ c.pending := by
  rw [← h.expand, RunLength.runs_expand h.maximal]

theorem Took.flushRle_data (h : Took c flushed ds) :
    c.flushRle.data = payload ((RunLength.runs ds).map toWord) := by
  rw [h.runs_eq, List.map_append, payload_append, ← h.data]
  unfold flushRle pending
  by_cases hrle : c.rle = 0
  · simp [hrle]
  · simp [hrle, ← runBytes_eq]

@[simp] theorem flushRle_count (c : RleDECreator) : c.flushRle.count = c.count := by
  unfold flushRle
  split <;> rfl

theorem Took.pushBack {d : Nat} (h : Took c flushed ds) (hid : ds.sum + d < 2 ^ 32)
    (hd : 0 < d ∨ ds = []) : ∃ flushed', Took (c.pushBack (ds.sum + d)) flushed' (ds ++ [d]) := by
  have hdiff : sub32 (ds.sum + d) c.prev = d := by
    rw [h.prev, sub32_of_le (Nat.le_add_right _ _) hid, Nat.add_sub_cancel_left]
  have hcount : u32 (c.count + 1) = u32 (ds ++ [d]).length := by
    rw [h.count, List.length_append, List.length_singleton]
    unfold u32
    omega
  have hsum : ds.sum + d = (ds ++ [d]).sum := by simp
  have hexpand := h.expand
  by_cases hsame : d = c.lastDiff
  · have hgrow : u32 (c.rle + 1) = c.rle + 1 := by
      have hle := h.rle_mul_le
      rw [← hsame] at hle
      apply u32_of_lt
      rcases hd with hd | rfl
      · have hmul := Nat.le_mul_of_pos_right c.rle hd
        omega
      · by_cases hrle : c.rle = 0
        · omega
        · rw [pending, if_neg hrle, RunLength.expand_append] at hexpand
          have hnil := (List.append_eq_nil_iff.mp hexpand).2
          have hzero : c.rle = 0 := by simpa using congrArg List.length hnil
          omega
    have hpush : c.pushBack (ds.sum + d) = { c with
        rle := c.rle + 1, prev := ds.sum + d, count := u32 (c.count + 1) } := by
      unfold RleDECreator.pushBack
      simp only [hdiff, if_pos hsame, hgrow]
    have hpending : (c.pushBack (ds.sum + d)).pending = [(c.rle + 1, c.lastDiff)] := by
      rw [hpush, pending, if_neg (Nat.succ_ne_zero _)]
    refine ⟨flushed, ?_, ?_, ?_, ?_, ?_, ?_⟩
    · rw [hpush]
      exact h.data
    · rw [hpending]
      by_cases hrle : c.rle = 0
      · rw [(h.start hrle).1]
        exact ⟨by simp, by simp⟩
      · have hmax := h.maximal
        rw [pending, if_neg hrle] at hmax
        exact hmax.grow (Nat.succ_pos _)
    · rw [hpending, ← hexpand, RunLength.expand_append, RunLength.expand_append, pending]
      by_cases hrle : c.rle = 0
      · simp [hrle, hsame]
      · simp [hrle, hsame, List.replicate_succ']
    · rw [hpush]
      simp
    · rw [hpush]
      exact hcount
    · rw [hpush]
      exact hsum
  · have hpush : c.pushBack (ds.sum + d) = { c.flushRle with
        rle := 1, lastDiff := d, prev := ds.sum + d, count := u32 (c.count + 1) } := by
      unfold RleDECreator.pushBack
      simp only [hdiff, if_neg hsame, flushRle_count]
    have hpending : (c.pushBack (ds.sum + d)).pending = [(1, d)] := by
      rw [hpush, pending, if_neg Nat.one_ne_zero]
    refine ⟨flushed ++ c.pending, ?_, ?_, ?_, ?_, ?_, ?_⟩
    · rw [hpush, ← h.runs_eq]
      exact h.flushRle_data
    · rw [hpending]
      by_cases hrle : c.rle = 0
      · rw [(h.start hrle).1, pending, if_pos hrle]
        exact ⟨by simp, by simp⟩
      · have hmax := h.maximal
        rw [pending, if_neg hrle] at hmax ⊢
        exact hmax.snoc Nat.one_pos fun heq => hsame heq.symm
    · rw [hpending, RunLength.expand_append, hexpand]
      rfl
    · rw [hpush]
      simp
    · rw [hpush]
      exact hcount
    · rw [hpush]
      exact hsum

theorem Took.foldl_pushBack {ds l : List Nat} (h : Took c flushed ds)
    (hfrom : Ascending.From (ds.sum + if ds = [] then 0 else 1) l) (hlt : ∀ x ∈ l, x < 2 ^ 32) :
    ∃ flushed', Took (l.foldl RleDECreator.pushBack c) flushed'
      (ds ++ Ascending.deltas ds.sum l) := by
  induction l generalizing c flushed ds with
  | nil =>
    rw [Ascending.deltas, List.append_nil]
    exact ⟨flushed, h⟩
  | cons x xs ih =>
    have hx := hfrom.2 x (by simp)
    have hle : ds.sum ≤ x := by omega
    have hid : ds.sum + (x - ds.sum) = x := Nat.add_sub_cancel' hle
    have hd : 0 < x - ds.sum ∨ ds = [] := by
      by_cases hnil : ds = []
      · exact .inr hnil
      · rw [if_neg hnil] at hx
        exact .inl (by omega)
    obtain ⟨flushed', hpush⟩ := h.pushBack (by rw [hid]; exact hlt x (by simp)) hd
    rw [hid] at hpush
    have hsum : (ds ++ [x - ds.sum]).sum = x := by simp [hle]
    obtain ⟨flushed'', hrest⟩ := ih hpush
      (by rw [hsum, if_neg (by simp)]; exact hfrom.tail)
      fun y hy => hlt y (List.mem_cons_of_mem _ hy)
    rw [hsum, List.append_assoc] at hrest
    exact ⟨flushed'', hrest⟩

end RleDECreator

end Sserialize
