import Sserialize.ItemIndex.ItemIndex
import Sserialize.Library.WorkerPool
import Sserialize.Spatial.CQRDilator

namespace Sserialize.CQRDilator

open WorkerPool

/-- `SimpleBitVector::getSet`: the set positions in ascending order. -/
def getSet (dilatedMarks : List Nat) : List Nat :=
  (List.range (dilatedMarks.foldr max 0 + 1)).filter dilatedMarks.contains

/-- The list that `flush` makes of `dilated`, whose elements are the set bits of `dilatedMarks`.
The sizes of the two decide whether it is sorted or read off the marks. -/
def flushed (fromMarks : Bool) (dilated : List Nat) : List Nat :=
  if fromMarks then getSet dilated else dilated.mergeSort (· ≤ ·)

/-- Where a worker is: in its loop, at a base cell, in `flush`, in `result + other`. -/
inductive Worker where
  | looping (dilated : List Nat)
  | handling (dilated : List Nat) (cellId : Nat)
  | flushing (result : List Nat)
  | merging (result other : List Nat)
  | finished
  deriving Repr, DecidableEq

/-- `State` with its workers. The base cells from `it` to `end` are `rest`, so a copy of `it` is
taken to go over the same cells; `itlock` is the worker that holds the lock while no worker is in the
critical section. -/
structure Pool where
  rest : List Nat
  itlock : Option Nat
  intermediates : List (List Nat)
  workers : Nat → Worker

def Pool.start (base : List Nat) : Pool := ⟨base, none, [], fun _ => .looping []⟩

/-- A step of one of the workers. What stands between a lock and its unlock is one step. -/
inductive Step (tg : TracGraph) (distance : Nat → Nat → ℚ) (base : List Nat) (diameter : ℚ)
    (n : Nat) : Pool → Pool → Prop where
  | take {p : Pool} {w cellId : Nat} {dilated rest : List Nat} (hw : w < n)
      (hworker : p.workers w = .looping dilated) (hlock : p.itlock = none)
      (hrest : p.rest = cellId :: rest) :
      Step tg distance base diameter n p
        ⟨rest, none, p.intermediates, Function.update p.workers w (.handling dilated cellId)⟩
  | handle {p : Pool} {w cellId : Nat} {dilated dilated' : List Nat} (hw : w < n)
      (hworker : p.workers w = .handling dilated cellId)
      (hdilate : dilateCell tg distance base diameter dilated cellId = some dilated') :
      Step tg distance base diameter n p
        ⟨p.rest, p.itlock, p.intermediates, Function.update p.workers w (.looping dilated')⟩
  | leave {p : Pool} {w : Nat} {dilated : List Nat} (hw : w < n)
      (hworker : p.workers w = .looping dilated) (hlock : p.itlock = none)
      (hrest : p.rest = []) (fromMarks : Bool) :
      Step tg distance base diameter n p
        ⟨p.rest, some w, p.intermediates,
          Function.update p.workers w (.flushing (flushed fromMarks dilated))⟩
  | push {p : Pool} {w : Nat} {result : List Nat} (hw : w < n)
      (hworker : p.workers w = .flushing result) (hempty : p.intermediates = []) :
      Step tg distance base diameter n p
        ⟨p.rest, none, [result], Function.update p.workers w .finished⟩
  | pop {p : Pool} {w : Nat} {result other : List Nat} {intermediates : List (List Nat)}
      (hw : w < n) (hworker : p.workers w = .flushing result)
      (hback : p.intermediates = intermediates ++ [other]) :
      Step tg distance base diameter n p
        ⟨p.rest, p.itlock, intermediates, Function.update p.workers w (.merging result other)⟩
  | merge {p : Pool} {w : Nat} {result other : List Nat} (hw : w < n)
      (hworker : p.workers w = .merging result other) :
      Step tg distance base diameter n p
        ⟨p.rest, p.itlock, p.intermediates,
          Function.update p.workers w (.flushing (SetOp.unite.apply result other))⟩

def Pool.Joinable (n : Nat) (p : Pool) : Prop := ∀ w < n, p.workers w = .finished

/-- `CQRDilator::dilate` returns `result` with this number of workers. A single worker runs in the
calling thread. -/
def DilatesTo (tg : TracGraph) (distance : Nat → Nat → ℚ) (base : List Nat) (diameter : ℚ)
    (n : Nat) (result : List Nat) : Prop :=
  if base = [] then result = []
  else if n = 1 then
    ∃ dilated fromMarks, base.foldlM (dilateCell tg distance base diameter) [] = some dilated ∧
      result = flushed fromMarks dilated
  else
    ∃ p, Relation.ReflTransGen (Step tg distance base diameter n) (Pool.start base) p ∧
      p.Joinable n ∧ p.intermediates.head? = some result

variable {tg : TracGraph} {distance : Nat → Nat → ℚ} {base : List Nat} {diameter : ℚ} {n : Nat}

variable {dilated : List Nat}

theorem nodup_mark (h : dilated.Nodup) (x : Nat) : (mark dilated x).Nodup := by
  rw [mark]
  by_cases hx : dilated.contains x = true
  · rwa [if_pos hx]
  · rw [if_neg hx]
    refine List.nodup_append.mpr ⟨h, List.nodup_singleton x, fun a ha b hb hab => hx ?_⟩
    rw [List.mem_singleton] at hb
    rw [← hb, ← hab]
    exact List.contains_iff_mem.mpr ha

theorem nodup_foldl_mark (h : dilated.Nodup) (xs : List Nat) : (xs.foldl mark dilated).Nodup := by
  induction xs generalizing dilated with
  | nil => exact h
  | cons x _ ih => exact ih (nodup_mark h x)

variable {cellId : Nat}

theorem nodup_dilateCell {dilated dilated' : List Nat} (h : dilated.Nodup)
    (hdilate : dilateCell tg distance base diameter dilated cellId = some dilated') :
    dilated'.Nodup := by
  rw [dilateCell, Option.bind_eq_bind, Option.bind_eq_some_iff] at hdilate
  obtain ⟨s, -, hs⟩ := hdilate
  rw [← Option.some.inj hs]
  exact nodup_foldl_mark h s.relaxed

theorem mem_dilateCell {dilated dilated' : List Nat} (htg : tg.Lawful)
    (hsorted : base.Pairwise (· < ·)) (hcell : cellId < tg.size)
    (hdilate : dilateCell tg distance base diameter dilated cellId = some dilated') (c : Nat) :
    c ∈ dilated' ↔ c ∈ dilated ∨ Reachable tg distance base diameter cellId c := by
  obtain ⟨r, hr, hmem⟩ := @dilateCell_spec tg distance base diameter cellId htg hsorted hcell
    dilated
  have heq : r = dilated' := Option.some.inj (hr.symm.trans hdilate)
  rw [← heq, hmem]

theorem foldlM_dilateCell_spec (htg : tg.Lawful) (hsorted : base.Pairwise (· < ·))
    (hbase : ∀ b ∈ base, b < tg.size) :
    ∃ dilated, base.foldlM (dilateCell tg distance base diameter) [] = some dilated ∧
      ∀ c, c ∈ dilated ↔ Dilation tg distance base diameter c := by
  have hcell : ∀ b ∈ base, ∀ dilated, ∃ r,
      dilateCell tg distance base diameter dilated b = some r ∧
        ∀ c, c ∈ r ↔ c ∈ dilated ∨ Reachable tg distance base diameter b c :=
    fun b hb dilated => dilateCell_spec htg hsorted (hbase b hb) dilated
  obtain ⟨r, hr, hmem⟩ := foldlM_spec hcell []
  refine ⟨r, hr, fun c => ?_⟩
  rw [hmem]
  simp [Dilation]

theorem nodup_foldlM_dilateCell {cells dilated dilated' : List Nat} (h : dilated.Nodup)
    (hfold : cells.foldlM (dilateCell tg distance base diameter) dilated = some dilated') :
    dilated'.Nodup := by
  induction cells generalizing dilated with
  | nil => exact Option.some.inj hfold ▸ h
  | cons b cells ih =>
    rw [List.foldlM_cons, Option.bind_eq_bind, Option.bind_eq_some_iff] at hfold
    obtain ⟨next, hnext, hrest⟩ := hfold
    exact ih (nodup_dilateCell h hnext) hrest

theorem le_foldr_max {xs : List Nat} {x : Nat} (h : x ∈ xs) : x ≤ xs.foldr max 0 := by
  induction xs with
  | nil => exact absurd h List.not_mem_nil
  | cons y ys ih =>
    rw [List.foldr_cons]
    rcases List.mem_cons.mp h with rfl | hmem
    · exact Nat.le_max_left _ _
    · exact Nat.le_trans (ih hmem) (Nat.le_max_right _ _)

theorem mem_getSet {dilatedMarks : List Nat} {c : Nat} :
    c ∈ getSet dilatedMarks ↔ c ∈ dilatedMarks := by
  rw [getSet, List.mem_filter, List.mem_range, List.contains_iff_mem]
  constructor
  · exact And.right
  · intro h
    exact ⟨Nat.lt_succ_of_le (le_foldr_max h), h⟩

theorem mem_flushed {fromMarks : Bool} {c : Nat} : c ∈ flushed fromMarks dilated ↔ c ∈ dilated := by
  cases fromMarks with
  | true => exact mem_getSet
  | false => exact List.mem_mergeSort

theorem pairwise_flushed (h : dilated.Nodup) (fromMarks : Bool) :
    (flushed fromMarks dilated).Pairwise (· < ·) := by
  cases fromMarks with
  | true => exact List.Pairwise.filter _ List.pairwise_lt_range
  | false =>
    have htrans : ∀ a b c : Nat,
        decide (a ≤ b) = true → decide (b ≤ c) = true → decide (a ≤ c) = true := by
      intro a b c hab hbc
      exact decide_eq_true (Nat.le_trans (of_decide_eq_true hab) (of_decide_eq_true hbc))
    have htotal : ∀ a b : Nat, (decide (a ≤ b) || decide (b ≤ a)) = true := by
      intro a b
      rw [Bool.or_eq_true, decide_eq_true_eq, decide_eq_true_eq]
      exact Nat.le_total a b
    have hle : (dilated.mergeSort (· ≤ ·)).Pairwise fun a b => decide (a ≤ b) = true :=
      List.pairwise_mergeSort htrans htotal dilated
    have hne : (dilated.mergeSort (· ≤ ·)).Pairwise (· ≠ ·) :=
      (List.mergeSort_perm _ _).nodup_iff.mpr h
    exact (hle.and hne).imp fun hab => Nat.lt_of_le_of_ne (of_decide_eq_true hab.1) hab.2

def Worker.Has (tg : TracGraph) (distance : Nat → Nat → ℚ) (base : List Nat) (diameter : ℚ)
    (c : Nat) : Worker → Prop
  | .looping dilated => c ∈ dilated
  | .handling dilated cellId => c ∈ dilated ∨ Reachable tg distance base diameter cellId c
  | .flushing result => c ∈ result
  | .merging result other => c ∈ result ∨ c ∈ other
  | .finished => False

def Worker.WellFormed (tg : TracGraph) : Worker → Prop
  | .looping dilated => dilated.Nodup
  | .handling dilated cellId => dilated.Nodup ∧ cellId < tg.size
  | .flushing result => result.Pairwise (· < ·)
  | .merging result other => result.Pairwise (· < ·) ∧ other.Pairwise (· < ·)
  | .finished => True

def Worker.Flushes : Worker → Prop
  | .flushing _ => True
  | .merging _ _ => True
  | _ => False

def Worker.HasLeft (a : Worker) : Prop := a.Flushes ∨ a = .finished

def Pool.Has (tg : TracGraph) (distance : Nat → Nat → ℚ) (base : List Nat) (diameter : ℚ) (n : Nat)
    (p : Pool) (c : Nat) : Prop :=
  Any n (Worker.Has tg distance base diameter c) p.workers ∨
    ((∃ b ∈ p.rest, Reachable tg distance base diameter b c) ∨ ∃ i ∈ p.intermediates, c ∈ i)

/-- Who holds the lock on the base cells, and what that says about the results. -/
structure Pool.Guarded (n : Nat) (p : Pool) : Prop where
  held : ∀ w < n, (p.workers w).Flushes → p.itlock = some w
  holder : ∀ w, p.itlock = some w → w < n ∧ (p.workers w).Flushes
  length_le : p.intermediates.length ≤ 1
  kept : Any n (· = .finished) p.workers → p.intermediates = [] → p.itlock ≠ none
  exhausted : Any n Worker.HasLeft p.workers → p.rest = []

structure Pool.Formed (tg : TracGraph) (n : Nat) (p : Pool) : Prop where
  lt_size : ∀ b ∈ p.rest, b < tg.size
  workers : ∀ w < n, (p.workers w).WellFormed tg
  ascending : ∀ i ∈ p.intermediates, i.Pairwise (· < ·)

structure Pool.Inv (tg : TracGraph) (distance : Nat → Nat → ℚ) (base : List Nat) (diameter : ℚ)
    (n : Nat) (p : Pool) : Prop where
  guarded : p.Guarded n
  formed : p.Formed tg n
  has_iff : ∀ c, p.Has tg distance base diameter n c ↔ Dilation tg distance base diameter c

theorem flushes_update {workers : Nat → Worker} {v w : Nat} {a : Worker} :
    (Function.update workers w a v).Flushes ↔
      (v = w ∧ a.Flushes) ∨ (v ≠ w ∧ (workers v).Flushes) := by
  by_cases hvw : v = w
  · subst hvw
    rw [Function.update_self]
    simp
  · rw [Function.update_of_ne hvw]
    simp [hvw]

theorem Worker.not_hasLeft_looping : ¬ (Worker.looping dilated).HasLeft := by
  rintro (hflush | hfinished)
  · exact hflush
  · exact Worker.noConfusion hfinished

theorem Worker.not_hasLeft_handling : ¬ (Worker.handling dilated cellId).HasLeft := by
  rintro (hflush | hfinished)
  · exact hflush
  · exact Worker.noConfusion hfinished

variable {p : Pool}

theorem Pool.Guarded.update {w : Nat} {a : Worker} {rest : List Nat} (h : p.Guarded n)
    (hw : w < n) (hold : ¬ (p.workers w).Flushes) (hnew : ¬ a.HasLeft)
    (hrest : p.rest = [] → rest = []) :
    Pool.Guarded n ⟨rest, p.itlock, p.intermediates, Function.update p.workers w a⟩ where
  held v hv hflush := by
    obtain ⟨-, ha⟩ | ⟨-, hflush⟩ := flushes_update.mp hflush
    · exact absurd (.inl ha) hnew
    · exact h.held v hv hflush
  holder v hlock := by
    obtain ⟨hv, hflush⟩ := h.holder v hlock
    have hvw : v ≠ w := fun hvw => hold (hvw ▸ hflush)
    exact ⟨hv, flushes_update.mpr (.inr ⟨hvw, hflush⟩)⟩
  length_le := h.length_le
  kept hany hempty := by
    refine h.kept ?_ hempty
    obtain hw | ⟨v, hv, -, hdone⟩ := (any_update hw).mp hany
    · exact absurd (.inr hw) hnew
    · exact ⟨v, hv, hdone⟩
  exhausted hany := by
    refine hrest (h.exhausted ?_)
    obtain hw | ⟨v, hv, -, hleft⟩ := (any_update hw).mp hany
    · exact absurd hw hnew
    · exact ⟨v, hv, hleft⟩

theorem Pool.Guarded.flush {w : Nat} {a : Worker} {intermediates : List (List Nat)}
    (h : p.Guarded n) (hw : w < n) (hold : (p.workers w).Flushes) (hnew : a.Flushes)
    (hlength : intermediates.length ≤ 1) :
    Pool.Guarded n ⟨p.rest, p.itlock, intermediates, Function.update p.workers w a⟩ where
  held v hv hflush := by
    obtain ⟨rfl, -⟩ | ⟨-, hflush⟩ := flushes_update.mp hflush
    · exact h.held v hw hold
    · exact h.held v hv hflush
  holder v hlock := by
    have hvw : w = v := Option.some.inj ((h.held w hw hold).symm.trans hlock)
    subst hvw
    exact ⟨hw, flushes_update.mpr (.inl ⟨rfl, hnew⟩)⟩
  length_le := hlength
  kept _ _ := by
    change p.itlock ≠ none
    rw [h.held w hw hold]
    exact Option.some_ne_none w
  exhausted _ := h.exhausted (any_of_lt hw (.inl hold))

theorem Pool.Guarded.step {p q : Pool} (h : p.Guarded n)
    (hstep : Step tg distance base diameter n p q) : q.Guarded n := by
  cases hstep with
  | @take w cellId dilated rest hw hworker hlock hrest =>
    have hnot : ¬ (p.workers w).Flushes := by rw [hworker]; exact id
    have hne : p.rest ≠ [] := by rw [hrest]; exact List.cons_ne_nil _ _
    rw [← hlock]
    exact h.update hw hnot Worker.not_hasLeft_handling fun hnil => absurd hnil hne
  | @handle w cellId dilated dilated' hw hworker hdilate =>
    have hnot : ¬ (p.workers w).Flushes := by rw [hworker]; exact id
    exact h.update hw hnot Worker.not_hasLeft_looping id
  | @leave w dilated hw hworker hlock hrest fromMarks =>
    refine ⟨fun v hv hflush => ?_, fun v hv => ?_, h.length_le, fun _ _ => Option.some_ne_none w,
      fun _ => hrest⟩
    · obtain ⟨rfl, -⟩ | ⟨-, hflush⟩ := flushes_update.mp hflush
      · rfl
      · have hheld := h.held v hv hflush
        rw [hlock] at hheld
        exact absurd hheld.symm (Option.some_ne_none v)
    · have hvw : w = v := Option.some.inj hv
      subst hvw
      exact ⟨hw, flushes_update.mpr (.inl ⟨rfl, trivial⟩)⟩
  | @push w result hw hworker hempty =>
    have hflush : (p.workers w).Flushes := by rw [hworker]; trivial
    have hlock := h.held w hw hflush
    refine ⟨fun v hv hv' => ?_, fun v hv => absurd hv.symm (Option.some_ne_none v),
      Nat.le_refl 1, fun _ hnil => absurd hnil (List.cons_ne_nil _ _),
      fun _ => h.exhausted (any_of_lt hw (.inl hflush))⟩
    obtain ⟨-, hfalse⟩ | ⟨hvw, hv'⟩ := flushes_update.mp hv'
    · exact hfalse.elim
    · exact absurd (Option.some.inj ((h.held v hv hv').symm.trans hlock)) hvw
  | @pop w result other intermediates hw hworker hback =>
    have hflush : (p.workers w).Flushes := by rw [hworker]; trivial
    have hlength := h.length_le
    rw [hback, List.length_append] at hlength
    exact h.flush hw hflush trivial (Nat.le_of_add_right_le hlength)
  | @merge w result other hw hworker =>
    have hflush : (p.workers w).Flushes := by rw [hworker]; trivial
    exact h.flush hw hflush trivial h.length_le

theorem Pool.Formed.step {p q : Pool} (h : p.Formed tg n)
    (hstep : Step tg distance base diameter n p q) : q.Formed tg n := by
  cases hstep with
  | @take w cellId dilated rest hw hworker hlock hrest =>
    have hformed := h.workers w hw
    rw [hworker] at hformed
    have hlt := h.lt_size
    rw [hrest] at hlt
    refine ⟨fun b hb => hlt b (List.mem_cons_of_mem _ hb), all_update h.workers ?_, h.ascending⟩
    exact ⟨hformed, hlt cellId List.mem_cons_self⟩
  | @handle w cellId dilated dilated' hw hworker hdilate =>
    have hformed := h.workers w hw
    rw [hworker] at hformed
    exact ⟨h.lt_size, all_update h.workers (nodup_dilateCell hformed.1 hdilate), h.ascending⟩
  | @leave w dilated hw hworker hlock hrest fromMarks =>
    have hformed := h.workers w hw
    rw [hworker] at hformed
    exact ⟨h.lt_size, all_update h.workers (pairwise_flushed hformed fromMarks), h.ascending⟩
  | @push w result hw hworker hempty =>
    have hformed := h.workers w hw
    rw [hworker] at hformed
    refine ⟨h.lt_size, all_update h.workers trivial, fun i hi => ?_⟩
    rw [List.mem_singleton.mp hi]
    exact hformed
  | @pop w result other intermediates hw hworker hback =>
    have hformed := h.workers w hw
    rw [hworker] at hformed
    have hascending := h.ascending
    rw [hback] at hascending
    refine ⟨h.lt_size, all_update h.workers ⟨hformed, ?_⟩, fun i hi => ?_⟩
    · exact hascending other (List.mem_append_right _ List.mem_cons_self)
    · exact hascending i (List.mem_append_left _ hi)
  | @merge w result other hw hworker =>
    have hformed := h.workers w hw
    rw [hworker] at hformed
    refine ⟨h.lt_size, all_update h.workers ?_, h.ascending⟩
    exact SetOp.pairwise_apply .unite hformed.1 hformed.2

theorem Pool.Formed.has_step {p q : Pool} (htg : tg.Lawful) (hsorted : base.Pairwise (· < ·))
    (h : p.Formed tg n) (hstep : Step tg distance base diameter n p q) (c : Nat) :
    q.Has tg distance base diameter n c ↔ p.Has tg distance base diameter n c := by
  cases hstep with
  | @take w cellId dilated rest hw hworker hlock hrest =>
    refine any_update_or_iff hw ?_
    rw [hworker, hrest]
    simp only [Worker.Has, List.mem_cons, exists_eq_or_imp, or_assoc]
  | @handle w cellId dilated dilated' hw hworker hdilate =>
    have hformed := h.workers w hw
    rw [hworker] at hformed
    refine any_update_or_iff hw ?_
    rw [hworker]
    simp only [Worker.Has, mem_dilateCell htg hsorted hformed.2 hdilate]
  | @leave w dilated hw hworker hlock hrest fromMarks =>
    refine any_update_or_iff hw ?_
    rw [hworker]
    simp only [Worker.Has, mem_flushed]
  | @push w result hw hworker hempty =>
    refine any_update_or_iff hw ?_
    rw [hworker, hempty]
    simp only [Worker.Has, List.mem_singleton, exists_eq_left, List.not_mem_nil, false_and,
      exists_false, false_or, or_false]
    exact or_comm
  | @pop w result other intermediates hw hworker hback =>
    refine any_update_or_iff hw ?_
    rw [hworker, hback]
    simp only [Worker.Has, List.mem_append, List.mem_singleton, or_and_right, exists_or,
      exists_eq_left]
    rw [or_assoc, or_comm (a := c ∈ other), or_assoc]
  | @merge w result other hw hworker =>
    have hformed := h.workers w hw
    rw [hworker] at hformed
    refine any_update_or_iff hw ?_
    rw [hworker]
    simp only [Worker.Has]
    rw [SetOp.mem_apply .unite hformed.1 hformed.2]
    rfl

theorem Pool.Inv.step {p q : Pool} (htg : tg.Lawful) (hsorted : base.Pairwise (· < ·))
    (h : p.Inv tg distance base diameter n) (hstep : Step tg distance base diameter n p q) :
    q.Inv tg distance base diameter n where
  guarded := h.guarded.step hstep
  formed := h.formed.step hstep
  has_iff c := (h.formed.has_step htg hsorted hstep c).trans (h.has_iff c)

theorem Pool.inv_start (hbase : ∀ b ∈ base, b < tg.size) :
    (Pool.start base).Inv tg distance base diameter n where
  guarded :=
    { held := fun _ _ hflush => hflush.elim
      holder := fun _ hlock => absurd hlock.symm (Option.some_ne_none _)
      length_le := Nat.zero_le 1
      kept := fun ⟨_, _, hfinished⟩ => Worker.noConfusion hfinished
      exhausted := fun ⟨_, _, hleft⟩ => absurd hleft Worker.not_hasLeft_looping }
  formed :=
    { lt_size := hbase
      workers := fun _ _ => List.nodup_nil
      ascending := fun _ hi => absurd hi List.not_mem_nil }
  has_iff c := by
    constructor
    · rintro (⟨_, _, hmem⟩ | ⟨b, hb, hreach⟩ | ⟨i, hi, _⟩)
      · exact absurd hmem List.not_mem_nil
      · exact ⟨b, hb, hreach⟩
      · exact absurd hi List.not_mem_nil
    · rintro ⟨b, hb, hreach⟩
      exact .inr (.inl ⟨b, hb, hreach⟩)

def Worker.weight : Worker → Nat
  | .looping _ => 4
  | .handling _ _ => 5
  | .flushing _ => 3
  | .merging _ _ => 4
  | .finished => 0

def Pool.weight (n : Nat) (p : Pool) : Nat :=
  total n Worker.weight p.workers + 2 * p.rest.length + 2 * p.intermediates.length

theorem Pool.Inv.joined (h : p.Inv tg distance base diameter n) (hn : 0 < n)
    (hjoin : p.Joinable n) :
    ∃ result, p.intermediates = [result] ∧ result.Pairwise (· < ·) ∧
      ∀ c, c ∈ result ↔ Dilation tg distance base diameter c := by
  have hlock : p.itlock = none := by
    cases hlock : p.itlock with
    | none => rfl
    | some v =>
      obtain ⟨hv, hflush⟩ := h.guarded.holder v hlock
      rw [hjoin v hv] at hflush
      exact hflush.elim
  cases hresults : p.intermediates with
  | nil => exact absurd hlock (h.guarded.kept ⟨0, hn, hjoin 0 hn⟩ hresults)
  | cons result others =>
    have hlength := h.guarded.length_le
    rw [hresults, List.length_cons] at hlength
    have hothers : others = [] := List.length_eq_zero_iff.mp (by omega)
    subst hothers
    refine ⟨result, rfl, h.formed.ascending result ?_, fun c => ?_⟩
    · rw [hresults]
      exact List.mem_cons_self
    · have hnone : ¬ Any n (Worker.Has tg distance base diameter c) p.workers := by
        rintro ⟨w, hw, hhas⟩
        rw [hjoin w hw] at hhas
        exact hhas
      have hrest : p.rest = [] := h.guarded.exhausted ⟨0, hn, .inr (hjoin 0 hn)⟩
      rw [← h.has_iff c, Pool.Has, hresults, hrest]
      simp [hnone]

theorem Pool.Inv.run (htg : tg.Lawful) (hsorted : base.Pairwise (· < ·))
    (hbase : ∀ b ∈ base, b < tg.size)
    (hrun : Relation.ReflTransGen (Step tg distance base diameter n) (Pool.start base) p) :
    p.Inv tg distance base diameter n :=
  run_invariant (fun _ _ hinv hstep => hinv.step htg hsorted hstep) hrun (Pool.inv_start hbase)

theorem DilatesTo.spec {result : List Nat} (htg : tg.Lawful) (hsorted : base.Pairwise (· < ·))
    (hbase : ∀ b ∈ base, b < tg.size) (hn : 0 < n)
    (h : DilatesTo tg distance base diameter n result) :
    result.Pairwise (· < ·) ∧ ∀ c, c ∈ result ↔ Dilation tg distance base diameter c := by
  rw [DilatesTo] at h
  by_cases hempty : base = []
  · rw [if_pos hempty] at h
    subst h hempty
    exact ⟨.nil, fun c => by simp [Dilation]⟩
  rw [if_neg hempty] at h
  by_cases hone : n = 1
  · rw [if_pos hone] at h
    obtain ⟨dilated, fromMarks, hfold, rfl⟩ := h
    obtain ⟨r, hr, hmem⟩ := @foldlM_dilateCell_spec tg distance base diameter htg hsorted hbase
    have heq : r = dilated := Option.some.inj (hr.symm.trans hfold)
    refine ⟨pairwise_flushed (nodup_foldlM_dilateCell .nil hfold) fromMarks, fun c => ?_⟩
    rw [mem_flushed, ← heq, hmem]
  · rw [if_neg hone] at h
    obtain ⟨p, hrun, hjoin, hhead⟩ := h
    have hinv := Pool.Inv.run htg hsorted hbase hrun
    obtain ⟨r, hresults, hspec⟩ := hinv.joined hn hjoin
    rw [hresults, List.head?_cons] at hhead
    exact Option.some.inj hhead ▸ hspec

end Sserialize.CQRDilator
