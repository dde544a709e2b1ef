import Sserialize.Containers.RLEStream

namespace Sserialize.RLEStream

inductive Op where
  | put (value : Nat)
  | checkpoint (value : Nat)
  | flush
  deriving Repr, DecidableEq

def Op.entry : Op → List Nat
  | .put value => [value]
  | .checkpoint value => [value]
  | .flush => []

def entries (ops : List Op) : List Nat := ops.flatMap Op.entry

def puts (ops : List Op) : List Nat :=
  ops.flatMap fun
    | .put value => [value]
    | _ => []

def last (ops : List Op) : Nat := (entries ops).getLastD 0

def Creator.step (c : Creator) : Op → Except Fault Creator
  | .put value => c.put value
  | .checkpoint value => c.checkpoint value
  | .flush => c.flush

def Creator.run (c : Creator) : List Op → Except Fault Creator
  | [] => .ok c
  | op :: ops => do
    let c ← c.step op
    c.run ops

def write (ops : List Op) : Except Fault Bytes := do
  let c ← Creator.new.run ops
  let c ← c.flush
  return c.dest

def Yields (bytes : Bytes) (values : List Nat) : Prop :=
  ∃ d id, Reads ⟨bytes, 0, 0, 0⟩ values ⟨[], 0, d, id⟩

/-- The differences of the calls of `put` have an absolute value of 31 bits. -/
def Fits : Nat → List Op → Prop
  | _, [] => True
  | prev, .put value :: ops =>
    (value < 2 ^ 32 ∧ -2 ^ 31 < (value : Int) - prev ∧ (value : Int) - prev < 2 ^ 31) ∧ Fits value ops
  | _, .checkpoint value :: ops => value < 2 ^ 32 ∧ Fits value ops
  | prev, .flush :: ops => Fits prev ops

def NoLongRun (ops : List Op) : Prop :=
  ∀ front values back d, ops = front ++ values.map .put ++ back →
    differences (last front) values ≠ List.replicate (2 ^ 30) d

structure Codable (ops : List Op) : Prop where
  fits : Fits 0 ops
  runs : NoLongRun ops

/-- All entries are read from the beginning, and those from a checkpoint on from its position. A
difference of more than 31 bits throws. -/
structure ReadsBack (ops : List Op) : Prop where
  start : ∃ bytes, write ops = .ok bytes ∧ Yields bytes (entries ops)
  checkpoint : ∀ front value back, ops = front ++ .checkpoint value :: back →
    ∃ base bytes, write front = .ok base ∧ write ops = .ok bytes ∧
      Yields (bytes.drop base.length) (value :: entries back)
  throws : ∀ (value : Nat) back,
    (value : Int) - last ops < -2 ^ 31 ∨ 2 ^ 31 - 1 < (value : Int) - last ops →
    Creator.new.run (ops ++ .put value :: back) = .error .typeOverflow

theorem entries_append (ops ops' : List Op) : entries (ops ++ ops') = entries ops ++ entries ops' :=
  List.flatMap_append

theorem entries_map_put (values : List Nat) : entries (values.map .put) = values := by
  induction values with
  | nil => rfl
  | cons value values ih =>
    change value :: entries (values.map .put) = _
    rw [ih]

theorem last_append (ops ops' : List Op) : last (ops ++ ops') = (entries ops').getLastD (last ops) := by
  rw [last, entries_append, getLastD_append, last]

theorem Creator.run_append (c : Creator) (ops ops' : List Op) :
    c.run (ops ++ ops') = c.run ops >>= fun c => c.run ops' := by
  induction ops generalizing c with
  | nil => rfl
  | cons op ops ih =>
    rw [List.cons_append, Creator.run, Creator.run]
    cases c.step op with
    | error e => rfl
    | ok c' => exact ih c'

theorem Fits.append {prev : Nat} {ops ops' : List Op} :
    Fits prev (ops ++ ops') ↔ Fits prev ops ∧ Fits ((entries ops).getLastD prev) ops' := by
  induction ops generalizing prev with
  | nil => exact (and_iff_right trivial).symm
  | cons op ops ih =>
    cases op with
    | put value =>
      have hlast : (entries (.put value :: ops)).getLastD prev = (entries ops).getLastD value :=
        List.getLastD_cons
      rw [hlast, List.cons_append, Fits, Fits, ih]
      exact and_assoc.symm
    | checkpoint value =>
      have hlast : (entries (.checkpoint value :: ops)).getLastD prev = (entries ops).getLastD value :=
        List.getLastD_cons
      rw [hlast, List.cons_append, Fits, Fits, ih]
      exact and_assoc.symm
    | flush => exact ih

theorem NoLongRun.front {ops ops' : List Op} (h : NoLongRun (ops ++ ops')) : NoLongRun ops := by
  intro front values back d heq
  apply h front values (back ++ ops') d
  rw [heq, List.append_assoc _ back]

variable {ops : List Op}

theorem noLongRun_of_length (h : ops.length < 2 ^ 30) : NoLongRun ops := by
  rintro front values back d rfl hrun
  have hlength := congrArg List.length hrun
  rw [length_differences, List.length_replicate] at hlength
  simp only [List.length_append, List.length_map] at h
  omega

theorem differences_take (prev : Nat) (values : List Nat) (k : Nat) :
    differences prev (values.take k) = (differences prev values).take k := by
  induction values generalizing prev k with
  | nil => simp [differences]
  | cons value values ih =>
    cases k with
    | zero => rfl
    | succ k => rw [List.take_succ_cons, differences, differences, List.take_succ_cons, ih]

structure Creator.Ran (c : Creator) (ops : List Op) : Prop where
  holds : ∃ before pending, ops = before ++ pending.map .put ∧ c.Holds (entries before) pending
  lt : ∀ value ∈ entries ops, value < 2 ^ 32
  diff : c.rleCount ≠ 0 → -2 ^ 31 < c.rleDiff ∧ c.rleDiff < 2 ^ 31

theorem Creator.ran_new : Creator.new.Ran [] :=
  ⟨⟨[], [], rfl, new_holds⟩, nofun, fun h => absurd rfl h⟩

variable {c : Creator}

theorem Creator.Ran.prevId_eq (h : c.Ran ops) : c.prevId = last ops := by
  obtain ⟨before, pending, rfl, hholds⟩ := h.holds
  rw [last_append, entries_map_put, last, hholds.prevId]

theorem Creator.Ran.writable (h : c.Ran ops) (hruns : NoLongRun ops) : c.Writable (entries ops) := by
  refine ⟨h.lt, ?_, h.diff⟩
  obtain ⟨before, pending, rfl, hholds⟩ := h.holds
  by_contra hmany
  apply hruns before (pending.take (2 ^ 30)) ((pending.drop (2 ^ 30)).map .put) c.rleDiff
  · rw [List.append_assoc, ← List.map_append, List.take_append_drop]
  · rw [differences_take, last, hholds.run, List.take_replicate, Nat.min_eq_left (not_lt.mp hmany)]

theorem Creator.Ran.flush (h : c.Ran ops) (hruns : NoLongRun ops) :
    ∃ c', c.flush = .ok c' ∧ c'.rleCount = 0 ∧ c'.Holds (entries ops) [] := by
  have hw := h.writable hruns
  obtain ⟨before, pending, rfl, hholds⟩ := h.holds
  rw [entries_append, entries_map_put] at hw ⊢
  obtain ⟨c', hflush, hcount, -, hflushed⟩ := hholds.flush hw
  exact ⟨c', hflush, hcount, hflushed⟩

variable {value : Nat}

theorem decodes_checkpoint (hvalue : value < 2 ^ 32) (prev : Nat) :
    Decodes (putVlPackedUint64 (value <<< 2 ||| 0x2)) prev [value] :=
  decodes_word hvalue (by decide) (u32_of_lt hvalue).symm

theorem Creator.Ran.step {c : Creator} {ops : List Op} {op : Op} (h : c.Ran ops)
    (hruns : NoLongRun ops) (hfits : Fits (last ops) [op]) :
    ∃ c', c.step op = .ok c' ∧ c'.Ran (ops ++ [op]) := by
  have hlt : ∀ {value : Nat}, value < 2 ^ 32 → ∀ v ∈ entries ops ++ [value], v < 2 ^ 32 := by
    intro value hvalue v hv
    rcases List.mem_append.mp hv with hv | hv
    · exact h.lt v hv
    · rwa [List.mem_singleton.mp hv]
  cases op with
  | put value =>
    obtain ⟨⟨hvalue, hlow, hhigh⟩, -⟩ := hfits
    rw [← h.prevId_eq] at hlow hhigh
    have hw := h.writable hruns
    obtain ⟨before, pending, hops, hholds⟩ := h.holds
    have hentries : entries ops = entries before ++ pending := by
      rw [hops, entries_append, entries_map_put]
    rw [hentries] at hw
    obtain ⟨c', hput, hdiff, hput'⟩ := hholds.put hw hlow hhigh
    refine ⟨c', hput, ?_, ?_, fun _ => hdiff ▸ ⟨hlow, hhigh⟩⟩
    · rcases hput' with hcont | hnew
      · exact ⟨before, pending ++ [value], by rw [hops, List.map_append, List.append_assoc]; rfl, hcont⟩
      · rw [← hentries] at hnew
        exact ⟨ops, [value], rfl, hnew⟩
    · rw [entries_append]
      exact hlt hvalue
  | checkpoint value =>
    obtain ⟨hvalue, -⟩ := hfits
    obtain ⟨c₁, hflush, hcount, hflushed⟩ := h.flush hruns
    refine ⟨{ c₁ with dest := c₁.dest ++ putVlPackedUint64 (value <<< 2 ||| 0x2), prevId := value },
      ?_, ⟨ops ++ [.checkpoint value], [], (List.append_nil _).symm, ?_, ?_, ?_⟩, ?_,
      fun h => absurd hcount h⟩
    · rw [Creator.step, Creator.checkpoint, hflush]
      rfl
    · rw [entries_append]
      exact hflushed.decodes.append (decodes_checkpoint hvalue _)
    · change [] = List.replicate c₁.rleCount c₁.rleDiff
      rw [hcount]
      rfl
    · change value = last (ops ++ [.checkpoint value])
      rw [last_append]
      rfl
    · rw [entries_append]
      exact hlt hvalue
  | flush =>
    obtain ⟨c₁, hflush, hcount, hflushed⟩ := h.flush hruns
    have hentries : entries (ops ++ [.flush]) = entries ops := by
      rw [entries_append]
      exact List.append_nil _
    refine ⟨c₁, hflush, ⟨ops ++ [.flush], [], (List.append_nil _).symm, ?_⟩, ?_,
      fun h => absurd hcount h⟩
    · rwa [hentries]
    · rw [hentries]
      exact h.lt

theorem Creator.Ran.run {front ops : List Op} (h : c.Ran front) (hruns : NoLongRun (front ++ ops))
    (hfits : Fits (last front) ops) : ∃ c', c.run ops = .ok c' ∧ c'.Ran (front ++ ops) := by
  induction ops generalizing c front with
  | nil =>
    rw [List.append_nil]
    exact ⟨c, rfl, h⟩
  | cons op ops ih =>
    have hone : Fits (last front) [op] ∧ Fits ((entries [op]).getLastD (last front)) ops :=
      Fits.append.mp hfits
    obtain ⟨c₁, hstep, hran⟩ := h.step hruns.front hone.1
    have hsplit : front ++ op :: ops = front ++ [op] ++ ops := by simp
    rw [hsplit] at hruns ⊢
    obtain ⟨c', hrun, hran'⟩ := ih hran hruns (by rw [last_append]; exact hone.2)
    exact ⟨c', by rw [Creator.run, hstep, ok_bind, hrun], hran'⟩

theorem Codable.ran (h : Codable ops) : ∃ c, Creator.new.run ops = .ok c ∧ c.Ran ops :=
  Creator.ran_new.run h.runs h.fits

theorem Codable.write_eq (h : Codable ops) :
    ∃ bytes, write ops = .ok bytes ∧ Decodes bytes 0 (entries ops) := by
  obtain ⟨c, hrun, hran⟩ := h.ran
  obtain ⟨c', hflush, -, hflushed⟩ := hran.flush h.runs
  refine ⟨c'.dest, ?_, hflushed.decodes⟩
  rw [write, hrun, ok_bind, hflush]
  rfl

theorem Decodes.yields {bytes : Bytes} {values : List Nat} (h : Decodes bytes 0 values) :
    Yields bytes values := by
  obtain ⟨d, hreads⟩ := h [] 0
  rw [List.append_nil] at hreads
  exact ⟨d, _, hreads⟩

def Creator.behind (base : Bytes) (c : Creator) : Creator := { c with dest := base ++ c.dest }

theorem Creator.flush_behind {base : Bytes} {c c' : Creator} (h : c.flush = .ok c') :
    (c.behind base).flush = .ok (c'.behind base) := by
  obtain ⟨bytes, hbytes, hpure⟩ := bind_eq_ok h
  obtain rfl := Except.ok.inj hpure
  have hbytes' : flushed (c.behind base).prevId (c.behind base).rleDiff (c.behind base).rleCount =
      .ok bytes := hbytes
  rw [Creator.flush, hbytes', ok_bind, Creator.behind, Creator.behind, List.append_assoc]
  rfl

theorem Creator.step_behind {base : Bytes} {c c' : Creator} {op : Op} (h : c.step op = .ok c') :
    (c.behind base).step op = .ok (c'.behind base) := by
  cases op with
  | put value =>
    obtain ⟨myDiff, hdiff, hput⟩ := bind_eq_ok h
    have hdiff' : narrowCheckInt32 ((value : Int) - (c.behind base).prevId) = .ok myDiff := hdiff
    rw [Creator.step, Creator.put, hdiff', ok_bind]
    by_cases hsame : myDiff = c.rleDiff
    · rw [if_pos hsame] at hput
      obtain rfl := Except.ok.inj hput
      exact if_pos hsame
    · rw [if_neg hsame] at hput
      obtain ⟨c₁, hflush, hpure⟩ := bind_eq_ok hput
      obtain rfl := Except.ok.inj hpure
      have hne : ¬ myDiff = (c.behind base).rleDiff := hsame
      rw [if_neg hne, flush_behind hflush]
      rfl
  | checkpoint value =>
    obtain ⟨c₁, hflush, hpure⟩ := bind_eq_ok h
    obtain rfl := Except.ok.inj hpure
    rw [Creator.step, Creator.checkpoint, flush_behind hflush, ok_bind, Creator.behind, Creator.behind,
      List.append_assoc]
    rfl
  | flush => exact flush_behind h

theorem Creator.run_behind {base : Bytes} {c c' : Creator} (h : c.run ops = .ok c') :
    (c.behind base).run ops = .ok (c'.behind base) := by
  induction ops generalizing c with
  | nil =>
    obtain rfl := Except.ok.inj h
    rfl
  | cons op ops ih =>
    obtain ⟨c₁, hstep, hrun⟩ := bind_eq_ok h
    rw [Creator.run, step_behind hstep, ok_bind]
    exact ih hrun

theorem Creator.checkpoint_eq {c c₁ c₂ : Creator} (hflush : c.flush = .ok c₁)
    (hnew : Creator.new.checkpoint value = .ok c₂) : c.checkpoint value = .ok (c₂.behind c₁.dest) := by
  obtain ⟨bytes, -, hpure⟩ := bind_eq_ok hflush
  obtain rfl := Except.ok.inj hpure
  obtain rfl := Except.ok.inj hnew
  rw [Creator.checkpoint, hflush]
  rfl

theorem write_append {front back : List Op} {base rest : Bytes} (hbase : write front = .ok base)
    (hrest : write (.checkpoint value :: back) = .ok rest) :
    write (front ++ .checkpoint value :: back) = .ok (base ++ rest) := by
  obtain ⟨c, hrun, hflushed⟩ := bind_eq_ok hbase
  obtain ⟨c₁, hflush, hpure⟩ := bind_eq_ok hflushed
  obtain rfl := Except.ok.inj hpure
  obtain ⟨c₃, hrun', hflushed'⟩ := bind_eq_ok hrest
  obtain ⟨c₄, hflush', hpure'⟩ := bind_eq_ok hflushed'
  obtain rfl := Except.ok.inj hpure'
  obtain ⟨c₂, hnew, hback⟩ := bind_eq_ok hrun'
  have hstep : c.step (.checkpoint value) = .ok (c₂.behind c₁.dest) :=
    Creator.checkpoint_eq hflush hnew
  rw [write, Creator.run_append, hrun, ok_bind, Creator.run, hstep, ok_bind,
    Creator.run_behind hback, ok_bind, Creator.flush_behind hflush']
  rfl

theorem Codable.front {front back : List Op} (h : Codable (front ++ back)) : Codable front :=
  ⟨(Fits.append.mp h.fits).1, h.runs.front⟩

theorem Codable.back {front back : List Op} (h : Codable (front ++ .checkpoint value :: back)) :
    Codable (.checkpoint value :: back) := by
  refine ⟨(Fits.append.mp h.fits).2, ?_⟩
  intro front' values back' d heq
  cases front' with
  | nil =>
    cases values with
    | nil =>
      intro hrun
      have hlength := congrArg List.length hrun
      rw [length_differences, List.length_replicate] at hlength
      exact absurd hlength (by decide)
    | cons v values => cases heq
  | cons op front' =>
    obtain ⟨rfl, -⟩ := List.cons_eq_cons.mp heq
    have hlast : last (.checkpoint value :: front') = last (front ++ .checkpoint value :: front') := by
      rw [last_append]
      rfl
    rw [hlast]
    apply h.runs (front ++ .checkpoint value :: front') values back' d
    rw [heq, List.append_assoc, List.append_assoc, List.append_assoc]

theorem Creator.Ran.put_throws (h : c.Ran ops)
    (hvalue : (value : Int) - last ops < -2 ^ 31 ∨ 2 ^ 31 - 1 < (value : Int) - last ops) :
    c.put value = .error .typeOverflow := by
  rw [← h.prevId_eq] at hvalue
  have hnarrow : narrowCheckInt32 ((value : Int) - c.prevId) = .error .typeOverflow := if_pos hvalue
  rw [Creator.put, hnarrow]
  rfl

theorem rleStream_readsBack (ops : List Op) (h : Codable ops) : ReadsBack ops := by
  refine ⟨?_, ?_, ?_⟩
  · obtain ⟨bytes, hwrite, hdecodes⟩ := h.write_eq
    exact ⟨bytes, hwrite, hdecodes.yields⟩
  · rintro front value back rfl
    obtain ⟨base, hbase, -⟩ := h.front.write_eq
    obtain ⟨rest, hrest, hdecodes⟩ := h.back.write_eq
    refine ⟨base, base ++ rest, hbase, write_append hbase hrest, ?_⟩
    rw [List.drop_left]
    exact hdecodes.yields
  · intro value back hvalue
    obtain ⟨c, hrun, hran⟩ := h.ran
    rw [Creator.run_append, hrun, ok_bind, Creator.run, Creator.step, hran.put_throws hvalue]
    rfl

/-- A checkpoint between two values, and the difference of the value behind it. -/
theorem rleStream_readsBack_three : ReadsBack [.put 1, .checkpoint 1, .put 2] := by
  apply rleStream_readsBack
  refine ⟨?_, noLongRun_of_length (by decide)⟩
  simp [Fits]

/-- The checkpoint is a value of the stream, too. -/
theorem not_yields_puts :
    ¬ ∀ ops, Codable ops →
      (∃ bytes, write ops = .ok bytes ∧ Yields bytes (puts ops)) ∧
        ∀ front value back, ops = front ++ .checkpoint value :: back →
          ∃ base bytes, write front = .ok base ∧ write ops = .ok bytes ∧
            Yields (bytes.drop base.length) (puts back) := by
  intro h
  have hcodable : Codable [.put 1, .checkpoint 1, .put 2] := by
    refine ⟨?_, noLongRun_of_length (by decide)⟩
    simp [Fits]
  obtain ⟨base, bytes, hbase, hbytes, d, id, t, hnext, hid, -⟩ :=
    (h _ hcodable).2 [.put 1] 1 [.put 2] rfl
  obtain rfl : [6] = base := Except.ok.inj hbase
  obtain rfl : [6, 6, 4] = bytes := Except.ok.inj hbytes
  obtain rfl : (⟨[4], 0, 0, 1⟩ : RLEStream) = t := Except.ok.inj hnext
  cases hid

end Sserialize.RLEStream
