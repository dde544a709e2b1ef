import Sserialize.Search.OOMCTCValuesCreatorAppend

/-!
# The entries behind `OOMCTCValuesCreator::insert`

Whatever the threads do, the entries are those that the items leave, in some order. With ids below
the marker an item leaves one entry for each node, cell and id.
-/

namespace Sserialize.OOMCTCValuesCreator

open WorkerPool

variable {ι ν : Type*}

/-! ## One item -/

namespace InsertionTraits

variable {itraits : InsertionTraits ι ν}

structure ValidIds (itraits : InsertionTraits ι ν) (item : ι) : Prop where
  own : itraits.fullMatchPredicate item = false → ∀ cellId ∈ itraits.itemCells item,
    itraits.idIn item cellId < fullMatchId
  foreign : itraits.foreignObjectsPredicate item = true →
    ∀ cellId ∈ itraits.foreignCells item, ∀ itemId ∈ itraits.foreignItems item cellId,
      itemId < fullMatchId

def entry (itraits : InsertionTraits ι ν) (item : ι) (node : ν) (cellId : Nat) : ValueEntry ν :=
  ⟨cellId, if itraits.fullMatchPredicate item then fullMatchId else itraits.idIn item cellId, node⟩

def Ready (itraits : InsertionTraits ι ν) (item : ι) (e : ValueEntry ν) : Prop :=
  if itraits.fullMatchPredicate item then e.itemId = fullMatchId
  else if itraits.hasCellLocalIds then e.itemId ≠ fullMatchId
  else e.itemId = itraits.itemId item

theorem ready_firstEntry [Inhabited ν] (itraits : InsertionTraits ι ν) (item : ι) :
    itraits.Ready item (itraits.firstEntry item) := by
  unfold Ready firstEntry
  cases itraits.fullMatchPredicate item <;> cases itraits.hasCellLocalIds <;>
    simp [ValueEntry.setFullMatch, fullMatchId]

variable {e : ValueEntry ν} {item : ι}

theorem setCell_eq (h : itraits.Ready item e) (cellId : Nat)
    (hid : itraits.fullMatchPredicate item = false → itraits.idIn item cellId < fullMatchId) :
    itraits.setCell item e cellId = itraits.entry item e.nodeId cellId ∧
      itraits.Ready item (itraits.setCell item e cellId) := by
  have hne : ∀ id, id < fullMatchId → id ≠ fullMatchId := fun _ => Nat.ne_of_lt
  unfold Ready idIn at *
  unfold setCell entry idIn
  cases hfull : itraits.fullMatchPredicate item <;> cases hlocal : itraits.hasCellLocalIds <;>
    simp_all [ValueEntry.fullMatch]

theorem insertCells_eq {cells : List Nat} (h : itraits.Ready item e)
    (hids : itraits.fullMatchPredicate item = false → ∀ cellId ∈ cells,
      itraits.idIn item cellId < fullMatchId) :
    (itraits.insertCells item e cells).2 = cells.map (itraits.entry item e.nodeId) ∧
      itraits.Ready item (itraits.insertCells item e cells).1 := by
  induction cells generalizing e with
  | nil => exact ⟨rfl, h⟩
  | cons cellId cells ih =>
    obtain ⟨heq, hready⟩ := setCell_eq h cellId fun hpart => hids hpart cellId List.mem_cons_self
    obtain ⟨hrest, hlast⟩ := ih hready fun hpart x hx => hids hpart x (List.mem_cons_of_mem _ hx)
    refine ⟨?_, hlast⟩
    change itraits.setCell item e cellId :: (itraits.insertCells item _ cells).2 = _
    rw [hrest, heq]
    rfl

theorem insertNodes_eq {nodes : List ν} (h : itraits.Ready item e) (hids : itraits.ValidIds item) :
    itraits.insertNodes item e nodes =
      nodes.map fun node => (itraits.itemCells item).map (itraits.entry item node) := by
  induction nodes generalizing e with
  | nil => rfl
  | cons node nodes ih =>
    have hready : itraits.Ready item { e with nodeId := node } := h
    obtain ⟨hcells, hlast⟩ := insertCells_eq hready hids.own
    change (itraits.insertCells item _ _).2 :: itraits.insertNodes item _ nodes = _
    rw [hcells, ih hlast]
    rfl

theorem mem_entries [Inhabited ν] (hids : itraits.ValidIds item) :
    e ∈ itraits.entries item ↔ e.nodeId ∈ itraits.itemTextSearchNodes item ∧
      ((itraits.fullMatchPredicate item = true ∧ e.cellId ∈ itraits.itemCells item ∧
          e.itemId = fullMatchId) ∨
        (itraits.fullMatchPredicate item = false ∧ e.cellId ∈ itraits.itemCells item ∧
          e.itemId = itraits.idIn item e.cellId) ∨
        (itraits.foreignObjectsPredicate item = true ∧ e.cellId ∈ itraits.foreignCells item ∧
          e.itemId ∈ itraits.foreignItems item e.cellId)) := by
  have hnodes : e ∈ (itraits.nodeEntries item).flatten ↔
      e.nodeId ∈ itraits.itemTextSearchNodes item ∧ e.cellId ∈ itraits.itemCells item ∧
        e.itemId = if itraits.fullMatchPredicate item then fullMatchId
          else itraits.idIn item e.cellId := by
    rw [nodeEntries, insertNodes_eq (ready_firstEntry itraits item) hids]
    simp only [List.mem_flatten, List.mem_map, exists_exists_and_eq_and]
    constructor
    · rintro ⟨node, hnode, cellId, hcell, rfl⟩
      exact ⟨hnode, hcell, rfl⟩
    · rintro ⟨hnode, hcell, hid⟩
      refine ⟨e.nodeId, hnode, e.cellId, hcell, ?_⟩
      rw [entry, ← hid]
  have hforeign : e ∈ itraits.lastEntries item ↔
      e.nodeId ∈ itraits.itemTextSearchNodes item ∧
        itraits.foreignObjectsPredicate item = true ∧ e.cellId ∈ itraits.foreignCells item ∧
          e.itemId ∈ itraits.foreignItems item e.cellId := by
    unfold lastEntries foreignEntries
    cases itraits.foreignObjectsPredicate item with
    | false => simp
    | true =>
      simp only [if_true, List.mem_flatMap, List.mem_map, true_and]
      constructor
      · rintro ⟨cellId, hcell, itemId, hitem, node, hnode, rfl⟩
        exact ⟨hnode, hcell, hitem⟩
      · rintro ⟨hnode, hcell, hitem⟩
        exact ⟨e.cellId, hcell, e.itemId, hitem, e.nodeId, hnode, rfl⟩
  rw [entries, List.mem_append, hnodes, hforeign]
  cases itraits.fullMatchPredicate item <;> simp [and_or_left]

end InsertionTraits

/-! ## The threads -/

namespace Insert

variable [Inhabited ν] {itraits : InsertionTraits ι ν} {outBufferSize numThreads : Nat}
  {s s' : State ι ν}

section Entries

variable [DecidableEq ν]

def Worker.held (e : ValueEntry ν) : Worker ν → Nat
  | .loop outBuffer => outBuffer.count e
  | .insert outBuffer nodes foreign =>
    outBuffer.count e + nodes.flatten.count e + foreign.count e
  | .returned => 0

def State.count (itraits : InsertionTraits ι ν) (numThreads : Nat) (s : State ι ν)
    (e : ValueEntry ν) : Nat :=
  s.entries.count e + total numThreads (Worker.held e) s.workers +
    (s.items.flatMap itraits.entries).count e

theorem State.count_start (itraits : InsertionTraits ι ν) (numThreads : Nat)
    (entries : List (ValueEntry ν)) (items : List ι) (e : ValueEntry ν) :
    (State.start entries items).count itraits numThreads e =
      (entries ++ items.flatMap itraits.entries).count e := by
  have hzero : total numThreads (Worker.held e)
      (fun _ => .loop []) = 0 := total_eq_zero_iff.mpr fun _ _ => rfl
  rw [List.count_append]
  change _ + total numThreads (Worker.held e) (fun _ => .loop []) +
    _ = _
  rw [hzero]
  rfl

theorem Step.count_eq (hstep : Step itraits outBufferSize numThreads s s') (e : ValueEntry ν) :
    s'.count itraits numThreads e = s.count itraits numThreads e := by
  cases hstep with
  | @take w outBuffer item items hw hworker hitems =>
    have htotal := total_update (Worker.held e) hw s.workers
      (.insert outBuffer (itraits.nodeEntries item) (itraits.lastEntries item))
    simp only [hworker, Worker.held] at htotal
    simp only [State.count, hitems, List.flatMap_cons, InsertionTraits.entries, List.count_append]
    omega
  | @node w outBuffer out foreign nodes hw hworker _ =>
    have htotal := total_update (Worker.held e) hw s.workers
      (.insert (outBuffer ++ out) nodes foreign)
    simp only [hworker, Worker.held, List.count_append, List.flatten_cons] at htotal
    simp only [State.count]
    omega
  | @flushOnFull w outBuffer out foreign nodes hw hworker _ =>
    have htotal := total_update (Worker.held e) hw s.workers
      (.insert [] nodes foreign)
    simp only [hworker, Worker.held, List.flatten_cons, List.count_append, List.count_nil] at htotal
    simp only [State.count, List.count_append]
    omega
  | @foreign w outBuffer foreign hw hworker =>
    have htotal := total_update (Worker.held e) hw s.workers
      (.loop (outBuffer ++ foreign))
    simp only [hworker, Worker.held, List.count_append, List.flatten_nil, List.count_nil] at htotal
    simp only [State.count]
    omega
  | @finish w outBuffer hw hworker _ =>
    have htotal := total_update (Worker.held e) hw s.workers .returned
    simp only [hworker, Worker.held] at htotal
    simp only [State.count, List.count_append]
    omega

end Entries

theorem Step.items_eq_nil (hstep : Step itraits outBufferSize numThreads s s')
    (h : (∃ w < numThreads, s.workers w = .returned) → s.items = [])
    (hreturned : ∃ w < numThreads, s'.workers w = .returned) : s'.items = [] := by
  have hkeep : ∀ (w : Nat) (worker : Worker ν), worker ≠ .returned →
      (∃ v < numThreads, Function.update s.workers w worker v = .returned) → s.items = [] := by
    rintro w worker hne ⟨v, hv, heq⟩
    apply h
    refine ⟨v, hv, ?_⟩
    by_cases hvw : v = w
    · subst hvw
      rw [Function.update_self] at heq
      exact absurd heq hne
    · rwa [Function.update_of_ne hvw] at heq
  cases hstep with
  | @take w outBuffer item items hw hworker hitems =>
    have hnil := hkeep w (.insert outBuffer _ _) nofun hreturned
    rw [hitems] at hnil
    cases hnil
  | @node w outBuffer out foreign nodes _ _ _ =>
    exact hkeep w (.insert (outBuffer ++ out) nodes foreign) nofun hreturned
  | @flushOnFull w outBuffer out foreign nodes _ _ _ =>
    exact hkeep w (.insert [] nodes foreign) nofun hreturned
  | @foreign w outBuffer foreign _ _ =>
    exact hkeep w (.loop (outBuffer ++ foreign)) nofun hreturned
  | finish hw hworker hitems => exact hitems

theorem perm_of_run [DecidableEq ν] {entries : List (ValueEntry ν)} {items : List ι}
    (hthreads : 0 < numThreads)
    (hrun : Relation.ReflTransGen (Step itraits outBufferSize numThreads)
      (State.start entries items) s) (hreturned : s.AllReturned numThreads) :
    s.entries.Perm (entries ++ items.flatMap itraits.entries) := by
  have hcount : ∀ e, s.count itraits numThreads e =
      (entries ++ items.flatMap itraits.entries).count e := by
    refine @run_invariant _ _ (fun s => ∀ e, s.count itraits numThreads e =
        (entries ++ items.flatMap itraits.entries).count e) (fun p q hp hstep e => ?_) _ _ hrun
      (State.count_start itraits numThreads entries items)
    rw [hstep.count_eq, hp]
  have hitems : s.items = [] := by
    have hinv : (∃ w < numThreads, s.workers w = .returned) → s.items = [] := by
      refine run_invariant (fun p q hp hstep => hstep.items_eq_nil hp) hrun ?_
      rintro ⟨w, -, hw⟩
      cases hw
    exact hinv ⟨0, hthreads, hreturned 0 hthreads⟩
  rw [List.perm_iff_count]
  intro e
  have hnone : total numThreads (Worker.held e) s.workers = 0 := by
    rw [total_eq_zero_iff]
    intro w hw
    rw [hreturned w hw]
    rfl
  rw [← hcount e, State.count, hnone, hitems]
  rfl

/-! ## The end of a run -/

def Worker.left : Worker ν → Nat
  | .loop _ => 1
  | .insert _ nodes _ => nodes.length + 2
  | .returned => 0

def State.left (itraits : InsertionTraits ι ν) (numThreads : Nat) (s : State ι ν) : Nat :=
  total numThreads Worker.left s.workers +
    (s.items.map fun item => (itraits.nodeEntries item).length + 2).sum

theorem Step.left_lt (hstep : Step itraits outBufferSize numThreads s s') :
    s'.left itraits numThreads < s.left itraits numThreads := by
  cases hstep with
  | @take w outBuffer item items hw hworker hitems =>
    have htotal := total_update Worker.left hw s.workers
      (.insert outBuffer (itraits.nodeEntries item) (itraits.lastEntries item))
    simp only [hworker, Worker.left] at htotal
    simp only [State.left, hitems, List.map_cons, List.sum_cons]
    omega
  | @node w outBuffer out foreign nodes hw hworker _ =>
    have htotal := total_update Worker.left hw s.workers (.insert (outBuffer ++ out) nodes foreign)
    simp only [hworker, Worker.left, List.length_cons] at htotal
    simp only [State.left]
    omega
  | @flushOnFull w outBuffer out foreign nodes hw hworker _ =>
    have htotal := total_update Worker.left hw s.workers (.insert [] nodes foreign)
    simp only [hworker, Worker.left, List.length_cons] at htotal
    simp only [State.left]
    omega
  | @foreign w outBuffer foreign hw hworker =>
    have htotal := total_update Worker.left hw s.workers (.loop (outBuffer ++ foreign))
    simp only [hworker, Worker.left, List.length_nil] at htotal
    simp only [State.left]
    omega
  | @finish w outBuffer hw hworker _ =>
    have htotal := total_update Worker.left hw s.workers .returned
    simp only [hworker, Worker.left] at htotal
    simp only [State.left]
    omega

theorem exists_step (itraits : InsertionTraits ι ν) (outBufferSize : Nat) {w : Nat}
    (hw : w < numThreads) (hworker : s.workers w ≠ .returned) :
    ∃ s', Step itraits outBufferSize numThreads s s' := by
  cases hcase : s.workers w with
  | loop outBuffer =>
    cases hitems : s.items with
    | nil => exact ⟨_, .finish hw hcase hitems⟩
    | cons item items => exact ⟨_, .take hw hcase hitems⟩
  | insert outBuffer nodes foreign =>
    cases nodes with
    | nil => exact ⟨_, .foreign hw hcase⟩
    | cons out nodes =>
      rcases Nat.lt_or_ge outBufferSize (outBuffer ++ out).length with hfull | hroom
      · exact ⟨_, .flushOnFull hw hcase hfull⟩
      · exact ⟨_, .node hw hcase hroom⟩
  | returned => exact absurd hcase hworker

theorem exists_run (itraits : InsertionTraits ι ν) (outBufferSize numThreads : Nat)
    (s : State ι ν) : ∃ s', Relation.ReflTransGen (Step itraits outBufferSize numThreads) s s' ∧
      s'.AllReturned numThreads := by
  induction hleft : s.left itraits numThreads using Nat.strong_induction_on generalizing s with
  | _ n ih =>
    by_cases hall : s.AllReturned numThreads
    · exact ⟨s, .refl, hall⟩
    · obtain ⟨w, hw, hworker⟩ : ∃ w < numThreads, s.workers w ≠ .returned := by
        simpa [State.AllReturned] using hall
      obtain ⟨s', hstep⟩ := exists_step itraits outBufferSize hw hworker
      obtain ⟨s'', hrun, hreturned⟩ := ih _ (hleft ▸ hstep.left_lt) s' rfl
      exact ⟨s'', hrun.head hstep, hreturned⟩

end Insert

/-! ## All calls -/

section Calls

variable [Inhabited ν] {hardwareConcurrency outBufferSize : Nat} {calls : List (Call ι ν)}
  {entries : List (ValueEntry ν)}

def ValidIds (calls : List (Call ι ν)) : Prop :=
  ∀ call ∈ calls, ∀ item ∈ call.items, call.itraits.ValidIds item

omit [Inhabited ν] in
theorem Call.numThreads_pos (h : 0 < hardwareConcurrency) (call : Call ι ν) :
    0 < call.numThreads hardwareConcurrency := by
  unfold Call.numThreads
  split <;> omega

theorem exists_inserted (hardwareConcurrency outBufferSize : Nat) (calls : List (Call ι ν)) :
    ∃ entries, Inserted hardwareConcurrency outBufferSize calls entries := by
  induction calls using List.reverseRecOn with
  | nil => exact ⟨[], .new⟩
  | append_singleton calls call ih =>
    obtain ⟨entries, hbefore⟩ := ih
    obtain ⟨s, hrun, hreturned⟩ := Insert.exists_run call.itraits outBufferSize
      (call.numThreads hardwareConcurrency) (Insert.State.start entries call.items)
    exact ⟨s.entries, hbefore.insert hrun hreturned⟩

theorem Inserted.mem_iff [DecidableEq ν] (hconcurrency : 0 < hardwareConcurrency)
    (h : Inserted hardwareConcurrency outBufferSize calls entries) (e : ValueEntry ν) :
    e ∈ entries ↔ ∃ call ∈ calls, ∃ item ∈ call.items, e ∈ call.itraits.entries item := by
  induction h with
  | new => simp
  | @insert calls entries call s _ hrun hreturned ih =>
    have hperm := Insert.perm_of_run (call.numThreads_pos hconcurrency) hrun hreturned
    rw [hperm.mem_iff, List.mem_append, ih, List.mem_flatMap]
    simp [or_and_right, exists_or]

/-- With ids below the marker, the entries say which cells are matched fully and which items are in
which cells. -/
theorem Inserted.spec [DecidableEq ν] (hconcurrency : 0 < hardwareConcurrency)
    (h : Inserted hardwareConcurrency outBufferSize calls entries) (hids : ValidIds calls) :
    (∀ e ∈ entries, e.itemId ≤ fullMatchId) ∧
    (∀ node cellId, ⟨cellId, fullMatchId, node⟩ ∈ entries ↔ FullMatch calls node cellId) ∧
    ∀ node cellId itemId, itemId ≠ fullMatchId →
      (⟨cellId, itemId, node⟩ ∈ entries ↔ Item calls node cellId itemId) := by
  have hmem : ∀ e, e ∈ entries ↔ ∃ call ∈ calls, ∃ item ∈ call.items,
      e ∈ call.itraits.entries item := h.mem_iff hconcurrency
  have hne : ∀ {id}, id < fullMatchId → id ≠ fullMatchId := Nat.ne_of_lt
  refine ⟨fun e he => ?_, fun node cellId => ?_, fun node cellId itemId hitem => ?_⟩
  · obtain ⟨call, hcall, item, hmemItem, he⟩ := (hmem e).mp he
    have hvalid := hids call hcall item hmemItem
    obtain ⟨-, ⟨-, -, hid⟩ | ⟨hpart, hcell, hid⟩ | ⟨hforeign, hcell, hid⟩⟩ :=
      (InsertionTraits.mem_entries hvalid).mp he
    · exact Nat.le_of_eq hid
    · rw [hid]
      exact Nat.le_of_lt (hvalid.own hpart _ hcell)
    · exact Nat.le_of_lt (hvalid.foreign hforeign _ hcell _ hid)
  · rw [hmem]
    constructor
    · rintro ⟨call, hcall, item, hmemItem, he⟩
      have hvalid := hids call hcall item hmemItem
      obtain ⟨hnode, ⟨hfull, hcell, -⟩ | ⟨hpart, hcell, hid⟩ | ⟨hforeign, hcell, hid⟩⟩ :=
        (InsertionTraits.mem_entries hvalid).mp he
      · exact ⟨call, hcall, item, hmemItem, hnode, hfull, hcell⟩
      · exact absurd hid.symm (hne (hvalid.own hpart _ hcell))
      · exact absurd rfl (hne (hvalid.foreign hforeign _ hcell _ hid))
    · rintro ⟨call, hcall, item, hmemItem, hnode, hfull, hcell⟩
      refine ⟨call, hcall, item, hmemItem, ?_⟩
      rw [InsertionTraits.mem_entries (hids call hcall item hmemItem)]
      exact ⟨hnode, .inl ⟨hfull, hcell, rfl⟩⟩
  · rw [hmem]
    constructor
    · rintro ⟨call, hcall, item, hmemItem, he⟩
      obtain ⟨hnode, ⟨-, -, hid⟩ | hrest⟩ :=
        (InsertionTraits.mem_entries (hids call hcall item hmemItem)).mp he
      · exact absurd hid hitem
      · exact ⟨call, hcall, item, hmemItem, hnode, hrest⟩
    · rintro ⟨call, hcall, item, hmemItem, hnode, hrest⟩
      refine ⟨call, hcall, item, hmemItem, ?_⟩
      rw [InsertionTraits.mem_entries (hids call hcall item hmemItem)]
      exact ⟨hnode, .inr hrest⟩

end Calls

end Sserialize.OOMCTCValuesCreator
