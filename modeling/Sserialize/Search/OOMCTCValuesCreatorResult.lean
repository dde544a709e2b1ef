import Mathlib.Logic.Equiv.List
import Sserialize.Search.OOMCTCValuesCreatorInsertRun
import Sserialize.Search.OOMCTCValuesCreatorPayload

/-!
# From `insert` to the payloads

The payloads say of every node which cells are matched fully and which items are in which cells, in
ascending order. An item whose id is the marker is taken for a full match.
-/

namespace Sserialize.OOMCTCValuesCreator

open MaximalRuns

variable {ι : Type*} {ν : Type}

/-- What `finalize` expects of `oom_sort`: it sorts and leaves one entry of each. -/
structure SortedUnique [LinearOrder ν] (entries result : List (ValueEntry ν)) : Prop where
  mem_iff : ∀ e, e ∈ result ↔ e ∈ entries
  sorted : result.Pairwise LessThan

structure PayloadOf (calls : List (Call ι ν)) (node : ν) (full : List Nat)
    (groups : List (Nat × List Nat)) : Prop where
  fullAscending : full.Pairwise (· < ·)
  mem_full : ∀ cellId, cellId ∈ full ↔ FullMatch calls node cellId
  cellsAscending : (groups.map Prod.fst).Pairwise (· < ·)
  mem_cells : ∀ cellId, cellId ∈ groups.map Prod.fst ↔ ∃ itemId, Item calls node cellId itemId
  itemsAscending : ∀ g ∈ groups, g.2.Pairwise (· < ·)
  mem_items : ∀ g ∈ groups, ∀ itemId, itemId ∈ g.2 ↔ Item calls node g.1 itemId

/-- One payload for each node that got an entry, which is read back as what the items say. -/
structure PayloadsOf (calls : List (Call ι ν)) (decode : Nat → List Nat)
    (payloads : List (ν × Bytes)) : Prop where
  nodup : (payloads.map Prod.fst).Nodup
  mem_nodes : ∀ node, node ∈ payloads.map Prod.fst ↔
    (∃ cellId, FullMatch calls node cellId) ∨ ∃ cellId itemId, Item calls node cellId itemId
  read : ∀ payload ∈ payloads, ∃ full groups,
    readPayload decode payload.2 = .ok (full, groups) ∧ PayloadOf calls payload.1 full groups

theorem item_lt {calls : List (Call ι ν)} (hids : ValidIds calls) {node : ν} {cellId itemId : Nat}
    (h : Item calls node cellId itemId) : itemId < fullMatchId := by
  obtain ⟨call, hcall, item, hitem, -, ⟨hpart, hcell, rfl⟩ | ⟨hforeign, hcell, hmem⟩⟩ := h
  · exact (hids call hcall item hitem).own hpart cellId hcell
  · exact (hids call hcall item hitem).foreign hforeign cellId hcell itemId hmem

theorem Grouped.payloadOf {calls : List (Call ι ν)} {node : ν} {entries : List (ValueEntry ν)}
    {full : List Nat} {groups : List (Nat × List Nat)} (h : Grouped entries full groups)
    (hids : ValidIds calls) (hnode : ∀ e ∈ entries, e.nodeId = node)
    (hfull : ∀ cellId, ⟨cellId, fullMatchId, node⟩ ∈ entries ↔ FullMatch calls node cellId)
    (hitem : ∀ cellId itemId, itemId ≠ fullMatchId →
      (⟨cellId, itemId, node⟩ ∈ entries ↔ Item calls node cellId itemId)) :
    PayloadOf calls node full groups := by
  have hgroup : ∀ cellId itemId, (∃ g ∈ groups, g.1 = cellId ∧ itemId ∈ g.2) ↔
      Item calls node cellId itemId := by
    intro cellId itemId
    rw [h.mem_items]
    constructor
    · rintro ⟨e, he, rfl, rfl, hmark⟩
      rw [← Bool.not_eq_true, ValueEntry.fullMatch_iff] at hmark
      rw [← hitem _ _ hmark, ← hnode e he]
      exact he
    · intro hmem
      have hne := Nat.ne_of_lt (item_lt hids hmem)
      refine ⟨_, (hitem cellId itemId hne).mpr hmem, rfl, rfl, ?_⟩
      rw [← Bool.not_eq_true, ValueEntry.fullMatch_iff]
      exact hne
  have hkeys : (groups.map Prod.fst).Nodup := h.cellsAscending.imp Nat.ne_of_lt
  exact {
    fullAscending := h.fullAscending
    mem_full := by
      intro cellId
      rw [h.mem_full, ← hfull]
      constructor
      · rintro ⟨e, he, rfl, hmark⟩
        rw [← ValueEntry.fullMatch_iff.mp hmark, ← hnode e he]
        exact he
      · exact fun he => ⟨_, he, rfl, ValueEntry.fullMatch_iff.mpr rfl⟩
    cellsAscending := h.cellsAscending
    mem_cells := by
      intro cellId
      rw [List.mem_map]
      constructor
      · rintro ⟨g, hg, rfl⟩
        obtain ⟨itemId, hmem⟩ := List.exists_mem_of_ne_nil _ (h.nonempty g hg)
        exact ⟨itemId, (hgroup g.1 itemId).mp ⟨g, hg, rfl, hmem⟩⟩
      · rintro ⟨itemId, hmem⟩
        obtain ⟨g, hg, heq, -⟩ := (hgroup cellId itemId).mpr hmem
        exact ⟨g, hg, heq⟩
    itemsAscending := h.itemsAscending
    mem_items := by
      intro g hg itemId
      refine ⟨fun hmem => (hgroup g.1 itemId).mp ⟨g, hg, rfl, hmem⟩, fun hmem => ?_⟩
      obtain ⟨g', hg', heq, hmem'⟩ := (hgroup g.1 itemId).mpr hmem
      rwa [← List.inj_on_of_nodup_map hkeys hg' hg heq] }

/-! ## The handled blocks -/

section Handled

variable [LinearOrder ν] {sorted : List (ValueEntry ν)}
  {handled : List (BlockDescription (ValueEntry ν))}

theorem HandledOnce.nodup (h : HandledOnce ValueEntry.nodeId sorted handled)
    (hsorted : sorted.Pairwise LessThan) :
    handled.Pairwise fun block block' =>
      (sorted.map ValueEntry.nodeId)[block.beginPos]? ≠
        (sorted.map ValueEntry.nodeId)[block'.beginPos]? := by
  have hkeys : (sorted.map ValueEntry.nodeId).Pairwise (· ≤ ·) :=
    List.pairwise_map.mpr (hsorted.imp LessThan.nodeId_le)
  have hranges : (handled.map fun block => (block.beginPos, block.endPos)).Nodup := by
    rw [List.nodup_iff_count_le_one]
    rintro ⟨b, e⟩
    rw [List.count, List.countP_map]
    by_cases hrun : Run (sorted.map ValueEntry.nodeId) b e
    · rw [← h.2 b e hrun]
      refine Nat.le_of_eq (List.countP_congr fun block _ => ?_)
      simp
    · rw [List.countP_eq_zero.mpr]
      · exact Nat.zero_le 1
      · intro block hblock heq
        have hrange : block.beginPos = b ∧ block.endPos = e := by simpa using heq
        apply hrun
        rw [← hrange.1, ← hrange.2]
        exact (h.1 block hblock).1
  rw [List.Nodup, List.pairwise_map] at hranges
  refine hranges.imp_of_mem fun {block block'} hblock hblock' hne heq => hne ?_
  have hrun := (h.1 block hblock).1
  have hrun' := (h.1 block' hblock').1
  have hlt : block.beginPos < (sorted.map ValueEntry.nodeId).length :=
    Nat.lt_of_lt_of_le hrun.nonempty hrun.inRange
  obtain ⟨hb, he⟩ := hrun.unique hrun' ⟨Nat.le_refl _, hrun.nonempty⟩
    ((hrun'.eq_iff hkeys hlt).mp heq)
  rw [hb, he]

omit [LinearOrder ν] in
theorem HandledOnce.exists_block (h : HandledOnce ValueEntry.nodeId sorted handled)
    {e : ValueEntry ν} (he : e ∈ sorted) :
    ∃ block ∈ handled, (sorted.map ValueEntry.nodeId)[block.beginPos]? = some e.nodeId := by
  obtain ⟨i, hi⟩ := List.mem_iff_getElem?.mp he
  have hlt : i < (sorted.map ValueEntry.nodeId).length := by
    rw [List.length_map]
    exact (List.getElem?_eq_some_iff.mp hi).1
  obtain ⟨b, e', hrun, hbi, hie⟩ := exists_run hlt
  have hcount : 0 < handled.countP fun block => block.beginPos = b ∧ block.endPos = e' := by
    rw [h.2 b e' hrun]
    exact Nat.one_pos
  obtain ⟨block, hblock, heq⟩ := List.countP_pos_iff.mp hcount
  refine ⟨block, hblock, ?_⟩
  rw [(of_decide_eq_true heq).1, ← hrun.constant i hbi hie, List.getElem?_map, hi]
  rfl

end Handled

theorem payloads_of_forall {ifo : Nat → Nat → List Nat → Nat}
    {P : BlockDescription (ValueEntry ν) → ν × Bytes → Prop} {i : Nat}
    {handled : List (BlockDescription (ValueEntry ν))}
    (h : ∀ k block, handled[k]? = some block →
      ∃ payload, handle (ifo (i + k)) block.data = .ok payload ∧ P block payload) :
    ∃ ps, payloads ifo i handled = .ok ps ∧ List.Forall₂ P handled ps := by
  induction handled generalizing i with
  | nil => exact ⟨[], rfl, List.Forall₂.nil⟩
  | cons block handled ih =>
    obtain ⟨payload, hhandle, hpayload⟩ := h 0 block rfl
    obtain ⟨ps, hps, hall⟩ := @ih (i + 1) fun k block' hk => by
      rw [Nat.add_assoc, Nat.add_comm 1]
      exact h (k + 1) block' hk
    refine ⟨payload :: ps, ?_, List.Forall₂.cons hpayload hall⟩
    rw [Nat.add_zero] at hhandle
    rw [payloads, hhandle, ok_bind, hps]
    rfl

section Result

variable [Inhabited ν] [LinearOrder ν] {hardwareConcurrency outBufferSize : Nat}
  {calls : List (Call ι ν)} {entries sorted : List (ValueEntry ν)}
  {handled : List (BlockDescription (ValueEntry ν))} {ifo : Nat → Nat → List Nat → Nat}
  {decode : Nat → List Nat}

/-- Whatever the threads of `insert` and `append` do, the payloads say for each node that got an
entry which cells are matched fully, and which items are in which cells. -/
theorem payloads_spec (hconcurrency : 0 < hardwareConcurrency)
    (hinserted : Inserted hardwareConcurrency outBufferSize calls entries)
    (hsort : SortedUnique entries sorted)
    (hhandled : HandledOnce ValueEntry.nodeId sorted handled)
    (hfactory : ∀ i n l, l.Pairwise (· < ·) → decode (ifo i n l) = l) (hids : ValidIds calls)
    (henc : ∀ i block, handled[i]? = some block →
      RLEStream.Encodable (indexIds (ifo i) block.data)) :
    ∃ ps, payloads ifo 0 handled = .ok ps ∧ PayloadsOf calls decode ps := by
  obtain ⟨hle, hfull, hitem⟩ := hinserted.spec hconcurrency hids
  have hblocks : ∀ k block, handled[k]? = some block →
      ∃ payload, handle (ifo (0 + k)) block.data = .ok payload ∧
        (sorted.map ValueEntry.nodeId)[block.beginPos]? = some payload.1 ∧
        (∃ e ∈ entries, e.nodeId = payload.1) ∧
        ∃ full groups, readPayload decode payload.2 = .ok (full, groups) ∧
          PayloadOf calls payload.1 full groups := by
    intro k block hk
    have hblock := hhandled.1 block (List.mem_of_getElem? hk)
    obtain ⟨first, rest, hdata, hnode⟩ := hblock.exists_cons
    have hmem := hblock.mem_iff hsort.sorted hnode
    have hinOrder : InOrder (first :: rest) := by
      rw [← hdata]
      refine ⟨?_, fun e he => hle e ((hsort.mem_iff e).mp ((hmem e).mp he).1)⟩
      rw [hblock.2]
      have hsub := (List.take_sublist (block.endPos - block.beginPos) _).trans
        (List.drop_sublist block.beginPos sorted)
      refine (hsort.sorted.sublist hsub).imp_of_mem fun {a b} ha hb hab => hab.cellLess ?_
      rw [← hblock.2] at ha hb
      rw [((hmem a).mp ha).2, ((hmem b).mp hb).2]
    have hfirst : first ∈ entries := by
      rw [← hsort.mem_iff]
      exact ((hmem first).mp (by rw [hdata]; exact List.mem_cons_self)).1
    obtain ⟨bytes, full, groups, hhandle, hgrouped, hread⟩ := handle_spec hinOrder (hfactory k)
      (by rw [← hdata]; exact henc k block hk)
    refine ⟨(first.nodeId, bytes), ?_, hnode, ⟨first, hfirst, rfl⟩, full, groups, hread, ?_⟩
    · rw [Nat.zero_add, hdata]
      exact hhandle
    · rw [← hdata] at hgrouped
      refine hgrouped.payloadOf hids (fun e he => ((hmem e).mp he).2) (fun cellId => ?_)
        (fun cellId itemId hne => ?_)
      · rw [hmem, hsort.mem_iff, ← hfull]
        exact and_iff_left rfl
      · rw [hmem, hsort.mem_iff, ← hitem _ _ _ hne]
        exact and_iff_left rfl
  obtain ⟨ps, hps, hall⟩ := payloads_of_forall hblocks
  have hnodes : (handled.map fun block => (sorted.map ValueEntry.nodeId)[block.beginPos]?) =
      ps.map fun payload => some payload.1 := by
    rw [← List.forall₂_eq_eq_eq, List.forall₂_map_left_iff, List.forall₂_map_right_iff]
    exact hall.imp fun _ _ hpayload => hpayload.1
  have hread : ∀ payload ∈ ps, (∃ e ∈ entries, e.nodeId = payload.1) ∧
      ∃ full groups, readPayload decode payload.2 = .ok (full, groups) ∧
        PayloadOf calls payload.1 full groups := by
    have hflip : List.Forall₂ (fun (payload : ν × Bytes) _ => ((∃ e ∈ entries,
        e.nodeId = payload.1) ∧ ∃ full groups, readPayload decode payload.2 = .ok (full, groups) ∧
          PayloadOf calls payload.1 full groups) ∧ True) ps handled :=
      List.Forall₂.flip (hall.imp fun _ _ hpayload => ⟨hpayload.2, trivial⟩)
    exact ((List.forall₂_and_left _ _).mp hflip).1
  refine ⟨ps, hps, ?_, fun node => ?_, fun payload hpayload => (hread payload hpayload).2⟩
  · have hdistinct := hhandled.nodup hsort.sorted
    rw [← List.pairwise_map (R := (· ≠ ·)), hnodes, List.pairwise_map] at hdistinct
    rw [List.Nodup, List.pairwise_map]
    exact hdistinct.imp fun hne heq => hne (congrArg some heq)
  · constructor
    · intro hnode
      obtain ⟨payload, hpayload, rfl⟩ := List.mem_map.mp hnode
      obtain ⟨e, he, heq⟩ := (hread payload hpayload).1
      rw [← heq]
      by_cases hmark : e.itemId = fullMatchId
      · refine .inl ⟨e.cellId, (hfull _ _).mp ?_⟩
        rw [← hmark]
        exact he
      · exact .inr ⟨e.cellId, e.itemId, (hitem _ _ _ hmark).mp he⟩
    · intro hentry
      have hmem : ∃ e ∈ sorted, e.nodeId = node := by
        rcases hentry with ⟨cellId, hmatch⟩ | ⟨cellId, itemId, hmatch⟩
        · exact ⟨_, (hsort.mem_iff _).mpr ((hfull node cellId).mpr hmatch), rfl⟩
        · have hne := Nat.ne_of_lt (item_lt hids hmatch)
          exact ⟨_, (hsort.mem_iff _).mpr ((hitem node cellId itemId hne).mpr hmatch), rfl⟩
      obtain ⟨e, he, rfl⟩ := hmem
      obtain ⟨block, hblock, hkey⟩ := hhandled.exists_block he
      have hsome : some e.nodeId ∈ ps.map fun payload => some payload.1 := by
        rw [← hnodes, ← hkey]
        exact List.mem_map_of_mem hblock
      obtain ⟨payload, hpayload, heq⟩ := List.mem_map.mp hsome
      rw [← Option.some.inj heq]
      exact List.mem_map_of_mem hpayload

end Result

/-! ## Runs -/

def numbered (_block _index : Nat) (l : List Nat) : Nat := Encodable.encode l

def ofNumber (n : Nat) : List Nat := (Encodable.decode n).getD []

theorem ofNumber_numbered (block index : Nat) (l : List Nat) :
    ofNumber (numbered block index l) = l := by
  rw [ofNumber, numbered, Encodable.encodek]
  rfl

/-- An item in a cell with another one in it, and a full match at two nodes. -/
def twoItems : Call Nat Nat where
  itraits := {
    fullMatchPredicate := fun item => item == 6
    foreignObjectsPredicate := fun item => item == 5
    hasCellLocalIds := false
    itemId := fun item => item
    localItemId := fun _ _ => 0
    itemCells := fun item => [item - 5]
    foreignCells := fun _ => [0]
    foreignItems := fun _ _ => [7]
    itemTextSearchNodes := fun item => if item = 6 then [0, 1] else [0] }
  items := [5, 6]
  threadCount := 1

def twoItemsSorted : List (ValueEntry Nat) :=
  [⟨0, 5, 0⟩, ⟨0, 7, 0⟩, ⟨1, fullMatchId, 0⟩, ⟨1, fullMatchId, 1⟩]

def twoItemsBlocks : List (BlockDescription (ValueEntry Nat)) :=
  [⟨0, 3, twoItemsSorted.take 3⟩, ⟨3, 4, twoItemsSorted.drop 3⟩]

theorem twoItems_sorted {entries : List (ValueEntry Nat)} (h : Inserted 1 0 [twoItems] entries) :
    SortedUnique entries twoItemsSorted where
  mem_iff := by
    intro e
    have hfirst : twoItems.itraits.entries 5 = [⟨0, 5, 0⟩, ⟨0, 7, 0⟩] := rfl
    have hsecond : twoItems.itraits.entries 6 = [⟨1, fullMatchId, 0⟩, ⟨1, fullMatchId, 1⟩] := rfl
    have hitems : twoItems.items = [5, 6] := rfl
    rw [h.mem_iff Nat.one_pos]
    simp [hitems, hfirst, hsecond, twoItemsSorted, or_assoc]
  sorted := by simp [twoItemsSorted, LessThan]

theorem twoItems_handledOnce :
    HandledOnce ValueEntry.nodeId twoItemsSorted twoItemsBlocks := by
  have hfirst : Run (twoItemsSorted.map ValueEntry.nodeId) 0 3 := by
    refine ⟨by decide, by decide, ?_, .inl rfl, .inr (by decide)⟩
    intro i _ hi
    obtain rfl | rfl | rfl : i = 0 ∨ i = 1 ∨ i = 2 := by omega
    all_goals rfl
  have hsecond : Run (twoItemsSorted.map ValueEntry.nodeId) 3 4 :=
    ⟨by decide, by decide, constant_singleton 3, .inr (by decide), .inr (by decide)⟩
  constructor
  · intro block hblock
    simp only [twoItemsBlocks, List.mem_cons, List.not_mem_nil, or_false] at hblock
    rcases hblock with rfl | rfl
    · exact ⟨hfirst, rfl⟩
    · exact ⟨hsecond, rfl⟩
  · intro b e hrun
    have hnonempty := hrun.nonempty
    have hrange : e ≤ 4 := hrun.inRange
    by_cases hb : b < 3
    · obtain ⟨rfl, rfl⟩ := hfirst.unique hrun ⟨Nat.zero_le b, hb⟩ ⟨Nat.le_refl b, hnonempty⟩
      rfl
    · obtain ⟨rfl, rfl⟩ := hsecond.unique hrun ⟨Nat.not_lt.mp hb, by omega⟩
        ⟨Nat.le_refl b, hnonempty⟩
      rfl

theorem twoItems_indexIds : ∀ block ∈ twoItemsBlocks, ∀ i,
    indexIds (numbered i) block.data = [3, 1, 3255] ∨
      indexIds (numbered i) block.data = [3, 0] := by
  simp [twoItemsBlocks, twoItemsSorted, indexIds, handleCells, handleCell, behindCell, isPartial,
    isFull, ValueEntry.fullMatch, SingleEntryState.new, numbered, fullMatchId, Nat.pair]

theorem payloads_spec_twoItems : ∃ entries, Inserted 1 0 [twoItems] entries ∧
    ∃ ps, payloads numbered 0 twoItemsBlocks = .ok ps ∧ PayloadsOf [twoItems] ofNumber ps := by
  obtain ⟨entries, hinserted⟩ := exists_inserted 1 0 [twoItems]
  have hids : ValidIds [twoItems] := by
    intro call hcall item hitem
    obtain rfl := List.mem_singleton.mp hcall
    refine ⟨fun _ _ _ => ?_, fun _ _ _ itemId hid => ?_⟩
    · obtain rfl | rfl : item = 5 ∨ item = 6 := by simpa [twoItems] using hitem
      · exact show 5 < fullMatchId by decide
      · exact show 6 < fullMatchId by decide
    · obtain rfl := List.mem_singleton.mp hid
      decide
  refine ⟨entries, hinserted, payloads_spec Nat.one_pos hinserted (twoItems_sorted hinserted)
    twoItems_handledOnce (fun i n l _ => ofNumber_numbered i n l) hids fun i block hblock => ?_⟩
  obtain heq | heq := twoItems_indexIds block (List.mem_of_getElem? hblock) i
  all_goals
    rw [heq]
    exact RLEStream.encodable_of_lt (by decide) (by decide)

def oneItem (itemId : Nat) : Call Unit Nat where
  itraits := {
    fullMatchPredicate := fun _ => false
    foreignObjectsPredicate := fun _ => false
    hasCellLocalIds := false
    itemId := fun _ => itemId
    localItemId := fun _ _ => 0
    itemCells := fun _ => [0]
    foreignCells := fun _ => []
    foreignItems := fun _ _ => []
    itemTextSearchNodes := fun _ => [0] }
  items := [()]
  threadCount := 1

def oneBlock (itemId : Nat) : BlockDescription (ValueEntry Nat) := ⟨0, 1, [⟨0, itemId, 0⟩]⟩

theorem oneBlock_sorted {itemId : Nat} {entries : List (ValueEntry Nat)}
    (h : Inserted 1 0 [oneItem itemId] entries) : SortedUnique entries (oneBlock itemId).data where
  mem_iff := by
    intro e
    rw [h.mem_iff Nat.one_pos]
    constructor
    · exact fun he => ⟨oneItem itemId, List.mem_cons_self, (), List.mem_cons_self, he⟩
    · rintro ⟨call, hcall, item, -, he⟩
      rw [List.mem_singleton.mp hcall] at he
      exact he
  sorted := List.pairwise_singleton _ _

theorem oneBlock_handledOnce (itemId : Nat) :
    HandledOnce ValueEntry.nodeId (oneBlock itemId).data [oneBlock itemId] := by
  constructor
  · intro block hblock
    rw [List.mem_singleton.mp hblock]
    exact ⟨⟨Nat.one_pos, Nat.le_refl 1, constant_singleton 0, .inl rfl, .inr nofun⟩, rfl⟩
  · intro b e hrun
    have hnonempty := hrun.nonempty
    have hrange : e ≤ 1 := hrun.inRange
    obtain rfl : e = 1 := by omega
    obtain rfl : b = 0 := by omega
    rfl

theorem oneBlock_indexIds : indexIds (numbered 0) (oneBlock fullMatchId).data = [1, 0] := by
  simp [indexIds, oneBlock, handleCells, handleCell, behindCell, isPartial, isFull,
    ValueEntry.fullMatch, SingleEntryState.new, numbered, Nat.pair]

theorem oneItem_marker : ∃ entries, Inserted 1 0 [oneItem fullMatchId] entries ∧
    SortedUnique entries (oneBlock fullMatchId).data ∧
    HandledOnce ValueEntry.nodeId (oneBlock fullMatchId).data [oneBlock fullMatchId] ∧
    ∃ ps, payloads numbered 0 [oneBlock fullMatchId] = .ok ps ∧
      ¬ PayloadsOf [oneItem fullMatchId] ofNumber ps := by
  obtain ⟨entries, hinserted⟩ := exists_inserted 1 0 [oneItem fullMatchId]
  refine ⟨entries, hinserted, oneBlock_sorted hinserted, oneBlock_handledOnce fullMatchId, ?_⟩
  have hinOrder : InOrder (oneBlock fullMatchId).data :=
    ⟨List.pairwise_singleton _ _, by simp [oneBlock]⟩
  have henc : RLEStream.Encodable (indexIds (numbered 0) (oneBlock fullMatchId).data) := by
    rw [oneBlock_indexIds]
    exact RLEStream.encodable_of_lt (by decide) (by decide)
  obtain ⟨bytes, full, groups, hhandle, hgrouped, hread⟩ := handle_spec hinOrder
    (fun n l _ => ofNumber_numbered 0 n l) henc
  refine ⟨[(0, bytes)], ?_, fun hall => ?_⟩
  · change (do
      let payload ← handle (numbered 0) [⟨0, fullMatchId, 0⟩]
      let rest ← payloads numbered 1 []
      return payload :: rest) = _
    rw [hhandle]
    rfl
  · obtain ⟨full', groups', hread', hpayload⟩ := hall.read (0, bytes) List.mem_cons_self
    rw [hread] at hread'
    have hfull : full = full' := congrArg Prod.fst (Except.ok.inj hread')
    have hmem : 0 ∈ full := (hgrouped.mem_full 0).mpr ⟨_, List.mem_cons_self, rfl, rfl⟩
    rw [hfull] at hmem
    obtain ⟨call, hcall, item, -, -, hmatch, -⟩ := (hpayload.mem_full 0).mp hmem
    rw [List.mem_singleton.mp hcall] at hmatch
    cases hmatch

/-- Ids from `2 ^ 31` on: the first of them does not fit a difference. -/
def farNumbered (block index : Nat) (l : List Nat) : Nat := numbered block index l + 2 ^ 31

def ofFarNumber (n : Nat) : List Nat := ofNumber (n - 2 ^ 31)

theorem ofFarNumber_farNumbered (block index : Nat) (l : List Nat) :
    ofFarNumber (farNumbered block index l) = l := by
  rw [ofFarNumber, farNumbered, Nat.add_sub_cancel, ofNumber_numbered]

theorem oneItem_far : payloads farNumbered 0 [oneBlock 5] = .error .typeOverflow := by
  change (do
    let payload ← handle (farNumbered 0) [⟨0, 5, 0⟩]
    let rest ← payloads farNumbered 1 []
    return payload :: rest) = _
  have hfar : ∀ n l, RLEStream.Creator.new.put (farNumbered 0 n l) = .error .typeOverflow :=
    fun n l => RLEStream.Creator.new_put_error (Nat.le_add_left _ _)
  rw [handle, indexIds, RLEStream.Creator.putAll, hfar]
  rfl

/-- The two limits by design: the marker, and a difference of index ids that is no `int32_t`. -/
theorem payloads_limits :
    (∃ entries, Inserted 1 0 [oneItem fullMatchId] entries ∧
      SortedUnique entries (oneBlock fullMatchId).data ∧
      HandledOnce ValueEntry.nodeId (oneBlock fullMatchId).data [oneBlock fullMatchId] ∧
      (∀ i n l, ofNumber (numbered i n l) = l) ∧
      ∃ ps, payloads numbered 0 [oneBlock fullMatchId] = .ok ps ∧
        ¬ PayloadsOf [oneItem fullMatchId] ofNumber ps) ∧
    ∃ entries, Inserted 1 0 [oneItem 5] entries ∧
      SortedUnique entries (oneBlock 5).data ∧
      HandledOnce ValueEntry.nodeId (oneBlock 5).data [oneBlock 5] ∧
      (∀ i n l, ofFarNumber (farNumbered i n l) = l) ∧
      payloads farNumbered 0 [oneBlock 5] = .error .typeOverflow := by
  constructor
  · obtain ⟨entries, hinserted, hsort, hhandled, hps⟩ := oneItem_marker
    exact ⟨entries, hinserted, hsort, hhandled, ofNumber_numbered, hps⟩
  · obtain ⟨entries, hinserted⟩ := exists_inserted 1 0 [oneItem 5]
    exact ⟨entries, hinserted, oneBlock_sorted hinserted, oneBlock_handledOnce 5,
      ofFarNumber_farNumbered, oneItem_far⟩

end Sserialize.OOMCTCValuesCreator
