import Sserialize.Containers.RLEStream
import Sserialize.Library.MaximalRuns
import Sserialize.Library.WorkerPool

/-!
# The threads of `OOMCTCValuesCreator::append`

The feeder cuts the sorted entries into blocks of equal nodes and pushes them to a queue of bounded
length; the workers take them from there. `ePos` is written by the feeder and read by the workers,
and it is not guarded by the lock of the queue: the feeder fills a block without the lock.
-/

namespace Sserialize.OOMCTCValuesCreator

open MaximalRuns WorkerPool
open Function (update)

variable {ε ν : Type*}

structure BlockDescription (ε : Type*) where
  beginPos : Nat
  endPos : Nat
  data : List ε
  deriving Repr, DecidableEq

/-- Where the feeder is. -/
inductive Feeder (ε ν : Type*) where
  | loop
  | lockEnd
  | lockQueue
  | waiting
  | woken
  | fill (ni : ν) (block : BlockDescription ε)
  | lockPush (block : BlockDescription ε)
  | notifyOne
  | returned
  deriving Repr, DecidableEq

/-- Where a worker is. It holds the lock from `foundEmpty` to `wait`. -/
inductive Worker (ε : Type*) where
  | loop
  | foundEmpty
  | notify
  | wait
  | waiting
  | woken
  | handle (bd : BlockDescription ε)
  | returned
  deriving Repr, DecidableEq

/-- `State` with its threads. `wqLock` is the worker that holds the lock from one step to the next,
and `handled` are the blocks that went through `handle`. -/
structure State (ε ν : Type*) where
  ePos : Nat
  wq : List (BlockDescription ε)
  wqLock : Option Nat
  feeder : Feeder ε ν
  workers : Nat → Worker ε
  handled : List (BlockDescription ε)

def State.start : State ε ν := ⟨0, [], none, .loop, fun _ => .loop, []⟩

def queueFill (numThreads : Nat) : Nat := max (numThreads + 2) (3 * numThreads / 2)

def notifyAll (workers : Nat → Worker ε) : Nat → Worker ε := fun w =>
  match workers w with
  | .waiting => .woken
  | worker => worker

def notifyFeeder : Feeder ε ν → Feeder ε ν
  | .waiting => .woken
  | feeder => feeder

/-- A step of one of the threads. What stands between a lock and its unlock is one step, except for
a worker that finds the queue empty. A wait may also end on its own. -/
inductive Step (nodeId : ε → ν) (entries : List ε) (numThreads : Nat) :
    State ε ν → State ε ν → Prop where
  | feederMore {s : State ε ν} (hfeeder : s.feeder = .loop) (hmore : s.ePos < entries.length) :
      Step nodeId entries numThreads s { s with feeder := .lockQueue }
  | feederDone {s : State ε ν} (hfeeder : s.feeder = .loop) (hdone : entries.length ≤ s.ePos) :
      Step nodeId entries numThreads s { s with feeder := .lockEnd }
  | feederReturn {s : State ε ν} (hfeeder : s.feeder = .lockEnd) (hlock : s.wqLock = none) :
      Step nodeId entries numThreads s
        { s with feeder := .returned, workers := notifyAll s.workers }
  | feederWait {s : State ε ν} (hfeeder : s.feeder = .lockQueue) (hlock : s.wqLock = none)
      (hfilled : queueFill numThreads ≤ s.wq.length) :
      Step nodeId entries numThreads s { s with feeder := .waiting }
  | feederSpurious {s : State ε ν} (hfeeder : s.feeder = .waiting) :
      Step nodeId entries numThreads s { s with feeder := .woken }
  | feederWoken {s : State ε ν} (hfeeder : s.feeder = .woken) (hlock : s.wqLock = none) :
      Step nodeId entries numThreads s { s with feeder := .loop }
  | feederBegin {s : State ε ν} {e : ε} (hfeeder : s.feeder = .lockQueue)
      (hlock : s.wqLock = none) (hfilled : s.wq.length < queueFill numThreads)
      (he : entries[s.ePos]? = some e) :
      Step nodeId entries numThreads s { s with feeder := .fill (nodeId e) ⟨s.ePos, 0, []⟩ }
  | feederFill {s : State ε ν} {e : ε} {block : BlockDescription ε}
      (hfeeder : s.feeder = .fill (nodeId e) block) (he : entries[s.ePos]? = some e) :
      Step nodeId entries numThreads s { s with
        ePos := s.ePos + 1
        feeder := .fill (nodeId e) { block with data := block.data ++ [e] } }
  | feederFilled {s : State ε ν} {ni : ν} {block : BlockDescription ε}
      (hfeeder : s.feeder = .fill ni block)
      (hend : ∀ e, entries[s.ePos]? = some e → nodeId e ≠ ni) :
      Step nodeId entries numThreads s
        { s with feeder := .lockPush { block with endPos := s.ePos } }
  | feederPush {s : State ε ν} {block : BlockDescription ε} (hfeeder : s.feeder = .lockPush block)
      (hlock : s.wqLock = none) :
      Step nodeId entries numThreads s { s with wq := s.wq ++ [block], feeder := .notifyOne }
  | feederNotify {s : State ε ν} {w : Nat} (hfeeder : s.feeder = .notifyOne) (hw : w < numThreads)
      (hworker : s.workers w = .waiting) :
      Step nodeId entries numThreads s
        { s with feeder := .loop, workers := update s.workers w .woken }
  | feederNotifyNone {s : State ε ν} (hfeeder : s.feeder = .notifyOne)
      (hnone : ∀ w < numThreads, s.workers w ≠ .waiting) :
      Step nodeId entries numThreads s { s with feeder := .loop }
  | workerTake {s : State ε ν} {w : Nat} {bd : BlockDescription ε} {wq : List (BlockDescription ε)}
      (hw : w < numThreads) (hworker : s.workers w = .loop) (hlock : s.wqLock = none)
      (hwq : s.wq = bd :: wq) :
      Step nodeId entries numThreads s
        { s with wq, workers := update s.workers w (.handle bd) }
  | workerHandle {s : State ε ν} {w : Nat} {bd : BlockDescription ε} (hw : w < numThreads)
      (hworker : s.workers w = .handle bd) :
      Step nodeId entries numThreads s { s with
        workers := update s.workers w .loop
        handled := s.handled ++ [bd] }
  | workerEmpty {s : State ε ν} {w : Nat} (hw : w < numThreads) (hworker : s.workers w = .loop)
      (hlock : s.wqLock = none) (hwq : s.wq = []) :
      Step nodeId entries numThreads s
        { s with wqLock := some w, workers := update s.workers w .foundEmpty }
  | workerMore {s : State ε ν} {w : Nat} (hw : w < numThreads) (hworker : s.workers w = .foundEmpty)
      (hmore : s.ePos < entries.length) :
      Step nodeId entries numThreads s
        { s with workers := update s.workers w .notify }
  | workerReturn {s : State ε ν} {w : Nat} (hw : w < numThreads)
      (hworker : s.workers w = .foundEmpty) (hdone : entries.length ≤ s.ePos) :
      Step nodeId entries numThreads s
        { s with wqLock := none, workers := update s.workers w .returned }
  | workerNotify {s : State ε ν} {w : Nat} (hw : w < numThreads) (hworker : s.workers w = .notify) :
      Step nodeId entries numThreads s { s with
        feeder := notifyFeeder s.feeder
        workers := update s.workers w .wait }
  | workerWait {s : State ε ν} {w : Nat} (hw : w < numThreads) (hworker : s.workers w = .wait) :
      Step nodeId entries numThreads s
        { s with wqLock := none, workers := update s.workers w .waiting }
  | workerSpurious {s : State ε ν} {w : Nat} (hw : w < numThreads)
      (hworker : s.workers w = .waiting) :
      Step nodeId entries numThreads s
        { s with workers := update s.workers w .woken }
  | workerWoken {s : State ε ν} {w : Nat} (hw : w < numThreads) (hworker : s.workers w = .woken)
      (hlock : s.wqLock = none) :
      Step nodeId entries numThreads s
        { s with workers := update s.workers w .loop }

/-! ## What is expected -/

def State.WorkersReturned (numThreads : Nat) (s : State ε ν) : Prop :=
  ∀ w < numThreads, s.workers w = .returned

def State.AllReturned (numThreads : Nat) (s : State ε ν) : Prop :=
  s.feeder = .returned ∧ s.WorkersReturned numThreads

def State.AllWaiting (numThreads : Nat) (s : State ε ν) : Prop :=
  (s.feeder = .waiting ∨ s.feeder = .returned) ∧
  (∀ w < numThreads, s.workers w = .waiting ∨ s.workers w = .returned) ∧
  ¬ s.AllReturned numThreads

def IsBlock (nodeId : ε → ν) (entries : List ε) (block : BlockDescription ε) : Prop :=
  Run (entries.map nodeId) block.beginPos block.endPos ∧
    block.data = (entries.drop block.beginPos).take (block.endPos - block.beginPos)

def HandledOnce (nodeId : ε → ν) (entries : List ε) (handled : List (BlockDescription ε)) : Prop :=
  (∀ block ∈ handled, IsBlock nodeId entries block) ∧
  ∀ b e, Run (entries.map nodeId) b e →
    handled.countP (fun block => block.beginPos = b ∧ block.endPos = e) = 1

def Feeder.Holds : Feeder ε ν → Prop
  | .fill _ _ => True
  | .lockPush _ => True
  | _ => False

def Strands (numThreads : Nat) (s s' : State ε ν) : Prop :=
  ¬ s.WorkersReturned numThreads ∧ s'.WorkersReturned numThreads ∧ s.feeder.Holds

end Sserialize.OOMCTCValuesCreator

/-!
## `OOMCTCValuesCreator::insert`

The entries that an item leaves, and the threads that take items and flush their buffers. Node,
cell and item are one entry; the largest item id marks a cell that is fully matched.
-/

namespace Sserialize.OOMCTCValuesCreator

open WorkerPool
open Function (update)

variable {ι ν : Type*}

structure ValueEntry (ν : Type*) where
  cellId : Nat
  itemId : Nat
  nodeId : ν
  deriving Repr, DecidableEq

def fullMatchId : Nat := 2 ^ 32 - 1

def ValueEntry.setFullMatch (e : ValueEntry ν) : ValueEntry ν := { e with itemId := fullMatchId }

def ValueEntry.fullMatch (e : ValueEntry ν) : Bool := e.itemId == fullMatchId

/-- `localItemId` is the item id extractor with a cell, for traits with cell local ids. -/
structure InsertionTraits (ι ν : Type*) where
  fullMatchPredicate : ι → Bool
  foreignObjectsPredicate : ι → Bool
  hasCellLocalIds : Bool
  itemId : ι → Nat
  localItemId : ι → Nat → Nat
  itemCells : ι → List Nat
  foreignCells : ι → List Nat
  foreignItems : ι → Nat → List Nat
  itemTextSearchNodes : ι → List ν

namespace InsertionTraits

variable (itraits : InsertionTraits ι ν)

/-! ## One item -/

/-- `e` in front of the loop over the nodes. -/
def firstEntry [Inhabited ν] (item : ι) : ValueEntry ν :=
  let e : ValueEntry ν := ⟨0, 0, default⟩
  if itraits.fullMatchPredicate item then e.setFullMatch
  else if !itraits.hasCellLocalIds then { e with itemId := itraits.itemId item }
  else e

def setCell (item : ι) (e : ValueEntry ν) (cellId : Nat) : ValueEntry ν :=
  let e := { e with cellId }
  if itraits.hasCellLocalIds && !e.fullMatch then
    { e with itemId := itraits.localItemId item cellId }
  else e

/-- The loop over the cells: `e` behind it, and what it pushes. -/
def insertCells (item : ι) : ValueEntry ν → List Nat → ValueEntry ν × List (ValueEntry ν)
  | e, [] => (e, [])
  | e, cellId :: cells =>
    let e := itraits.setCell item e cellId
    let (last, out) := insertCells item e cells
    (last, e :: out)

def insertNodes (item : ι) : ValueEntry ν → List ν → List (List (ValueEntry ν))
  | _, [] => []
  | e, node :: nodes =>
    let (e, out) := itraits.insertCells item { e with nodeId := node } (itraits.itemCells item)
    out :: insertNodes item e nodes

/-- The loops over the foreign cells, their items and the nodes; they set all of `e`. -/
def foreignEntries (item : ι) : List (ValueEntry ν) :=
  (itraits.foreignCells item).flatMap fun cellId =>
    (itraits.foreignItems item cellId).flatMap fun itemId =>
      (itraits.itemTextSearchNodes item).map fun nodeId => ⟨cellId, itemId, nodeId⟩

def nodeEntries [Inhabited ν] (item : ι) : List (List (ValueEntry ν)) :=
  itraits.insertNodes item (itraits.firstEntry item) (itraits.itemTextSearchNodes item)

def lastEntries (item : ι) : List (ValueEntry ν) :=
  if itraits.foreignObjectsPredicate item then itraits.foreignEntries item else []

def entries [Inhabited ν] (item : ι) : List (ValueEntry ν) :=
  (itraits.nodeEntries item).flatten ++ itraits.lastEntries item

end InsertionTraits

/-! ## The threads -/

namespace Insert

/-- Where a worker is, with its `outBuffer`: between two items, or in one of which the entries of
some nodes and the foreign ones are still to be pushed. -/
inductive Worker (ν : Type*) where
  | loop (outBuffer : List (ValueEntry ν))
  | insert (outBuffer : List (ValueEntry ν)) (nodes : List (List (ValueEntry ν)))
      (foreign : List (ValueEntry ν))
  | returned
  deriving Repr, DecidableEq

structure State (ι ν : Type*) where
  items : List ι
  entries : List (ValueEntry ν)
  workers : Nat → Worker ν

def State.start (entries : List (ValueEntry ν)) (items : List ι) : State ι ν :=
  ⟨items, entries, fun _ => .loop []⟩

/-- What a worker does on its own and then under one of the two locks is one step. -/
inductive Step [Inhabited ν] (itraits : InsertionTraits ι ν) (outBufferSize numThreads : Nat) :
    State ι ν → State ι ν → Prop where
  | take {s : State ι ν} {w : Nat} {outBuffer : List (ValueEntry ν)} {item : ι} {items : List ι}
      (hw : w < numThreads) (hworker : s.workers w = .loop outBuffer)
      (hitems : s.items = item :: items) :
      Step itraits outBufferSize numThreads s { s with
        items
        workers := update s.workers w
          (.insert outBuffer (itraits.nodeEntries item) (itraits.lastEntries item)) }
  | node {s : State ι ν} {w : Nat} {outBuffer out foreign : List (ValueEntry ν)}
      {nodes : List (List (ValueEntry ν))} (hw : w < numThreads)
      (hworker : s.workers w = .insert outBuffer (out :: nodes) foreign)
      (hroom : (outBuffer ++ out).length ≤ outBufferSize) :
      Step itraits outBufferSize numThreads s { s with
        workers := update s.workers w (.insert (outBuffer ++ out) nodes foreign) }
  | flushOnFull {s : State ι ν} {w : Nat} {outBuffer out foreign : List (ValueEntry ν)}
      {nodes : List (List (ValueEntry ν))} (hw : w < numThreads)
      (hworker : s.workers w = .insert outBuffer (out :: nodes) foreign)
      (hfull : outBufferSize < (outBuffer ++ out).length) :
      Step itraits outBufferSize numThreads s { s with
        entries := s.entries ++ (outBuffer ++ out)
        workers := update s.workers w (.insert [] nodes foreign) }
  | foreign {s : State ι ν} {w : Nat} {outBuffer foreign : List (ValueEntry ν)}
      (hw : w < numThreads) (hworker : s.workers w = .insert outBuffer [] foreign) :
      Step itraits outBufferSize numThreads s { s with
        workers := update s.workers w (.loop (outBuffer ++ foreign)) }
  | finish {s : State ι ν} {w : Nat} {outBuffer : List (ValueEntry ν)} (hw : w < numThreads)
      (hworker : s.workers w = .loop outBuffer) (hitems : s.items = []) :
      Step itraits outBufferSize numThreads s { s with
        entries := s.entries ++ outBuffer
        workers := update s.workers w .returned }

def State.AllReturned (numThreads : Nat) (s : State ι ν) : Prop :=
  ∀ w < numThreads, s.workers w = .returned

end Insert

structure Call (ι ν : Type*) where
  itraits : InsertionTraits ι ν
  items : List ι
  threadCount : Nat

def Call.numThreads (hardwareConcurrency : Nat) (call : Call ι ν) : Nat :=
  if call.threadCount = 0 then hardwareConcurrency else call.threadCount

/-- `m_entries` behind calls of `insert`, one after the other. -/
inductive Inserted [Inhabited ν] (hardwareConcurrency outBufferSize : Nat) :
    List (Call ι ν) → List (ValueEntry ν) → Prop where
  | new : Inserted hardwareConcurrency outBufferSize [] []
  | insert {calls : List (Call ι ν)} {entries : List (ValueEntry ν)} {call : Call ι ν}
      {s : Insert.State ι ν} (hbefore : Inserted hardwareConcurrency outBufferSize calls entries)
      (hrun : Relation.ReflTransGen
        (Insert.Step call.itraits outBufferSize (call.numThreads hardwareConcurrency))
        (Insert.State.start entries call.items) s)
      (hreturned : s.AllReturned (call.numThreads hardwareConcurrency)) :
      Inserted hardwareConcurrency outBufferSize (calls ++ [call]) s.entries

/-! ## What is expected -/

def InsertionTraits.idIn (itraits : InsertionTraits ι ν) (item : ι) (cellId : Nat) : Nat :=
  if itraits.hasCellLocalIds then itraits.localItemId item cellId else itraits.itemId item

def Call.FullMatch (call : Call ι ν) (node : ν) (cellId : Nat) : Prop :=
  ∃ item ∈ call.items, node ∈ call.itraits.itemTextSearchNodes item ∧
    call.itraits.fullMatchPredicate item = true ∧ cellId ∈ call.itraits.itemCells item

def Call.Item (call : Call ι ν) (node : ν) (cellId itemId : Nat) : Prop :=
  ∃ item ∈ call.items, node ∈ call.itraits.itemTextSearchNodes item ∧
    ((call.itraits.fullMatchPredicate item = false ∧ cellId ∈ call.itraits.itemCells item ∧
        itemId = call.itraits.idIn item cellId) ∨
      (call.itraits.foreignObjectsPredicate item = true ∧
        cellId ∈ call.itraits.foreignCells item ∧
        itemId ∈ call.itraits.foreignItems item cellId))

def FullMatch (calls : List (Call ι ν)) (node : ν) (cellId : Nat) : Prop :=
  ∃ call ∈ calls, call.FullMatch node cellId

def Item (calls : List (Call ι ν)) (node : ν) (cellId itemId : Nat) : Prop :=
  ∃ call ∈ calls, call.Item node cellId itemId

end Sserialize.OOMCTCValuesCreator

/-!
## `handle` of `OOMCTCValuesCreator::append`

A block of the sorted entries becomes the payload of its node: a stream of index ids, of the fully
matched cells, of the cells with items and of the items of each of these cells.
-/

namespace Sserialize.OOMCTCValuesCreator

variable {ν : Type}

def LessThan [LinearOrder ν] (a b : ValueEntry ν) : Prop :=
  if a.nodeId < b.nodeId then True
  else if b.nodeId < a.nodeId then False
  else if a.cellId < b.cellId then True
  else if b.cellId < a.cellId then False
  else a.itemId < b.itemId

/-- `SingleEntryState` without the bytes, and how many indexes were made. -/
structure SingleEntryState where
  fmCellIds : List Nat
  pmCellIds : List Nat
  pmCellIdxPtrs : List Nat
  indexes : Nat
  deriving Repr, DecidableEq

def SingleEntryState.new : SingleEntryState := ⟨[], [], [], 0⟩

def isPartial (cellId : Nat) (e : ValueEntry ν) : Bool := e.cellId == cellId && !e.fullMatch

def isFull (cellId : Nat) (e : ValueEntry ν) : Bool := e.cellId == cellId && e.fullMatch

def behindCell (cellId : Nat) (entries : List (ValueEntry ν)) : List (ValueEntry ν) :=
  let behind := entries.dropWhile (isPartial cellId)
  if behind.head?.any (isFull cellId) then behind.tail else behind

theorem length_behindCell_lt (e : ValueEntry ν) (entries : List (ValueEntry ν)) :
    (behindCell e.cellId (e :: entries)).length < (e :: entries).length := by
  unfold behindCell
  by_cases hfull : e.fullMatch = true
  · have hdrop : (e :: entries).dropWhile (isPartial e.cellId) = e :: entries := by
      simp [isPartial, hfull]
    have hany : ((e :: entries).head?.any (isFull e.cellId)) = true := by simp [isFull, hfull]
    simp only [hdrop, hany, if_true, List.tail_cons, List.length_cons, Nat.lt_succ_self]
  · have hdrop : (e :: entries).dropWhile (isPartial e.cellId) =
        entries.dropWhile (isPartial e.cellId) := by simp [isPartial, hfull]
    have hle := (List.dropWhile_suffix (isPartial e.cellId) (l := entries)).length_le
    simp only [hdrop, List.length_cons]
    split
    · rw [List.length_tail]
      omega
    · omega

/-- One cell; `ifo n` makes the index with the number `n` of this block. -/
def handleCell (ifo : Nat → List Nat → Nat) (ses : SingleEntryState) (cellId : Nat)
    (entries : List (ValueEntry ν)) : SingleEntryState :=
  let items := (entries.takeWhile (isPartial cellId)).map ValueEntry.itemId
  let ses :=
    if items ≠ [] then
      { ses with
        pmCellIds := ses.pmCellIds ++ [cellId]
        pmCellIdxPtrs := ses.pmCellIdxPtrs ++ [ifo ses.indexes items]
        indexes := ses.indexes + 1 }
    else ses
  if (entries.dropWhile (isPartial cellId)).head?.any (isFull cellId) then
    { ses with fmCellIds := ses.fmCellIds ++ [cellId] }
  else ses

def handleCells (ifo : Nat → List Nat → Nat) (ses : SingleEntryState) :
    List (ValueEntry ν) → SingleEntryState
  | [] => ses
  | e :: entries =>
    handleCells ifo (handleCell ifo ses e.cellId (e :: entries))
      (behindCell e.cellId (e :: entries))
termination_by entries => entries.length
decreasing_by exact length_behindCell_lt e entries

def indexIds (ifo : Nat → List Nat → Nat) (data : List (ValueEntry ν)) : List Nat :=
  let ses := handleCells ifo .new data
  let fmIdxPtr := ifo ses.indexes ses.fmCellIds
  let pmIdxPtr := ifo (ses.indexes + 1) ses.pmCellIds
  fmIdxPtr :: pmIdxPtr :: ses.pmCellIdxPtrs

def handle (ifo : Nat → List Nat → Nat) (data : List (ValueEntry ν)) : Except Fault (ν × Bytes) :=
  match data with
  | [] => .error .undefinedBehaviour
  | e :: _ => do
    let rlc ← RLEStream.Creator.new.putAll (indexIds ifo data)
    let rlc ← rlc.flush
    -- the destructor
    let rlc ← rlc.flush
    return (e.nodeId, rlc.dest)

/-- What is given to `dout` for the handled blocks. `ifo i` is the index factory as the block `i`
sees it: other blocks are handled in between. -/
def payloads (ifo : Nat → Nat → List Nat → Nat) :
    Nat → List (BlockDescription (ValueEntry ν)) → Except Fault (List (ν × Bytes))
  | _, [] => .ok []
  | i, bd :: bds => do
    let payload ← handle (ifo i) bd.data
    let rest ← payloads ifo (i + 1) bds
    return payload :: rest

/-! ## How a payload is read -/

def readItems (decode : Nat → List Nat) :
    RLEStream → List Nat → Except Fault (List (Nat × List Nat))
  | _, [] => .ok []
  | s, cellId :: cells => do
    let items := decode s.curId
    let s ← s.next
    let rest ← readItems decode s cells
    return (cellId, items) :: rest

/-- `Payload::Type` and the indexes behind its two pointers and behind those that follow:
`decode` is the index with an id. -/
def readPayload (decode : Nat → List Nat) (data : Bytes) :
    Except Fault (List Nat × List (Nat × List Nat)) := do
  let s ← RLEStream.new data
  let fmPtr := s.curId
  let s ← s.next
  let pPtr := s.curId
  let s ← s.next
  let items ← readItems decode s (decode pPtr)
  return (decode fmPtr, items)

end Sserialize.OOMCTCValuesCreator
