import Sserialize.Library.WorkerPool

/-!
# `ThreadPool`

The workers, the clients that schedule tasks and flush the queue, and the owner that constructs the
pool, changes the number of threads and destroys it. `m_qi` has one condition variable for workers
and flushing clients; on that of `m_runningThreads` only the owner waits.
-/

namespace Sserialize.ThreadPool

open WorkerPool

/-- Where a worker is in `taskWorkerFunc`. It holds the lock of `m_qi` at `locked`, `toWait` and
`relocked`. A task is its number in the order of scheduling. -/
inductive Worker where
  | created
  | notifyUp
  | loop
  | lockQueue
  | locked
  | toWait
  | waiting
  | woken
  | relocked
  | taken (t : Nat)
  | inTask (t : Nat)
  | finish
  | notifyDone
  | leave
  | notifyLeft
  | returned
  deriving Repr, DecidableEq

/-- Where a client is in `sheduleTask` or `flushQueue`. `since` is the number of tasks that were
scheduled before the call. -/
inductive Client where
  | idle
  | push
  | notifyOne
  | flush (since : Nat)
  | waiting (since : Nat)
  deriving Repr, DecidableEq

/-- Where the owner is in `start` or in `stop`; behind `stop` it starts `next` threads, if any, or
the pool is gone. It holds the lock of `m_runningThreads` from `notifyWorkers` to `toWait`, and at
`join`. -/
inductive Owner where
  | start (count : Nat)
  | spawn (count : Nat)
  | awaitUp
  | waitingUp
  | idle
  | stop (next : Option Nat)
  | awaitDown (next : Option Nat)
  | lockQueue (next : Option Nat)
  | notifyWorkers (next : Option Nat)
  | toWait (next : Option Nat)
  | waitingDown (next : Option Nat)
  | join (next : Option Nat)
  | destroyed
  | terminated
  deriving Repr, DecidableEq

/-- The pool with its threads. `qLock` is the worker that holds the lock of `m_qi` from one step to
the next; `usable` says that the constructor has returned and the destructor is not called. The
first `threads` workers are in `m_threads`, and the first `joined` of them are joined.
`executed` and `finished` log the tasks. -/
structure State where
  q : List Nat
  runningTasks : Nat
  online : Bool
  runningThreads : Nat
  threads : Nat
  joined : Nat
  qLock : Option Nat
  usable : Bool
  scheduled : Nat
  executed : List Nat
  finished : List Nat
  workers : Nat → Worker
  clients : Nat → Client
  owner : Owner

def State.construct (numThreads : Nat) : State where
  q := []
  runningTasks := 0
  online := false
  runningThreads := 0
  threads := 0
  joined := 0
  qLock := none
  usable := false
  scheduled := 0
  executed := []
  finished := []
  workers := fun _ => .created
  clients := fun _ => .idle
  owner := .start numThreads

def Owner.HoldsLock : Owner → Prop
  | .lockQueue _ => True
  | .notifyWorkers _ => True
  | .toWait _ => True
  | .join _ => True
  | _ => False

def notifyOwner : Owner → Owner
  | .waitingUp => .awaitUp
  | .waitingDown next => .awaitDown next
  | owner => owner

def wakeWorkers (workers : Nat → Worker) : Nat → Worker := fun w =>
  match workers w with
  | .waiting => .woken
  | worker => worker

def wakeClients (clients : Nat → Client) : Nat → Client := fun c =>
  match clients c with
  | .waiting since => .flush since
  | client => client

def State.setWorker (s : State) (w : Nat) (worker : Worker) : State :=
  { s with workers := Function.update s.workers w worker }

def State.setClient (s : State) (c : Nat) (client : Client) : State :=
  { s with clients := Function.update s.clients c client }

/-- What a step is: a call by a client or by the owner, a `notify_one` that wakes a client, the end
of a wait without a notification, or anything else that a thread does in a function of the pool. -/
inductive Kind where
  | call
  | callNumThreads
  | wakeClient
  | spurious
  | run
  deriving Repr, DecidableEq

/-- A step of one of the threads. What stands between a lock and its unlock is one step, unless
another condition variable is used or `m_online` is read in between. -/
inductive Step : Kind → State → State → Prop where
  -- `taskWorkerFunc`
  | up {s : State} {w : Nat} (hw : w < s.threads) (hworker : s.workers w = .created)
      (hlock : ¬ s.owner.HoldsLock) :
      Step .run s { s.setWorker w .notifyUp with runningThreads := s.runningThreads + 1 }
  | notifyUp {s : State} {w : Nat} (hw : w < s.threads) (hworker : s.workers w = .notifyUp) :
      Step .run s { s.setWorker w .loop with owner := notifyOwner s.owner }
  | loopOnline {s : State} {w : Nat} (hw : w < s.threads) (hworker : s.workers w = .loop)
      (honline : s.online = true) : Step .run s (s.setWorker w .lockQueue)
  | loopOffline {s : State} {w : Nat} (hw : w < s.threads) (hworker : s.workers w = .loop)
      (honline : s.online = false) : Step .run s (s.setWorker w .leave)
  | lockQueue {s : State} {w : Nat} (hw : w < s.threads) (hworker : s.workers w = .lockQueue)
      (hlock : s.qLock = none) : Step .run s { s.setWorker w .locked with qLock := some w }
  | empty {s : State} {w : Nat} (hw : w < s.threads) (hworker : s.workers w = .locked)
      (honline : s.online = true) (hq : s.q = []) : Step .run s (s.setWorker w .toWait)
  | nonEmpty {s : State} {w : Nat} (hw : w < s.threads) (hworker : s.workers w = .locked)
      (hgo : s.online = false ∨ s.q ≠ []) : Step .run s (s.setWorker w .relocked)
  | wait {s : State} {w : Nat} (hw : w < s.threads) (hworker : s.workers w = .toWait) :
      Step .run s { s.setWorker w .waiting with qLock := none }
  | spuriousWorker {s : State} {w : Nat} (hw : w < s.threads) (hworker : s.workers w = .waiting) :
      Step .spurious s (s.setWorker w .woken)
  | relock {s : State} {w : Nat} (hw : w < s.threads) (hworker : s.workers w = .woken)
      (hlock : s.qLock = none) : Step .run s { s.setWorker w .relocked with qLock := some w }
  | again {s : State} {w : Nat} (hw : w < s.threads) (hworker : s.workers w = .relocked)
      (hgo : s.online = false ∨ s.q = []) :
      Step .run s { s.setWorker w .loop with qLock := none }
  | take {s : State} {w t : Nat} {q : List Nat} (hw : w < s.threads)
      (hworker : s.workers w = .relocked) (honline : s.online = true) (hq : s.q = t :: q) :
      Step .run s { s.setWorker w (.taken t) with
        q, runningTasks := s.runningTasks + 1, qLock := none }
  | beginTask {s : State} {w t : Nat} (hw : w < s.threads) (hworker : s.workers w = .taken t) :
      Step .run s { s.setWorker w (.inTask t) with executed := s.executed ++ [t] }
  | endTask {s : State} {w t : Nat} (hw : w < s.threads) (hworker : s.workers w = .inTask t) :
      Step .run s { s.setWorker w .finish with finished := s.finished ++ [t] }
  | finish {s : State} {w : Nat} (hw : w < s.threads) (hworker : s.workers w = .finish)
      (hlock : s.qLock = none) :
      Step .run s { s.setWorker w .notifyDone with runningTasks := s.runningTasks - 1 }
  | notifyDone {s : State} {w : Nat} (hw : w < s.threads) (hworker : s.workers w = .notifyDone) :
      Step .run s { s with
        workers := wakeWorkers (Function.update s.workers w .loop)
        clients := wakeClients s.clients }
  | leave {s : State} {w : Nat} (hw : w < s.threads) (hworker : s.workers w = .leave)
      (hlock : ¬ s.owner.HoldsLock) :
      Step .run s { s.setWorker w .notifyLeft with runningThreads := s.runningThreads - 1 }
  | notifyLeft {s : State} {w : Nat} (hw : w < s.threads) (hworker : s.workers w = .notifyLeft) :
      Step .run s { s.setWorker w .returned with owner := notifyOwner s.owner }
  -- `sheduleTask`
  | sheduleTask {s : State} {c : Nat} (husable : s.usable = true) (hclient : s.clients c = .idle) :
      Step .call s (s.setClient c .push)
  | push {s : State} {c : Nat} (hclient : s.clients c = .push) (hlock : s.qLock = none) :
      Step .run s { s.setClient c .notifyOne with
        q := s.q ++ [s.scheduled], scheduled := s.scheduled + 1 }
  | notifyWorker {s : State} {c w : Nat} (hclient : s.clients c = .notifyOne) (hw : w < s.threads)
      (hworker : s.workers w = .waiting) :
      Step .run s ((s.setClient c .idle).setWorker w .woken)
  | notifyClient {s : State} {c d since : Nat} (hclient : s.clients c = .notifyOne)
      (hother : s.clients d = .waiting since) :
      Step .wakeClient s ((s.setClient c .idle).setClient d (.flush since))
  | notifyNone {s : State} {c : Nat} (hclient : s.clients c = .notifyOne)
      (hworkers : ∀ w < s.threads, s.workers w ≠ .waiting)
      (hclients : ∀ d since, s.clients d ≠ .waiting since) : Step .run s (s.setClient c .idle)
  -- `flushQueue`
  | flushQueue {s : State} {c : Nat} (husable : s.usable = true) (hclient : s.clients c = .idle) :
      Step .call s (s.setClient c (.flush s.scheduled))
  | flushWait {s : State} {c since : Nat} (hclient : s.clients c = .flush since)
      (hlock : s.qLock = none) (hbusy : s.q ≠ [] ∨ 0 < s.runningTasks) :
      Step .run s (s.setClient c (.waiting since))
  | flushReturn {s : State} {c since : Nat} (hclient : s.clients c = .flush since)
      (hlock : s.qLock = none) (hq : s.q = []) (hrunning : s.runningTasks = 0) :
      Step .run s (s.setClient c .idle)
  | spuriousClient {s : State} {c since : Nat} (hclient : s.clients c = .waiting since) :
      Step .spurious s (s.setClient c (.flush since))
  -- `start`
  | start {s : State} {count : Nat} (howner : s.owner = .start count) :
      Step .run s { s with online := true, owner := .spawn count }
  | spawn {s : State} {count : Nat} (howner : s.owner = .spawn count) (hless : s.threads < count) :
      Step .run s { s.setWorker s.threads .created with threads := s.threads + 1 }
  | spawned {s : State} {count : Nat} (howner : s.owner = .spawn count)
      (hdone : count ≤ s.threads) : Step .run s { s with owner := .awaitUp }
  | waitUp {s : State} (howner : s.owner = .awaitUp) (hless : s.runningThreads < s.threads) :
      Step .run s { s with owner := .waitingUp }
  | spuriousUp {s : State} (howner : s.owner = .waitingUp) :
      Step .spurious s { s with owner := .awaitUp }
  | started {s : State} (howner : s.owner = .awaitUp) (hdone : s.threads ≤ s.runningThreads) :
      Step .run s { s with owner := .idle, usable := true }
  -- `numThreads` and the destructor
  | numThreads {s : State} {count : Nat} (howner : s.owner = .idle) (hcount : 0 < count) :
      Step .callNumThreads s { s with owner := .stop (some count) }
  | destroy {s : State} (howner : s.owner = .idle) (hclients : ∀ c, s.clients c = .idle) :
      Step .call s { s with owner := .stop none, usable := false }
  -- `stop`
  | stop {s : State} {next : Option Nat} (howner : s.owner = .stop next) :
      Step .run s { s with online := false, owner := .awaitDown next }
  | stillUp {s : State} {next : Option Nat} (howner : s.owner = .awaitDown next)
      (hmore : 0 < s.runningThreads) : Step .run s { s with owner := .lockQueue next }
  | lockedQueue {s : State} {next : Option Nat} (howner : s.owner = .lockQueue next)
      (hlock : s.qLock = none) : Step .run s { s with owner := .notifyWorkers next }
  | notifyWorkers {s : State} {next : Option Nat} (howner : s.owner = .notifyWorkers next) :
      Step .run s { s with
        workers := wakeWorkers s.workers, clients := wakeClients s.clients, owner := .toWait next }
  | waitDown {s : State} {next : Option Nat} (howner : s.owner = .toWait next) :
      Step .run s { s with owner := .waitingDown next }
  | spuriousDown {s : State} {next : Option Nat} (howner : s.owner = .waitingDown next) :
      Step .spurious s { s with owner := .awaitDown next }
  | allDown {s : State} {next : Option Nat} (howner : s.owner = .awaitDown next)
      (hdone : s.runningThreads = 0) : Step .run s { s with owner := .join next }
  | join {s : State} {next : Option Nat} (howner : s.owner = .join next)
      (hreturned : ∀ w < s.threads, s.workers w = .returned) (hjoined : s.joined = 0) :
      Step .run s { s with
        joined := s.threads, owner := next.elim .destroyed fun count => .start count }
  -- a thread of an earlier run is in `m_threads` still, and is not joinable
  | joinTwice {s : State} {next : Option Nat} (howner : s.owner = .join next)
      (hjoined : 0 < s.joined) : Step .run s { s with owner := .terminated }

def AnyStep (s s' : State) : Prop := ∃ kind, Step kind s s'

/-! ## What is expected -/

def FlushReturns (c : Nat) (since : Nat) (s s' : State) : Prop :=
  s.clients c = .flush since ∧ s'.clients c = .idle

def State.Stuck (s : State) : Prop :=
  ((∃ c, s.clients c ≠ .idle) ∨
    (s.owner ≠ .idle ∧ s.owner ≠ .destroyed ∧ s.owner ≠ .terminated)) ∧
  ∀ s', ¬ Step .run s s' ∧ ¬ Step .wakeClient s s'

/-- A step that can go wrong: a call of `numThreads`, and a notification for a worker that goes to
a client in `flushQueue` while a worker waits. -/
def Disturbs (kind : Kind) (s : State) : Prop :=
  kind = .callNumThreads ∨ (kind = .wakeClient ∧ ∃ w < s.threads, s.workers w = .waiting)

end Sserialize.ThreadPool
