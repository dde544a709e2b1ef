import Sserialize.Mt.ThreadPoolTasks

namespace Sserialize.ThreadPool

open WorkerPool
open Function (update update_self update_of_ne)

variable {s s' : State} {kind : Kind}

def Worker.HoldsLock : Worker → Prop
  | .locked => True
  | .toWait => True
  | .relocked => True
  | _ => False

structure Locked (s : State) : Prop where
  holder : ∀ w < s.threads, (s.workers w).HoldsLock ↔ s.qLock = some w
  inRange : ∀ w, s.qLock = some w → w < s.threads
  empty : ∀ w < s.threads, s.workers w = .toWait → s.q = []

variable {w : Nat}

theorem Locked.not_holdsLock (h : Locked s) (hlock : s.qLock = none) (hw : w < s.threads) :
    ¬ (s.workers w).HoldsLock := by
  rw [h.holder w hw, hlock]
  exact nofun

theorem Locked.ne_toWait (h : Locked s) (hlock : s.qLock = none) (hw : w < s.threads) :
    s.workers w ≠ .toWait := by
  intro heq
  apply h.not_holdsLock hlock hw
  rw [heq]
  trivial

variable {owner : Owner} {executed finished : List Nat} {old : Worker}
  {runningTasks runningThreads : Nat}

theorem Locked.keep (h : Locked s) (worker : Worker) (hworker : s.workers w = old)
    (hsame : worker.HoldsLock ↔ old.HoldsLock) (hempty : worker = .toWait → s.q = []) :
    Locked { s.setWorker w worker with
      runningTasks, runningThreads, executed, finished, owner } where
  holder := by
    intro v hv
    change (update s.workers w worker v).HoldsLock ↔ s.qLock = some v
    rw [← h.holder v hv]
    by_cases hvw : v = w
    · subst hvw
      rw [update_self, hworker]
      exact hsame
    · rw [update_of_ne hvw]
  inRange := h.inRange
  empty := all_update (P := fun x : Worker => x = .toWait → s.q = []) h.empty hempty

theorem Locked.acquire (h : Locked s) (hw : w < s.threads) (worker : Worker)
    (hlock : s.qLock = none) (hholds : worker.HoldsLock) (hwait : worker ≠ .toWait) :
    Locked { s.setWorker w worker with qLock := some w } where
  holder := by
    intro v hv
    change (update s.workers w worker v).HoldsLock ↔ some w = some v
    by_cases hvw : v = w
    · subst hvw
      rw [update_self]
      exact iff_of_true hholds rfl
    · rw [update_of_ne hvw, Option.some_inj]
      exact iff_of_false (h.not_holdsLock hlock hv) (fun heq => hvw heq.symm)
  inRange := by
    intro v hv
    rwa [← Option.some.inj hv]
  empty := all_update (P := fun x : Worker => x = .toWait → s.q = []) h.empty
    fun heq => absurd heq hwait

variable {q : List Nat}

theorem Locked.release (h : Locked s) (hw : w < s.threads) (worker : Worker)
    (hworker : s.workers w = old) (hheld : old.HoldsLock) (hfree : ¬ worker.HoldsLock)
    {runningTasks : Nat} : Locked { s.setWorker w worker with q, runningTasks, qLock := none } := by
  have hlock : s.qLock = some w := (h.holder w hw).mp (by rw [hworker]; exact hheld)
  have hothers : ∀ v < s.threads, ¬ (update s.workers w worker v).HoldsLock := by
    intro v hv
    by_cases hvw : v = w
    · subst hvw
      rwa [update_self]
    · rw [update_of_ne hvw, h.holder v hv, hlock, Option.some_inj]
      exact fun heq => hvw heq.symm
  exact {
    holder := fun v hv => iff_of_false (hothers v hv) nofun
    inRange := nofun
    empty := by
      intro v hv heq
      refine absurd ?_ (hothers v hv)
      rw [show update s.workers w worker v = .toWait from heq]
      trivial }

variable {workers : Nat → Worker}

theorem wakeWorkers_holdsLock : (wakeWorkers workers w).HoldsLock ↔ (workers w).HoldsLock := by
  unfold wakeWorkers
  cases workers w <;> exact Iff.rfl

theorem wakeWorkers_eq (worker : Worker) (hwoken : worker ≠ .woken) (hwaiting : worker ≠ .waiting) :
    wakeWorkers workers w = worker ↔ workers w = worker := by
  unfold wakeWorkers
  cases hold : workers w <;> first
    | exact Iff.rfl
    | exact ⟨fun heq => absurd heq.symm hwoken, fun heq => absurd heq.symm hwaiting⟩

theorem Locked.wake (h : Locked s) {clients : Nat → Client} : Locked { s with workers := wakeWorkers s.workers, clients, owner } where
  holder := fun w hw => wakeWorkers_holdsLock.trans (h.holder w hw)
  inRange := h.inRange
  empty := fun w hw heq => h.empty w hw ((wakeWorkers_eq .toWait nofun nofun).mp heq)

theorem Locked.step (h : Locked s) (hstep : Step kind s s') : Locked s' := by
  cases hstep with
  | up _ hworker _ | notifyUp _ hworker | loopOnline _ hworker _ | loopOffline _ hworker _
  | nonEmpty _ hworker _ | spuriousWorker _ hworker | beginTask _ hworker | endTask _ hworker
  | finish _ hworker _ | leave _ hworker _ | notifyLeft _ hworker =>
    exact h.keep _ hworker Iff.rfl nofun
  | lockQueue hw _ hlock => exact h.acquire hw .locked hlock trivial nofun
  | empty _ hworker _ hq => exact h.keep _ hworker Iff.rfl fun _ => hq
  | wait hw hworker | again hw hworker _ | take hw hworker _ _ =>
    exact h.release hw _ hworker trivial id
  | relock hw _ hlock => exact h.acquire hw .relocked hlock trivial nofun
  | @notifyDone s w _ hworker =>
    have hloop : Locked (s.setWorker w .loop) := h.keep .loop hworker Iff.rfl nofun
    exact hloop.wake
  | push _ hlock =>
    exact ⟨h.holder, h.inRange, fun w hw heq => absurd heq (h.ne_toWait hlock hw)⟩
  | @notifyWorker s c w _ _ hworker =>
    have hidle : Locked (s.setClient c .idle) := ⟨h.holder, h.inRange, h.empty⟩
    exact hidle.keep .woken hworker Iff.rfl nofun
  | notifyWorkers _ => exact h.wake
  | @spawn s count _ _ =>
    exact {
      holder := by
        intro w hw
        change (update s.workers s.threads .created w).HoldsLock ↔ s.qLock = some w
        by_cases hlast : w = s.threads
        · subst hlast
          rw [update_self]
          exact iff_of_false id fun hlock => Nat.lt_irrefl _ (h.inRange _ hlock)
        · rw [update_of_ne hlast]
          exact h.holder w (Nat.lt_of_le_of_ne (Nat.le_of_lt_succ hw) hlast)
      inRange := fun w hlock => Nat.lt_succ_of_lt (h.inRange w hlock)
      empty := by
        intro w hw heq
        change update s.workers s.threads .created w = .toWait at heq
        by_cases hlast : w = s.threads
        · subst hlast
          rw [update_self] at heq
          cases heq
        · rw [update_of_ne hlast] at heq
          exact h.empty w (Nat.lt_of_le_of_ne (Nat.le_of_lt_succ hw) hlast) heq }
  | _ => exact ⟨h.holder, h.inRange, h.empty⟩

def Worker.isUp : Worker → Nat
  | .created => 0
  | .notifyLeft => 0
  | .returned => 0
  | _ => 1

/-- `m_runningThreads` counts the threads between their first and their last step. -/
def Counted (s : State) : Prop := s.runningThreads = total s.threads Worker.isUp s.workers

theorem Counted.keep (h : Counted s) (hw : w < s.threads) (worker : Worker)
    (hworker : s.workers w = old) (hsame : worker.isUp = old.isUp) :
    s.runningThreads = total s.threads Worker.isUp (update s.workers w worker) := by
  rw [total_update_of_eq _ hw (hsame.trans (by rw [hworker]))]
  exact h

theorem wakeWorkers_isUp (workers : Nat → Worker) (w : Nat) :
    (wakeWorkers workers w).isUp = (workers w).isUp := by
  unfold wakeWorkers
  cases workers w <;> rfl

theorem Counted.step (h : Counted s) (hstep : Step kind s s') : Counted s' := by
  cases hstep with
  | @up s w hw hworker _ =>
    have htotal := total_update Worker.isUp hw s.workers .notifyUp
    rw [hworker] at htotal
    change s.runningThreads + 1 =
      total s.threads Worker.isUp (update s.workers w .notifyUp)
    rw [h]
    exact htotal.symm
  | notifyUp hw hworker | again hw hworker _ | loopOnline hw hworker _ | loopOffline hw hworker _
  | lockQueue hw hworker _ | empty hw hworker _ _ | nonEmpty hw hworker _ | relock hw hworker _
  | wait hw hworker | spuriousWorker hw hworker | notifyWorker _ hw hworker | take hw hworker _ _
  | beginTask hw hworker | endTask hw hworker | finish hw hworker _ | notifyLeft hw hworker =>
    exact h.keep hw _ hworker rfl
  | notifyDone hw hworker =>
    exact (h.keep hw .loop hworker rfl).trans (total_congr fun v _ => wakeWorkers_isUp _ v).symm
  | @leave s w hw hworker _ =>
    have htotal := total_update Worker.isUp hw s.workers .notifyLeft
    rw [hworker] at htotal
    change _ + 1 = _ + 0 at htotal
    change s.runningThreads - 1 =
      total s.threads Worker.isUp (update s.workers w .notifyLeft)
    rw [h]
    omega
  | notifyWorkers _ => exact Eq.trans h (total_congr fun v _ => wakeWorkers_isUp _ v).symm
  | @spawn s count _ _ =>
    change s.runningThreads = total (s.threads + 1) Worker.isUp
      (update s.workers s.threads .created)
    rw [total_succ_update]
    exact h
  | _ => exact h

theorem Worker.isUp_le (worker : Worker) : worker.isUp ≤ 1 := by
  cases worker <;> first | exact Nat.le_refl 1 | exact Nat.zero_le 1

theorem Counted.ne_created (h : Counted s) (hall : s.threads ≤ s.runningThreads)
    (hw : w < s.threads) : s.workers w ≠ .created := by
  intro hworker
  have htotal := total_update Worker.isUp hw s.workers .loop
  rw [hworker] at htotal
  change _ + 0 = _ + 1 at htotal
  have hle := total_le Worker.isUp_le s.threads (update s.workers w .loop)
  have hcount : s.runningThreads = total s.threads Worker.isUp s.workers := h
  omega

def Worker.Alive : Worker → Prop
  | .leave => False
  | .notifyLeft => False
  | .returned => False
  | _ => True

def AllAlive (n : Nat) (workers : Nat → Worker) : Prop := ∀ w < n, (workers w).Alive

def AllLaunched (n : Nat) (workers : Nat → Worker) : Prop := ∀ w < n, workers w ≠ .created

/-- What the owner finds in each of its states if `numThreads` is not called. -/
def Shape (threads : Nat) (online usable : Bool) (alive launched : Prop) : Owner → Prop
  | .start count => 0 < count ∧ threads = 0 ∧ usable = false
  | .spawn count =>
    0 < count ∧ threads ≤ count ∧ online = true ∧ usable = false ∧ alive
  | .awaitUp => 0 < threads ∧ online = true ∧ usable = false ∧ alive
  | .waitingUp => 0 < threads ∧ online = true ∧ usable = false ∧ alive
  | .idle => 0 < threads ∧ online = true ∧ usable = true ∧ alive ∧ launched
  | .stop none => usable = false ∧ launched
  | .awaitDown none => online = false ∧ usable = false ∧ launched
  | .lockQueue none => online = false ∧ usable = false ∧ launched
  | .notifyWorkers none => online = false ∧ usable = false ∧ launched
  | .toWait none => online = false ∧ usable = false ∧ launched
  | .waitingDown none => online = false ∧ usable = false ∧ launched
  | .join none => online = false ∧ usable = false ∧ launched
  | .destroyed => usable = false
  | _ => False

variable {online usable : Bool} {threads : Nat}

theorem Shape.mono {alive alive' launched launched' : Prop}
    (h : Shape threads online usable alive launched owner)
    (halive : online = true → alive → alive') (hlaunched : launched → launched') :
    Shape threads online usable alive' launched' owner := by
  cases owner with
  | start count | destroyed | terminated => exact h
  | spawn count => exact ⟨h.1, h.2.1, h.2.2.1, h.2.2.2.1, halive h.2.2.1 h.2.2.2.2⟩
  | awaitUp | waitingUp => exact ⟨h.1, h.2.1, h.2.2.1, halive h.2.1 h.2.2.2⟩
  | idle =>
    exact ⟨h.1, h.2.1, h.2.2.1, halive h.2.1 h.2.2.2.1, hlaunched h.2.2.2.2⟩
  | stop next =>
    cases next with
    | none => exact ⟨h.1, hlaunched h.2⟩
    | some count => exact h
  | _ next =>
    cases next with
    | none => exact ⟨h.1, h.2.1, hlaunched h.2.2⟩
    | some count => exact h

theorem Shape.notify {alive launched : Prop}
    (h : Shape threads online usable alive launched owner) :
    Shape threads online usable alive launched (notifyOwner owner) := by
  cases owner with
  | waitingDown next => cases next <;> exact h
  | _ => exact h

structure Phase (s : State) : Prop where
  shape : Shape s.threads s.online s.usable (AllAlive s.threads s.workers)
    (AllLaunched s.threads s.workers) s.owner
  joined : s.owner ≠ .destroyed → s.joined = 0
  idle : s.usable = false → ∀ c, s.clients c = .idle

theorem Phase.worker (h : Phase s) {w : Nat} {old : Worker} (worker : Worker)
    (hworker : s.workers w = old) (halive : s.online = true → old.Alive → worker.Alive)
    (hlaunched : worker ≠ .created) (hw : w < s.threads) :
    Shape s.threads s.online s.usable
      (AllAlive s.threads (update s.workers w worker))
      (AllLaunched s.threads (update s.workers w worker)) s.owner := by
  refine h.shape.mono (fun honline hall => ?_) (fun hall => ?_)
  · have hold := hall w hw
    rw [hworker] at hold
    exact all_update (P := Worker.Alive) hall (halive honline hold)
  · exact all_update (P := fun x : Worker => x ≠ .created) hall hlaunched

theorem Phase.keepWorker (h : Phase s) (worker : Worker) (hworker : s.workers w = old)
    (halive : s.online = true → old.Alive → worker.Alive) (hlaunched : worker ≠ .created)
    (hw : w < s.threads) {qLock : Option Nat} :
    Phase { s.setWorker w worker with
      q, runningTasks, runningThreads, qLock, executed, finished } :=
  ⟨h.worker worker hworker halive hlaunched hw, h.joined, h.idle⟩

theorem notifyOwner_eq_destroyed : notifyOwner owner = .destroyed ↔ owner = .destroyed := by
  cases owner <;> first | exact Iff.rfl | exact ⟨nofun, nofun⟩

theorem Phase.notify (h : Phase s) : Phase { s with owner := notifyOwner s.owner } where
  shape := h.shape.notify
  joined := fun hne => h.joined fun heq => hne (notifyOwner_eq_destroyed.mpr heq)
  idle := h.idle

theorem alive_wakeWorkers : (wakeWorkers workers w).Alive ↔ (workers w).Alive := by
  unfold wakeWorkers
  cases workers w <;> exact Iff.rfl

theorem Phase.wake (h : Phase s) :
    Shape s.threads s.online s.usable (AllAlive s.threads (wakeWorkers s.workers))
      (AllLaunched s.threads (wakeWorkers s.workers)) s.owner := by
  refine h.shape.mono (fun _ hall w hw => alive_wakeWorkers.mpr (hall w hw)) ?_
  exact fun hall w hw heq => hall w hw ((wakeWorkers_eq .created nofun nofun).mp heq)

theorem Phase.client (h : Phase s) {c : Nat} {old : Client} (client : Client)
    (hclient : s.clients c = old) (hbusy : old ≠ .idle) {scheduled : Nat} :
    Phase { s.setClient c client with q, scheduled } where
  shape := h.shape
  joined := h.joined
  idle := fun husable => absurd (hclient ▸ h.idle husable c) hbusy

theorem wakeClients_idle {clients : Nat → Client} {c : Nat} (h : clients c = .idle) :
    wakeClients clients c = .idle := by
  unfold wakeClients
  rw [h]

theorem Phase.step (h : Phase s) (hcounted : Counted s) (hstep : Step kind s s')
    (hkind : kind ≠ .callNumThreads) : Phase s' := by
  have hshape := h.shape
  cases hstep with
  | up hw hworker _ | loopOnline hw hworker _ | lockQueue hw hworker _ | empty hw hworker _ _
  | nonEmpty hw hworker _ | relock hw hworker _ | wait hw hworker | spuriousWorker hw hworker
  | again hw hworker _ | take hw hworker _ _ | beginTask hw hworker | endTask hw hworker
  | finish hw hworker _ =>
    exact h.keepWorker _ hworker (fun _ _ => by trivial) (by nofun) hw
  | @notifyUp s w hw hworker =>
    have hloop : Phase (s.setWorker w .loop) :=
      h.keepWorker .loop hworker (fun _ _ => trivial) nofun hw
    exact hloop.notify
  | loopOffline hw hworker hoffline =>
    refine h.keepWorker .leave hworker (fun honline => ?_) nofun hw
    rw [hoffline] at honline
    cases honline
  | @notifyDone s w hw hworker =>
    have hloop : Phase (s.setWorker w .loop) :=
      h.keepWorker .loop hworker (fun _ _ => trivial) nofun hw
    exact ⟨hloop.wake, h.joined, fun husable c => wakeClients_idle (h.idle husable c)⟩
  | leave hw hworker _ => exact h.keepWorker .notifyLeft hworker (fun _ => id) nofun hw
  | @notifyLeft s w hw hworker =>
    have hreturned : Phase (s.setWorker w .returned) :=
      h.keepWorker .returned hworker (fun _ => id) nofun hw
    exact hreturned.notify
  | sheduleTask husable _ | flushQueue husable _ =>
    exact ⟨hshape, h.joined, fun hnot => absurd (hnot.symm.trans husable) nofun⟩
  | push hclient _ => exact h.client .notifyOne hclient nofun
  | @notifyWorker s c w hclient hw hworker =>
    have hidle : Phase (s.setClient c .idle) := h.client .idle hclient nofun
    exact hidle.keepWorker .woken hworker (fun _ _ => trivial) nofun hw
  | @notifyClient s c d since hclient hother =>
    have hne : d ≠ c := by
      rintro rfl
      rw [hclient] at hother
      cases hother
    have hidle : Phase (s.setClient c .idle) := h.client .idle hclient nofun
    have hstill : (s.setClient c .idle).clients d = .waiting since :=
      (update_of_ne hne _ _).trans hother
    exact hidle.client (.flush since) hstill nofun
  | notifyNone hclient _ _ | flushReturn hclient _ _ _ => exact h.client .idle hclient nofun
  | @flushWait s c since hclient _ _ => exact h.client (.waiting since) hclient nofun
  | @spuriousClient s c since hclient => exact h.client (.flush since) hclient nofun
  | start howner =>
    rw [howner] at hshape
    obtain ⟨hcount, hthreads, husable⟩ := hshape
    refine ⟨⟨hcount, by rw [hthreads]; exact Nat.zero_le _, rfl, husable, ?_⟩, ?_, h.idle⟩
    · exact fun w hw => absurd hw (by rw [hthreads]; exact Nat.not_lt_zero w)
    · exact fun _ => h.joined (by rw [howner]; exact nofun)
  | @spawn s count howner hless =>
    rw [howner] at hshape
    obtain ⟨hcount, -, honline, husable, halive⟩ := hshape
    have hjoined := h.joined (by rw [howner]; exact nofun)
    refine ⟨?_, fun _ => hjoined, h.idle⟩
    change Shape (s.threads + 1) s.online s.usable _ _ s.owner
    rw [howner]
    refine ⟨hcount, hless, honline, husable, fun w hw => ?_⟩
    change (update s.workers s.threads .created w).Alive
    by_cases hlast : w = s.threads
    · subst hlast
      rw [update_self]
      trivial
    · rw [update_of_ne hlast]
      exact halive w (Nat.lt_of_le_of_ne (Nat.le_of_lt_succ hw) hlast)
  | spawned howner hdone =>
    rw [howner] at hshape
    obtain ⟨hcount, -, honline, husable, halive⟩ := hshape
    exact ⟨⟨Nat.lt_of_lt_of_le hcount hdone, honline, husable, halive⟩,
      fun _ => h.joined (by rw [howner]; exact nofun), h.idle⟩
  | waitUp howner _ | spuriousUp howner =>
    rw [howner] at hshape
    exact ⟨hshape, fun _ => h.joined (by rw [howner]; exact nofun), h.idle⟩
  | started howner hdone =>
    rw [howner] at hshape
    obtain ⟨hthreads, honline, -, halive⟩ := hshape
    exact ⟨⟨hthreads, honline, rfl, halive, fun w hw => hcounted.ne_created hdone hw⟩,
      fun _ => h.joined (by rw [howner]; exact nofun), nofun⟩
  | numThreads _ _ => exact absurd rfl hkind
  | destroy howner hclients =>
    rw [howner] at hshape
    exact ⟨⟨rfl, hshape.2.2.2.2⟩, fun _ => h.joined (by rw [howner]; exact nofun),
      fun _ => hclients⟩
  | @stop s next howner =>
    rw [howner] at hshape
    cases next with
    | none => exact ⟨⟨rfl, hshape⟩, fun _ => h.joined (by rw [howner]; exact nofun), h.idle⟩
    | some count => exact hshape.elim
  | @stillUp s next howner _ | @lockedQueue s next howner _ | @waitDown s next howner
  | @spuriousDown s next howner | @allDown s next howner _ =>
    rw [howner] at hshape
    cases next with
    | none => exact ⟨hshape, fun _ => h.joined (by rw [howner]; exact nofun), h.idle⟩
    | some count => exact hshape.elim
  | @notifyWorkers s next howner =>
    have hwake := h.wake
    rw [howner] at hwake
    cases next with
    | none =>
      exact ⟨hwake, fun _ => h.joined (by rw [howner]; exact nofun),
        fun husable c => wakeClients_idle (h.idle husable c)⟩
    | some count => exact hwake.elim
  | @join s next howner _ _ =>
    rw [howner] at hshape
    cases next with
    | none => exact ⟨hshape.2.1, fun hne => absurd rfl hne, h.idle⟩
    | some count => exact hshape.elim
  | joinTwice howner hjoined =>
    have hzero := h.joined (by rw [howner]; exact nofun)
    omega

/-- The owner is between its lock of the queue in `stop` and the end of its wait. -/
def Owner.stopping : Owner → Prop
  | .notifyWorkers _ => True
  | .toWait _ => True
  | .waitingDown _ => True
  | _ => False

def Owner.notified : Owner → Prop
  | .toWait _ => True
  | .waitingDown _ => True
  | _ => False

/-- What the owner waits for is not there yet, or is about to be notified. While it stops the pool,
no worker begins to wait. -/
structure OwnerWaits (s : State) : Prop where
  up : s.owner = .waitingUp → s.runningThreads < s.threads ∨
    ∃ w < s.threads, s.workers w = .notifyUp
  down : ∀ next, s.owner = .waitingDown next → 0 < s.runningThreads ∨
    ∃ w < s.threads, s.workers w = .notifyLeft
  held : s.owner.HoldsLock → (∀ next, s.owner ≠ .join next) → 0 < s.runningThreads
  joining : ∀ next, s.owner = .join next → s.runningThreads = 0
  stopping : s.owner.stopping → ∀ w < s.threads, s.workers w ≠ .toWait
  notified : s.owner.notified → ∀ w < s.threads, s.workers w ≠ .waiting

theorem exists_still (other : Worker) {n w : Nat} {old worker : Worker}
    (hworker : workers w = old) (hold : old ≠ other) (h : ∃ v < n, workers v = other) :
    ∃ v < n, update workers w worker v = other :=
  exists_update (P := fun x : Worker => x = other) hworker hold h

theorem OwnerWaits.keep (h : OwnerWaits s) (worker : Worker) (hworker : s.workers w = old)
    (hold : old ≠ .notifyUp ∧ old ≠ .notifyLeft) (hnew : worker ≠ .toWait ∧ worker ≠ .waiting)
    {runningTasks : Nat} {qLock : Option Nat} :
    OwnerWaits { s.setWorker w worker with q, runningTasks, qLock, executed, finished } where
  up := fun howner => (h.up howner).imp_right (exists_still .notifyUp hworker hold.1)
  down := fun next howner =>
    (h.down next howner).imp_right (exists_still .notifyLeft hworker hold.2)
  held := h.held
  joining := h.joining
  stopping := fun howner =>
    all_update (P := fun x : Worker => x ≠ .toWait) (h.stopping howner) hnew.1
  notified := fun howner =>
    all_update (P := fun x : Worker => x ≠ .waiting) (h.notified howner) hnew.2

theorem notifyOwner_ne :
    notifyOwner owner ≠ .waitingUp ∧ ∀ next, notifyOwner owner ≠ .waitingDown next := by
  cases owner <;> exact ⟨nofun, nofun⟩

theorem notifyOwner_of {P : Owner → Prop} (hup : ¬ P .awaitUp)
    (hdown : ∀ next, ¬ P (.awaitDown next)) (h : P (notifyOwner owner)) : P owner := by
  cases owner with
  | waitingUp => exact absurd h hup
  | waitingDown next => exact absurd h (hdown next)
  | _ => exact h

theorem OwnerWaits.notify (h : OwnerWaits s) (worker : Worker)
    (hnew : worker ≠ .toWait ∧ worker ≠ .waiting) : OwnerWaits { s.setWorker w worker with owner := notifyOwner s.owner } where
  up := fun howner => absurd howner notifyOwner_ne.1
  down := fun next howner => absurd howner (notifyOwner_ne.2 next)
  held := by
    intro hholds hjoin
    refine h.held (notifyOwner_of (P := Owner.HoldsLock) id (fun _ => id) hholds) ?_
    rintro next howner
    apply hjoin next
    change notifyOwner s.owner = _
    rw [howner]
    rfl
  joining := fun next howner =>
    h.joining next (notifyOwner_of (P := fun x => x = .join next) nofun (fun _ => nofun) howner)
  stopping := fun howner => all_update (P := fun x : Worker => x ≠ .toWait)
    (h.stopping (notifyOwner_of (P := Owner.stopping) id (fun _ => id) howner)) hnew.1
  notified := fun howner => all_update (P := fun x : Worker => x ≠ .waiting)
    (h.notified (notifyOwner_of (P := Owner.notified) id (fun _ => id) howner)) hnew.2

theorem not_waiting_wakeWorkers (workers : Nat → Worker) (w : Nat) :
    wakeWorkers workers w ≠ .waiting := by
  unfold wakeWorkers
  cases workers w <;> exact nofun

theorem OwnerWaits.ofFree {s : State} (hup : s.owner ≠ .waitingUp)
    (hholds : ¬ s.owner.HoldsLock) (hstopping : ¬ s.owner.stopping) : OwnerWaits s where
  up := fun howner => absurd howner hup
  down := fun next howner => absurd (by rw [howner]; trivial) hstopping
  held := fun howner => absurd howner hholds
  joining := fun next howner => absurd (by rw [howner]; trivial) hholds
  stopping := fun howner => absurd howner hstopping
  notified := by
    intro howner
    refine absurd ?_ hstopping
    revert howner
    cases s.owner <;> first | exact id | exact fun _ => trivial

theorem Shape.offline {alive launched : Prop}
    (h : Shape threads online usable alive launched owner) (hstopping : owner.stopping) :
    online = false := by
  cases owner with
  | notifyWorkers next | toWait next | waitingDown next =>
    cases next with
    | none => exact h.1
    | some count => exact h.elim
  | _ => exact hstopping.elim

theorem OwnerWaits.step (h : OwnerWaits s) (hlocked : Locked s) (hphase : Phase s)
    (hstep : Step kind s s') : OwnerWaits s' := by
  cases hstep with
  | @up s w hw hworker hlock =>
    exact {
      up := fun _ => .inr ⟨w, hw, update_self ..⟩
      down := fun _ _ => .inl (Nat.succ_pos _)
      held := fun hholds => absurd hholds hlock
      joining := fun next howner =>
        absurd (show s.owner.HoldsLock by rw [show s.owner = .join next from howner]; trivial) hlock
      stopping := fun howner =>
        all_update (P := fun x : Worker => x ≠ .toWait) (h.stopping howner) nofun
      notified := fun howner =>
        all_update (P := fun x : Worker => x ≠ .waiting) (h.notified howner) nofun }
  | notifyUp _ _ => exact h.notify .loop ⟨nofun, nofun⟩
  | loopOnline _ hworker _ | loopOffline _ hworker _ | lockQueue _ hworker _
  | nonEmpty _ hworker _ | relock _ hworker _ | spuriousWorker _ hworker | again _ hworker _
  | take _ hworker _ _ | beginTask _ hworker | endTask _ hworker | finish _ hworker _ =>
    exact h.keep _ hworker ⟨nofun, nofun⟩ (by exact ⟨nofun, nofun⟩)
  | @empty s w hw hworker honline _ =>
    have hnot : ¬ s.owner.stopping := by
      intro hstopping
      have hoffline := hphase.shape.offline hstopping
      rw [honline] at hoffline
      cases hoffline
    exact {
      up := fun howner => (h.up howner).imp_right (exists_still .notifyUp hworker nofun)
      down := fun next howner =>
        (h.down next howner).imp_right (exists_still .notifyLeft hworker nofun)
      held := h.held
      joining := h.joining
      stopping := fun howner => absurd howner hnot
      notified := fun howner =>
        all_update (P := fun x : Worker => x ≠ .waiting) (h.notified howner) nofun }
  | @wait s w hw hworker =>
    have hnot : ¬ s.owner.notified := by
      intro hnotified
      refine h.stopping ?_ w hw hworker
      revert hnotified
      cases s.owner <;> first | exact id | exact fun _ => trivial
    exact {
      up := fun howner => (h.up howner).imp_right (exists_still .notifyUp hworker nofun)
      down := fun next howner =>
        (h.down next howner).imp_right (exists_still .notifyLeft hworker nofun)
      held := h.held
      joining := h.joining
      stopping := fun howner =>
        all_update (P := fun x : Worker => x ≠ .toWait) (h.stopping howner) nofun
      notified := fun howner => absurd howner hnot }
  | @notifyDone s w _ hworker =>
    have hloop : OwnerWaits (s.setWorker w .loop) :=
      h.keep .loop hworker ⟨nofun, nofun⟩ ⟨nofun, nofun⟩
    exact {
      up := fun howner => (hloop.up howner).imp_right fun ⟨v, hv, heq⟩ =>
        ⟨v, hv, (wakeWorkers_eq .notifyUp nofun nofun).mpr heq⟩
      down := fun next howner => (hloop.down next howner).imp_right fun ⟨v, hv, heq⟩ =>
        ⟨v, hv, (wakeWorkers_eq .notifyLeft nofun nofun).mpr heq⟩
      held := h.held
      joining := h.joining
      stopping := fun howner v hv heq =>
        hloop.stopping howner v hv ((wakeWorkers_eq .toWait nofun nofun).mp heq)
      notified := fun _ v _ => not_waiting_wakeWorkers _ v }
  | @leave s w hw hworker hlock =>
    exact {
      up := fun howner => by
        rcases h.up howner with hless | hnotify
        · exact .inl (Nat.lt_of_le_of_lt (Nat.sub_le _ _) hless)
        · exact .inr (exists_still .notifyUp hworker nofun hnotify)
      down := fun _ _ => .inr ⟨w, hw, update_self ..⟩
      held := fun hholds => absurd hholds hlock
      joining := fun next howner =>
        absurd (show s.owner.HoldsLock by rw [show s.owner = .join next from howner]; trivial) hlock
      stopping := fun howner =>
        all_update (P := fun x : Worker => x ≠ .toWait) (h.stopping howner) nofun
      notified := fun howner =>
        all_update (P := fun x : Worker => x ≠ .waiting) (h.notified howner) nofun }
  | notifyLeft _ _ => exact h.notify .returned ⟨nofun, nofun⟩
  | @notifyWorker s c w _ _ hworker =>
    have hidle : OwnerWaits (s.setClient c .idle) :=
      ⟨h.up, h.down, h.held, h.joining, h.stopping, h.notified⟩
    exact hidle.keep .woken hworker ⟨nofun, nofun⟩ ⟨nofun, nofun⟩
  | sheduleTask _ _ | push _ _ | notifyClient _ _ | notifyNone _ _ _ | flushQueue _ _
  | flushWait _ _ _ | flushReturn _ _ _ _ | spuriousClient _ =>
    exact ⟨h.up, h.down, h.held, h.joining, h.stopping, h.notified⟩
  | @spawn s count howner _ =>
    have hup : s.owner ≠ .waitingUp := by
      rw [howner]
      exact nofun
    have hholds : ¬ s.owner.HoldsLock := by
      rw [howner]
      exact id
    have hstopping : ¬ s.owner.stopping := by
      rw [howner]
      exact id
    exact OwnerWaits.ofFree hup hholds hstopping
  | waitUp _ hless =>
    exact {
      up := fun _ => .inl hless
      down := nofun
      held := fun hholds => hholds.elim
      joining := nofun
      stopping := fun hstopping => hstopping.elim
      notified := fun hnotified => hnotified.elim }
  | stillUp _ hmore =>
    exact {
      up := nofun
      down := nofun
      held := fun _ _ => hmore
      joining := nofun
      stopping := fun hstopping => hstopping.elim
      notified := fun hnotified => hnotified.elim }
  | lockedQueue howner hlock =>
    exact {
      up := nofun
      down := nofun
      held := fun _ _ => h.held (by rw [howner]; trivial) (by rw [howner]; exact nofun)
      joining := nofun
      stopping := fun _ w hw => hlocked.ne_toWait hlock hw
      notified := fun hnotified => hnotified.elim }
  | notifyWorkers howner =>
    exact {
      up := nofun
      down := nofun
      held := fun _ _ => h.held (by rw [howner]; trivial) (by rw [howner]; exact nofun)
      joining := nofun
      stopping := fun _ w hw heq =>
        h.stopping (by rw [howner]; trivial) w hw ((wakeWorkers_eq .toWait nofun nofun).mp heq)
      notified := fun _ w _ => not_waiting_wakeWorkers _ w }
  | waitDown howner =>
    exact {
      up := nofun
      down := fun _ _ => .inl (h.held (by rw [howner]; trivial) (by rw [howner]; exact nofun))
      held := fun hholds => hholds.elim
      joining := nofun
      stopping := fun _ => h.stopping (by rw [howner]; trivial)
      notified := fun _ => h.notified (by rw [howner]; trivial) }
  | @allDown s next _ hdone =>
    exact {
      up := nofun
      down := nofun
      held := fun _ hjoin => absurd rfl (hjoin next)
      joining := fun _ _ => hdone
      stopping := fun hstopping => hstopping.elim
      notified := fun hnotified => hnotified.elim }
  | @join s next _ _ _ => cases next <;> exact OwnerWaits.ofFree nofun id id
  | _ => exact OwnerWaits.ofFree nofun id id

end Sserialize.ThreadPool
