import Sserialize.Mt.ThreadPoolRun

namespace Sserialize.ThreadPool

open WorkerPool
open Function (update update_self update_of_ne)

variable {s s' : State} {kind : Kind}

def Worker.Awake (worker : Worker) : Prop := worker ≠ .toWait ∧ worker ≠ .waiting

variable {w : Nat}

theorem awake_update {workers : Nat → Worker} {worker : Worker} (h : worker.Awake) :
    (update workers w worker w).Awake := by
  rwa [update_self]

/-- A client in `flushQueue` waits for something, and a task in the queue will be seen. -/
structure QueueWaits (s : State) : Prop where
  flush : ∀ c since, s.clients c = .waiting since → s.q ≠ [] ∨ 0 < s.runningTasks ∨
    ∃ w < s.threads, s.workers w = .notifyDone
  work : s.q ≠ [] → (∃ w < s.threads, (s.workers w).Awake) ∨ ∃ c, s.clients c = .notifyOne

theorem QueueWaits.keep (h : QueueWaits s) {old : Worker} (hw : w < s.threads) (worker : Worker)
    (hworker : s.workers w = old) (hold : old ≠ .notifyDone) (hnew : worker.Awake)
    {runningThreads : Nat} {qLock : Option Nat} {executed finished : List Nat} {owner : Owner} :
    QueueWaits { s.setWorker w worker with
      runningThreads, qLock, executed, finished, owner } where
  flush := fun c since hclient => (h.flush c since hclient).imp_right
    (Or.imp_right (exists_still .notifyDone hworker hold))
  work := fun _ => .inl ⟨w, hw, awake_update hnew⟩

theorem QueueWaits.sleep (h : QueueWaits s) {old : Worker} (worker : Worker)
    (hworker : s.workers w = old) (hold : old ≠ .notifyDone) (hq : s.q = []) {qLock : Option Nat} :
    QueueWaits { s.setWorker w worker with qLock } where
  flush := fun c since hclient => (h.flush c since hclient).imp_right
    (Or.imp_right (exists_still .notifyDone hworker hold))
  work := fun hne => absurd hq hne

theorem not_waiting_wakeClients (clients : Nat → Client) (c since : Nat) :
    wakeClients clients c ≠ .waiting since := by
  unfold wakeClients
  cases clients c <;> exact nofun

theorem wakeClients_notifyOne {clients : Nat → Client} {c : Nat} (h : clients c = .notifyOne) :
    wakeClients clients c = .notifyOne := by
  unfold wakeClients
  rw [h]

theorem QueueWaits.client (h : QueueWaits s) (c : Nat) (client : Client)
    (hnew : ∀ since, client ≠ .waiting since)
    (hwork : s.q ≠ [] → (∃ w < s.threads, (s.workers w).Awake) ∨
      ∃ d, (s.setClient c client).clients d = .notifyOne) : QueueWaits (s.setClient c client) where
  flush := by
    intro d since hwaiting
    change update s.clients c client d = .waiting since at hwaiting
    by_cases hdc : d = c
    · subst hdc
      rw [update_self] at hwaiting
      exact absurd hwaiting (hnew since)
    · rw [update_of_ne hdc] at hwaiting
      exact h.flush d since hwaiting
  work := hwork

theorem QueueWaits.work_client (h : QueueWaits s) {c : Nat} {old : Client} (client : Client)
    (hclient : s.clients c = old) (hold : old ≠ .notifyOne) (hq : s.q ≠ []) :
    (∃ w < s.threads, (s.workers w).Awake) ∨
      ∃ d, (s.setClient c client).clients d = .notifyOne := by
  rcases h.work hq with hawake | ⟨d, hd⟩
  · exact .inl hawake
  · refine .inr ⟨d, (update_of_ne ?_ _ _).trans hd⟩
    rintro rfl
    exact hold (hclient.symm.trans hd)

theorem Phase.running (h : Phase s) {c : Nat} {old : Client} (hclient : s.clients c = old)
    (hbusy : old ≠ .idle) : 0 < s.threads ∧ AllAlive s.threads s.workers ∧ s.owner = .idle := by
  have husable : s.usable = true := by
    rw [← Bool.not_eq_false]
    exact fun hnot => hbusy (hclient.symm.trans (h.idle hnot c))
  have hshape := h.shape
  cases howner : s.owner with
  | idle =>
    rw [howner] at hshape
    exact ⟨hshape.1, hshape.2.2.2.1, rfl⟩
  | start count =>
    rw [howner, husable] at hshape
    cases hshape.2.2
  | spawn count =>
    rw [howner, husable] at hshape
    cases hshape.2.2.2.1
  | awaitUp | waitingUp =>
    rw [howner, husable] at hshape
    cases hshape.2.2.1
  | destroyed =>
    rw [howner, husable] at hshape
    cases hshape
  | terminated =>
    rw [howner] at hshape
    exact hshape.elim
  | stop next =>
    rw [howner, husable] at hshape
    cases next with
    | none => cases hshape.1
    | some count => exact hshape.elim
  | _ next =>
    rw [howner, husable] at hshape
    cases next with
    | none => cases hshape.2.1
    | some count => exact hshape.elim

theorem Locked.exists_awake (h : Locked s) (hthreads : 0 < s.threads)
    (hnone : ∀ w < s.threads, s.workers w ≠ .waiting) (hq : s.q ≠ []) :
    ∃ w < s.threads, (s.workers w).Awake :=
  ⟨0, hthreads, fun heq => hq (h.empty 0 hthreads heq), hnone 0 hthreads⟩

theorem QueueWaits.step (h : QueueWaits s) (hlocked : Locked s) (hphase : Phase s)
    (hstep : Step kind s s') (hgood : ¬ Disturbs kind s) : QueueWaits s' := by
  cases hstep with
  | up hw hworker _ | notifyUp hw hworker | again hw hworker _ | loopOnline hw hworker _
  | loopOffline hw hworker _ | lockQueue hw hworker _
  | nonEmpty hw hworker _ | relock hw hworker _ | spuriousWorker hw hworker
  | beginTask hw hworker | endTask hw hworker | leave hw hworker _ | notifyLeft hw hworker =>
    exact h.keep hw _ hworker nofun (by exact ⟨nofun, nofun⟩)
  | empty _ hworker _ hq => exact h.sleep .toWait hworker nofun hq
  | wait hw hworker => exact h.sleep .waiting hworker nofun (hlocked.empty _ hw hworker)
  | @take s w _ _ hw _ _ _ =>
    exact {
      flush := fun _ _ _ => .inr (.inl (Nat.succ_pos _))
      work := fun _ => .inl ⟨w, hw, awake_update ⟨nofun, nofun⟩⟩ }
  | @finish s w hw hworker _ =>
    exact {
      flush := fun _ _ _ => .inr (.inr ⟨w, hw, update_self ..⟩)
      work := fun _ => .inl ⟨w, hw, awake_update ⟨nofun, nofun⟩⟩ }
  | @notifyDone s w hw hworker =>
    exact {
      flush := fun c since hwaiting => absurd hwaiting (not_waiting_wakeClients _ c since)
      work := by
        refine fun _ => .inl ⟨w, hw, ?_, not_waiting_wakeWorkers _ w⟩
        intro heq
        have hold := (wakeWorkers_eq .toWait nofun nofun).mp heq
        rw [update_self] at hold
        cases hold }
  | @sheduleTask s c _ hclient =>
    exact h.client c .push (fun _ => nofun) (h.work_client .push hclient nofun)
  | @push s c hclient _ =>
    exact {
      flush := fun _ _ _ => .inl (by simp)
      work := fun _ => .inr ⟨c, update_self ..⟩ }
  | @notifyWorker s c w hclient hw hworker =>
    have hwoken : (update s.workers w .woken w).Awake := awake_update ⟨nofun, nofun⟩
    have hidle : QueueWaits ((s.setWorker w .woken).setClient c .idle) := by
      have hkeep : QueueWaits (s.setWorker w .woken) :=
        h.keep hw .woken hworker nofun ⟨nofun, nofun⟩
      exact hkeep.client c .idle (fun _ => nofun) fun _ => .inl ⟨w, hw, hwoken⟩
    exact ⟨hidle.flush, hidle.work⟩
  | @notifyClient s c d since hclient hother =>
    have hnone : ∀ w < s.threads, s.workers w ≠ .waiting :=
      fun w hw heq => hgood (.inr ⟨rfl, w, hw, heq⟩)
    have hthreads := (hphase.running hclient nofun).1
    have hidle : QueueWaits (s.setClient c .idle) :=
      h.client c .idle (fun _ => nofun) fun hq => .inl (hlocked.exists_awake hthreads hnone hq)
    exact hidle.client d (.flush since) (fun _ => nofun)
      fun hq => .inl (hlocked.exists_awake hthreads hnone hq)
  | @notifyNone s c hclient hnone _ =>
    have hthreads := (hphase.running hclient nofun).1
    exact h.client c .idle (fun _ => nofun)
      fun hq => .inl (hlocked.exists_awake hthreads hnone hq)
  | @flushQueue s c _ hclient =>
    exact h.client c (.flush s.scheduled) (fun _ => nofun)
      (h.work_client (.flush s.scheduled) hclient nofun)
  | @flushWait s c since hclient _ hbusy =>
    exact {
      flush := by
        intro d since' _
        rcases hbusy with hq | hrunning
        · exact .inl hq
        · exact .inr (.inl hrunning)
      work := h.work_client (.waiting since) hclient nofun }
  | @flushReturn s c since hclient _ _ _ =>
    exact h.client c .idle (fun _ => nofun) (h.work_client .idle hclient nofun)
  | @spuriousClient s c since hclient =>
    exact h.client c (.flush since) (fun _ => nofun) (h.work_client (.flush since) hclient nofun)
  | @spawn s count _ _ =>
    exact {
      flush := by
        intro c since hwaiting
        rcases h.flush c since hwaiting with hq | hrunning | ⟨w, hw, heq⟩
        · exact .inl hq
        · exact .inr (.inl hrunning)
        · refine .inr (.inr ⟨w, Nat.lt_succ_of_lt hw, ?_⟩)
          exact (update_of_ne (Nat.ne_of_lt hw) _ _).trans heq
      work := fun _ => .inl ⟨s.threads, Nat.lt_succ_self _, awake_update ⟨nofun, nofun⟩⟩ }
  | @notifyWorkers s next _ =>
    exact {
      flush := fun c since hwaiting => absurd hwaiting (not_waiting_wakeClients _ c since)
      work := by
        intro hq
        rcases h.work hq with ⟨w, hw, hawake⟩ | ⟨c, hc⟩
        · refine .inl ⟨w, hw, ?_, not_waiting_wakeWorkers _ w⟩
          exact fun heq => hawake.1 ((wakeWorkers_eq .toWait nofun nofun).mp heq)
        · exact .inr ⟨c, wakeClients_notifyOne hc⟩ }
  | _ => exact ⟨h.flush, h.work⟩

structure Sound (s : State) : Prop where
  tasks : Tasks s
  locked : Locked s
  counted : Counted s
  phase : Phase s
  owner : OwnerWaits s
  queue : QueueWaits s

theorem Sound.construct {numThreads : Nat} (h : 0 < numThreads) :
    Sound (State.construct numThreads) where
  tasks := Tasks.construct numThreads
  locked := ⟨fun _ hw => absurd hw (Nat.not_lt_zero _), nofun,
    fun _ hw => absurd hw (Nat.not_lt_zero _)⟩
  counted := rfl
  phase := ⟨⟨h, rfl, rfl⟩, fun _ => rfl, fun _ _ => rfl⟩
  owner := OwnerWaits.ofFree nofun id id
  queue := ⟨fun _ _ => nofun, fun hq => absurd rfl hq⟩

theorem Sound.step (h : Sound s) (hstep : Step kind s s') (hgood : ¬ Disturbs kind s) :
    Sound s' where
  tasks := h.tasks.step hstep
  locked := h.locked.step hstep
  counted := h.counted.step hstep
  phase := h.phase.step h.counted hstep fun hkind => hgood (.inl hkind)
  owner := h.owner.step h.locked h.phase hstep
  queue := h.queue.step h.locked h.phase hstep hgood

def State.Halted (s : State) : Prop := ∀ s', ¬ Step .run s s' ∧ ¬ Step .wakeClient s s'

theorem Locked.qLock_eq_none (h : Locked s) (hhalt : s.Halted) : s.qLock = none := by
  cases hlock : s.qLock with
  | none => rfl
  | some w =>
    exfalso
    have hw := h.inRange w hlock
    have hholds := (h.holder w hw).mpr hlock
    cases hworker : s.workers w with
    | locked =>
      by_cases hempty : s.online = true ∧ s.q = []
      · exact (hhalt _).1 (Step.empty hw hworker hempty.1 hempty.2)
      · apply (hhalt _).1 (Step.nonEmpty hw hworker _)
        rw [← Bool.not_eq_true]
        exact not_and_or.mp hempty
    | toWait => exact (hhalt _).1 (Step.wait hw hworker)
    | relocked =>
      by_cases hagain : s.online = false ∨ s.q = []
      · exact (hhalt _).1 (Step.again hw hworker hagain)
      · obtain ⟨honline, hq⟩ := not_or.mp hagain
        obtain ⟨t, q, hcons⟩ := List.exists_cons_of_ne_nil hq
        exact (hhalt _).1 (Step.take hw hworker (Bool.of_not_eq_false honline) hcons)
    | _ =>
      rw [hworker] at hholds
      exact hholds

/-- A worker that cannot go on waits for a task, has returned, or needs the lock that the owner
has. -/
theorem halted_worker (hhalt : s.Halted) (hlock : s.qLock = none) (hlocked : Locked s)
    (hw : w < s.threads) : s.workers w = .waiting ∨ s.workers w = .returned ∨
      (s.workers w = .created ∨ s.workers w = .leave) ∧ s.owner.HoldsLock := by
  have hfree := hlocked.not_holdsLock hlock hw
  cases hworker : s.workers w with
  | created =>
    refine .inr (.inr ⟨.inl rfl, ?_⟩)
    by_contra howner
    exact (hhalt _).1 (Step.up hw hworker howner)
  | leave =>
    refine .inr (.inr ⟨.inr rfl, ?_⟩)
    by_contra howner
    exact (hhalt _).1 (Step.leave hw hworker howner)
  | waiting => exact .inl rfl
  | returned => exact .inr (.inl rfl)
  | notifyUp => exact absurd (Step.notifyUp hw hworker) (hhalt _).1
  | loop =>
    cases honline : s.online with
    | true => exact absurd (Step.loopOnline hw hworker honline) (hhalt _).1
    | false => exact absurd (Step.loopOffline hw hworker honline) (hhalt _).1
  | lockQueue => exact absurd (Step.lockQueue hw hworker hlock) (hhalt _).1
  | woken => exact absurd (Step.relock hw hworker hlock) (hhalt _).1
  | taken t => exact absurd (Step.beginTask hw hworker) (hhalt _).1
  | inTask t => exact absurd (Step.endTask hw hworker) (hhalt _).1
  | finish => exact absurd (Step.finish hw hworker hlock) (hhalt _).1
  | notifyDone => exact absurd (Step.notifyDone hw hworker) (hhalt _).1
  | notifyLeft => exact absurd (Step.notifyLeft hw hworker) (hhalt _).1
  | _ =>
    rw [hworker] at hfree
    exact absurd trivial hfree

theorem Sound.not_join (h : Sound s) (hhalt : s.Halted) (hlock : s.qLock = none)
    {next : Option Nat} (howner : s.owner = .join next) : False := by
  have hrunning := h.owner.joining next howner
  rw [h.counted, total_eq_zero_iff] at hrunning
  have hshape := h.phase.shape
  rw [howner] at hshape
  have hlaunched : AllLaunched s.threads s.workers := by
    cases next with
    | none => exact hshape.2.2
    | some count => exact hshape.elim
  refine (hhalt _).1 (Step.join howner (fun w hw => ?_) (h.phase.joined (by rw [howner]; nofun)))
  have hdown := hrunning w hw
  rcases halted_worker hhalt hlock h.locked hw with heq | heq | ⟨heq | heq, -⟩
  · rw [heq] at hdown
    cases hdown
  · exact heq
  · exact absurd heq (hlaunched w hw)
  · rw [heq] at hdown
    cases hdown

theorem Sound.halted_owner (h : Sound s) (hhalt : s.Halted) (hlock : s.qLock = none) :
    s.owner = .idle ∨ s.owner = .destroyed ∨ s.owner = .terminated ∨ s.owner = .waitingUp ∨
      ∃ next, s.owner = .waitingDown next := by
  cases howner : s.owner with
  | start count => exact absurd (Step.start howner) (hhalt _).1
  | spawn count =>
    rcases Nat.lt_or_ge s.threads count with hless | hdone
    · exact absurd (Step.spawn howner hless) (hhalt _).1
    · exact absurd (Step.spawned howner hdone) (hhalt _).1
  | awaitUp =>
    rcases Nat.lt_or_ge s.runningThreads s.threads with hless | hdone
    · exact absurd (Step.waitUp howner hless) (hhalt _).1
    · exact absurd (Step.started howner hdone) (hhalt _).1
  | waitingUp | idle | waitingDown next | destroyed | terminated => simp
  | stop next => exact absurd (Step.stop howner) (hhalt _).1
  | awaitDown next =>
    rcases Nat.eq_zero_or_pos s.runningThreads with hdone | hmore
    · exact absurd (Step.allDown howner hdone) (hhalt _).1
    · exact absurd (Step.stillUp howner hmore) (hhalt _).1
  | lockQueue next => exact absurd (Step.lockedQueue howner hlock) (hhalt _).1
  | notifyWorkers next => exact absurd (Step.notifyWorkers howner) (hhalt _).1
  | toWait next => exact absurd (Step.waitDown howner) (hhalt _).1
  | join next => exact (h.not_join hhalt hlock howner).elim

theorem Sound.waiting_or_returned (h : Sound s) (hhalt : s.Halted) (hw : w < s.threads) :
    s.workers w = .waiting ∨ s.workers w = .returned := by
  have hlock := h.locked.qLock_eq_none hhalt
  have hfree : ¬ s.owner.HoldsLock := by
    rcases h.halted_owner hhalt hlock with heq | heq | heq | heq | ⟨next, heq⟩ <;>
      rw [heq] <;> exact id
  rcases halted_worker hhalt hlock h.locked hw with heq | heq | ⟨-, hholds⟩
  · exact .inl heq
  · exact .inr heq
  · exact absurd hholds hfree

theorem Sound.all_waiting (h : Sound s) (hhalt : s.Halted)
    (halive : AllAlive s.threads s.workers) : ∀ w < s.threads, s.workers w = .waiting := by
  intro w hw
  rcases h.waiting_or_returned hhalt hw with heq | heq
  · exact heq
  · have hworker := halive w hw
    rw [heq] at hworker
    exact hworker.elim

theorem Sound.not_waitingUp (h : Sound s) (hhalt : s.Halted) : s.owner ≠ .waitingUp := by
  intro howner
  have hshape := h.phase.shape
  rw [howner] at hshape
  have hwaiting := h.all_waiting hhalt hshape.2.2.2
  rcases h.owner.up howner with hless | ⟨w, hw, heq⟩
  · have hall : total s.threads Worker.isUp s.workers = s.threads * 1 :=
      total_eq_of_all fun w hw => by rw [hwaiting w hw]; rfl
    have hcounted : s.runningThreads = total s.threads Worker.isUp s.workers := h.counted
    omega
  · cases heq.symm.trans (hwaiting w hw)

theorem Sound.not_waitingDown (h : Sound s) (hhalt : s.Halted) (next : Option Nat) :
    s.owner ≠ .waitingDown next := by
  intro howner
  have hnotified := h.owner.notified (by rw [howner]; trivial)
  have hreturned : ∀ w < s.threads, s.workers w = .returned := by
    intro w hw
    exact (h.waiting_or_returned hhalt hw).resolve_left (hnotified w hw)
  rcases h.owner.down next howner with hmore | ⟨w, hw, heq⟩
  · rw [h.counted, total_eq_zero_iff.mpr fun w hw => by rw [hreturned w hw]; rfl] at hmore
    exact Nat.lt_irrefl 0 hmore
  · cases heq.symm.trans (hreturned w hw)

theorem halted_client (hhalt : s.Halted) (hlock : s.qLock = none) (c : Nat) :
    s.clients c = .idle ∨ ∃ since, s.clients c = .waiting since := by
  cases hclient : s.clients c with
  | idle => exact .inl rfl
  | push => exact absurd (Step.push hclient hlock) (hhalt _).1
  | notifyOne =>
    exfalso
    by_cases hworkers : ∃ w < s.threads, s.workers w = .waiting
    · obtain ⟨w, hw, hworker⟩ := hworkers
      exact (hhalt _).1 (Step.notifyWorker hclient hw hworker)
    · by_cases hclients : ∃ d since, s.clients d = .waiting since
      · obtain ⟨d, since, hother⟩ := hclients
        exact (hhalt _).2 (Step.notifyClient hclient hother)
      · refine (hhalt _).1 (Step.notifyNone hclient ?_ ?_)
        · exact fun w hw heq => hworkers ⟨w, hw, heq⟩
        · exact fun d since heq => hclients ⟨d, since, heq⟩
  | flush since =>
    by_cases hbusy : s.q ≠ [] ∨ 0 < s.runningTasks
    · exact absurd (Step.flushWait hclient hlock hbusy) (hhalt _).1
    · obtain ⟨hq, hrunning⟩ := not_or.mp hbusy
      have hzero := Nat.eq_zero_of_not_pos hrunning
      exact absurd (Step.flushReturn hclient hlock (not_not.mp hq) hzero) (hhalt _).1
  | waiting since => exact .inr ⟨since, rfl⟩

theorem Sound.not_waiting (h : Sound s) (hhalt : s.Halted) (c since : Nat) :
    s.clients c ≠ .waiting since := by
  intro hclient
  have hlock := h.locked.qLock_eq_none hhalt
  have hwaiting := h.all_waiting hhalt (h.phase.running hclient nofun).2.1
  have hrunning : s.runningTasks = 0 := by
    rw [h.tasks.running, total_eq_zero_iff]
    intro w hw
    rw [hwaiting w hw]
    rfl
  have hq : s.q ≠ [] := by
    rcases h.queue.flush c since hclient with hq | hmore | ⟨w, hw, heq⟩
    · exact hq
    · omega
    · cases heq.symm.trans (hwaiting w hw)
  rcases h.queue.work hq with ⟨w, hw, hawake⟩ | ⟨d, hd⟩
  · exact hawake.2 (hwaiting w hw)
  · rcases halted_client hhalt hlock d with heq | ⟨since', heq⟩
    · cases hd.symm.trans heq
    · cases hd.symm.trans heq

theorem Sound.not_stuck (h : Sound s) : ¬ s.Stuck := by
  rintro ⟨hinside, hhalt⟩
  have hlock := h.locked.qLock_eq_none hhalt
  rcases hinside with ⟨c, hc⟩ | ⟨hidle, hdestroyed, hterminated⟩
  · rcases halted_client hhalt hlock c with heq | ⟨since, heq⟩
    · exact hc heq
    · exact h.not_waiting hhalt c since heq
  · rcases h.halted_owner hhalt hlock with heq | heq | heq | heq | ⟨next, heq⟩
    · exact hidle heq
    · exact hdestroyed heq
    · exact hterminated heq
    · exact h.not_waitingUp hhalt heq
    · exact h.not_waitingDown hhalt next heq

end Sserialize.ThreadPool
