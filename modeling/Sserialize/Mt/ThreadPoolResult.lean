import Sserialize.Mt.ThreadPoolProgress

namespace Sserialize.ThreadPool

open WorkerPool
open Function (update update_of_ne update_eq_self update_idem)

variable {s s' p : State} {kind : Kind}

def GoodStep (s s' : State) : Prop := ∃ kind, Step kind s s' ∧ ¬ Disturbs kind s

theorem sound_of_run {numThreads : Nat} (h : 0 < numThreads)
    (hrun : Relation.ReflTransGen GoodStep (State.construct numThreads) s) : Sound s := by
  refine run_invariant ?_ hrun (Sound.construct h)
  rintro p q hp ⟨kind, hstep, hgood⟩
  exact hp.step hstep hgood

/-- In all runs a task is executed at most once, and what was scheduled before a call of
`flushQueue` is finished when it returns. In the good ones nobody is stuck. -/
theorem calls_complete {numThreads : Nat} (h : 0 < numThreads) :
    (∀ s, Relation.ReflTransGen AnyStep (State.construct numThreads) s →
      s.executed.Nodup ∧
      ∀ s' c since, AnyStep s s' → FlushReturns c since s s' → ∀ t < since, t ∈ s'.finished) ∧
    ∀ s, Relation.ReflTransGen GoodStep (State.construct numThreads) s → ¬ s.Stuck := by
  refine ⟨fun s hrun => ?_, fun s hrun => (sound_of_run h hrun).not_stuck⟩
  have htasks := tasks_of_run hrun
  refine ⟨htasks.nodup_executed, ?_⟩
  rintro s' c since ⟨kind, hstep⟩ hreturns
  exact htasks.finished_of_flushReturns hstep hreturns

theorem halted_of_resting
    (hworkers : ∀ w < s.threads, s.workers w = .waiting ∨ s.workers w = .returned)
    (hclients : ∀ c, s.clients c = .idle ∨ ∃ since, s.clients c = .waiting since)
    (howner : s.owner = .idle ∨ s.owner = .waitingUp) : s.Halted := by
  have hworker : ∀ {w worker}, w < s.threads → s.workers w = worker →
      worker = .waiting ∨ worker = .returned := by
    rintro w worker hw rfl
    exact hworkers w hw
  have hclient : ∀ {c client}, s.clients c = client →
      client = .idle ∨ ∃ since, client = .waiting since := by
    rintro c client rfl
    exact hclients c
  have howner' : ∀ {owner}, s.owner = owner → owner = .idle ∨ owner = .waitingUp := by
    rintro owner rfl
    exact howner
  intro s'
  constructor
  · intro hstep
    cases hstep with
    | push h _ | notifyWorker h _ _ | notifyNone h _ _ | flushWait h _ _ | flushReturn h _ _ _ =>
      simpa using hclient h
    | _ h =>
      first
      | rcases hworker h (by assumption) with heq | heq <;> cases heq
      | simpa using howner' h
  · intro hstep
    cases hstep with
    | notifyClient h _ => simpa using hclient h

def StepWithout (avoid : Kind) (s s' : State) : Prop := ∃ kind, kind ≠ avoid ∧ Step kind s s'

def lone (worker : Worker) : Nat → Worker := update (fun _ => .created) 0 worker

theorem update_lone (old new : Worker) : update (lone old) 0 new = lone new :=
  update_idem ..

theorem lone_created : lone .created = fun _ => .created :=
  update_eq_self 0 (fun _ => Worker.created)

def boot (runningThreads threads : Nat) (worker : Worker) (owner : Owner) : State :=
  { State.construct 1 with
    online := true, runningThreads, threads, workers := lone worker, owner }

theorem Step.of_eq (h : Step kind s p) (heq : p = s') : Step kind s s' := by
  rwa [← heq]

section Run

/-! The runs below are of several step relations: all of them have the steps of a thread in the pool
and the calls of the clients. -/

variable {R : State → State → Prop} (hrun : ∀ {s s'}, Step .run s s' → R s s')
  (hcall : ∀ {s s'}, Step .call s s' → R s s')

include hrun in
theorem boot_run : Relation.ReflTransGen R (State.construct 1)
    { boot 1 1 .loop .idle with usable := true } := by
  have hstart : Step .run (State.construct 1) (boot 0 0 .created (.spawn 1)) :=
    (Step.start rfl).of_eq (by rw [boot, lone_created]; rfl)
  have hspawn : Step .run (boot 0 0 .created (.spawn 1)) (boot 0 1 .created (.spawn 1)) :=
    (Step.spawn rfl Nat.zero_lt_one).of_eq (by simp only [boot, State.setWorker, update_lone])
  have hspawned : Step .run (boot 0 1 .created (.spawn 1)) (boot 0 1 .created .awaitUp) :=
    Step.spawned rfl (Nat.le_refl 1)
  have hup : Step .run (boot 0 1 .created .awaitUp) (boot 1 1 .notifyUp .awaitUp) :=
    (Step.up Nat.zero_lt_one rfl id).of_eq (by simp only [boot, State.setWorker, update_lone])
  have hnotifyUp : Step .run (boot 1 1 .notifyUp .awaitUp) (boot 1 1 .loop .awaitUp) :=
    (Step.notifyUp Nat.zero_lt_one rfl).of_eq
      (by simp only [boot, State.setWorker, update_lone, notifyOwner])
  have hstarted : Step .run (boot 1 1 .loop .awaitUp)
      { boot 1 1 .loop .idle with usable := true } :=
    Step.started rfl (Nat.le_refl 1)
  exact .head (hrun hstart) <| .head (hrun hspawn) <| .head (hrun hspawned) <|
    .head (hrun hup) <| .head (hrun hnotifyUp) <| .single (hrun hstarted)

def pair (first second : Client) : Nat → Client :=
  update (update (fun _ => .idle) 0 first) 1 second

variable (first second client : Client)

theorem update_pair_first : update (pair first second) 0 client = pair client second := by
  rw [pair, Function.update_comm Nat.one_ne_zero, update_idem]
  rfl

theorem update_pair_second : update (pair first second) 1 client = pair first client :=
  update_idem ..

theorem pair_idle : pair .idle .idle = fun _ => .idle := by
  rw [pair, update_eq_self, update_eq_self]

/-- One worker and two clients. -/
def serving (worker : Worker) (runningTasks : Nat) (q : List Nat) (scheduled : Nat)
    (first second : Client) : State :=
  { boot 1 1 worker .idle with
    usable := true, runningTasks, q, scheduled, clients := pair first second }

variable {worker : Worker} {runningTasks scheduled since : Nat} {q : List Nat}

theorem serving_sheduleTask : Step .call (serving worker runningTasks q scheduled .idle second)
    (serving worker runningTasks q scheduled .push second) :=
  (Step.sheduleTask (c := 0) rfl rfl).of_eq
    (by simp only [serving, State.setClient, update_pair_first])

theorem serving_push : Step .run (serving worker runningTasks q scheduled .push second)
    (serving worker runningTasks (q ++ [scheduled]) (scheduled + 1) .notifyOne second) :=
  (Step.push (c := 0) rfl rfl).of_eq
    (by simp only [serving, State.setClient, update_pair_first])

theorem serving_flushQueue : Step .call (serving worker runningTasks q scheduled first .idle)
    (serving worker runningTasks q scheduled first (.flush scheduled)) :=
  (Step.flushQueue (c := 1) rfl rfl).of_eq
    (by simp only [serving, State.setClient, update_pair_second])

theorem serving_flushWait (hq : q ≠ []) :
    Step .run (serving worker runningTasks q scheduled first (.flush since))
      (serving worker runningTasks q scheduled first (.waiting since)) :=
  (Step.flushWait (c := 1) rfl rfl (.inl hq)).of_eq
    (by simp only [serving, State.setClient, update_pair_second])

include hrun hcall in
/-- The first task, and behind it a client that flushes the queue. -/
theorem queued_run : Relation.ReflTransGen R (State.construct 1)
    (serving .waiting 0 [0] 1 .notifyOne (.waiting 1)) := by
  have hloop : Step .run { boot 1 1 .loop .idle with usable := true }
      { boot 1 1 .lockQueue .idle with usable := true } :=
    (Step.loopOnline Nat.zero_lt_one rfl rfl).of_eq
      (by simp only [boot, State.setWorker, update_lone])
  have hlock : Step .run { boot 1 1 .lockQueue .idle with usable := true }
      { boot 1 1 .locked .idle with usable := true, qLock := some 0 } :=
    (Step.lockQueue Nat.zero_lt_one rfl rfl).of_eq
      (by simp only [boot, State.setWorker, update_lone])
  have hempty : Step .run { boot 1 1 .locked .idle with usable := true, qLock := some 0 }
      { boot 1 1 .toWait .idle with usable := true, qLock := some 0 } :=
    (Step.empty Nat.zero_lt_one rfl rfl rfl).of_eq
      (by simp only [boot, State.setWorker, update_lone])
  have hwait : Step .run { boot 1 1 .toWait .idle with usable := true, qLock := some 0 }
      (serving .waiting 0 [] 0 .idle .idle) :=
    (Step.wait Nat.zero_lt_one rfl).of_eq
      (by simp only [serving, boot, State.construct, State.setWorker, update_lone, pair_idle])
  exact (boot_run hrun).trans <| .head (hrun hloop) <| .head (hrun hlock) <|
    .head (hrun hempty) <| .head (hrun hwait) <| .head (hcall (serving_sheduleTask .idle)) <|
    .head (hrun (serving_push .idle)) <| .head (hcall (serving_flushQueue .notifyOne)) <|
    .single (hrun (serving_flushWait .notifyOne (List.cons_ne_nil 0 [])))

include hrun hcall in
/-- The notification goes to the worker, which takes the task. -/
theorem taken_run : Relation.ReflTransGen R (State.construct 1)
    (serving (.taken 0) 1 [] 1 .idle (.waiting 1)) := by
  have hnotify : Step .run (serving .waiting 0 [0] 1 .notifyOne (.waiting 1))
      (serving .woken 0 [0] 1 .idle (.waiting 1)) :=
    (Step.notifyWorker (c := 0) rfl Nat.zero_lt_one rfl).of_eq
      (by simp only [serving, boot, State.setClient, State.setWorker, update_pair_first,
        update_lone])
  have hrelock : Step .run (serving .woken 0 [0] 1 .idle (.waiting 1))
      { serving .relocked 0 [0] 1 .idle (.waiting 1) with qLock := some 0 } :=
    (Step.relock Nat.zero_lt_one rfl rfl).of_eq
      (by simp only [serving, boot, State.setWorker, update_lone])
  have htake : Step .run { serving .relocked 0 [0] 1 .idle (.waiting 1) with qLock := some 0 }
      (serving (.taken 0) 1 [] 1 .idle (.waiting 1)) :=
    (Step.take Nat.zero_lt_one rfl rfl rfl).of_eq
      (by simp only [serving, boot, State.construct, State.setWorker, update_lone])
  exact (queued_run hrun hcall).trans <| .head (hrun hnotify) <| .head (hrun hrelock) <|
    .single (hrun htake)

include hrun hcall in
/-- A task is taken and another one is in the queue. -/
theorem twoTasks_run : Relation.ReflTransGen R (State.construct 1)
    (serving (.taken 0) 1 [1] 2 .notifyOne (.waiting 1)) :=
  (taken_run hrun hcall).trans <| .head (hcall (serving_sheduleTask (.waiting 1))) <|
    .single (hrun (serving_push (.waiting 1)))

include hrun hcall in
/-- The task is done and the client is back from its wait. -/
theorem done_run : Relation.ReflTransGen R (State.construct 1)
    { serving .loop 0 [] 1 .idle (.flush 1) with executed := [0], finished := [0] } := by
  have hbegin : Step .run (serving (.taken 0) 1 [] 1 .idle (.waiting 1))
      { serving (.inTask 0) 1 [] 1 .idle (.waiting 1) with executed := [0] } :=
    (Step.beginTask Nat.zero_lt_one rfl).of_eq
      (by simp only [serving, boot, State.construct, State.setWorker, update_lone,
        List.nil_append])
  have hend : Step .run { serving (.inTask 0) 1 [] 1 .idle (.waiting 1) with executed := [0] }
      { serving .finish 1 [] 1 .idle (.waiting 1) with executed := [0], finished := [0] } :=
    (Step.endTask Nat.zero_lt_one rfl).of_eq
      (by simp only [serving, boot, State.construct, State.setWorker, update_lone,
        List.nil_append])
  have hfinish : Step .run
      { serving .finish 1 [] 1 .idle (.waiting 1) with executed := [0], finished := [0] }
      { serving .notifyDone 0 [] 1 .idle (.waiting 1) with executed := [0], finished := [0] } :=
    (Step.finish Nat.zero_lt_one rfl rfl).of_eq
      (by simp only [serving, boot, State.setWorker, update_lone])
  have hworkers : wakeWorkers (lone .loop) = lone .loop := by
    funext w
    by_cases hw : w = 0
    · rw [hw]
      rfl
    · simp [wakeWorkers, lone, update_of_ne hw]
  have hclients : wakeClients (pair .idle (.waiting 1)) = pair .idle (.flush 1) := by
    funext c
    by_cases hc : c = 1
    · rw [hc]
      rfl
    · simp [wakeClients, pair, update_of_ne hc, update_eq_self]
  have hnotifyDone : Step .run
      { serving .notifyDone 0 [] 1 .idle (.waiting 1) with executed := [0], finished := [0] }
      { serving .loop 0 [] 1 .idle (.flush 1) with executed := [0], finished := [0] } :=
    (Step.notifyDone Nat.zero_lt_one rfl).of_eq
      (by simp only [serving, boot, update_lone, hworkers, hclients])
  exact (taken_run hrun hcall).trans <| .head (hrun hbegin) <| .head (hrun hend) <|
    .head (hrun hfinish) <| .single (hrun hnotifyDone)

end Run


/-- `numThreads(1)`: the thread that has returned is still in `m_threads`, so no other is started
and the owner waits for one. -/
theorem numThreads_stuck : ∃ s, Relation.ReflTransGen (StepWithout .wakeClient)
    (State.construct 1) s ∧ s.Stuck := by
  have hnumThreads : Step .callNumThreads { boot 1 1 .loop .idle with usable := true }
      { boot 1 1 .loop (.stop (some 1)) with usable := true } :=
    Step.numThreads rfl Nat.zero_lt_one
  have hstop : Step .run { boot 1 1 .loop (.stop (some 1)) with usable := true }
      { boot 1 1 .loop (.awaitDown (some 1)) with usable := true, online := false } :=
    Step.stop rfl
  have hloop : Step .run
      { boot 1 1 .loop (.awaitDown (some 1)) with usable := true, online := false }
      { boot 1 1 .leave (.awaitDown (some 1)) with usable := true, online := false } :=
    (Step.loopOffline Nat.zero_lt_one rfl rfl).of_eq
      (by simp only [boot, State.setWorker, update_lone])
  have hleave : Step .run
      { boot 1 1 .leave (.awaitDown (some 1)) with usable := true, online := false }
      { boot 0 1 .notifyLeft (.awaitDown (some 1)) with usable := true, online := false } :=
    (Step.leave Nat.zero_lt_one rfl id).of_eq (by simp only [boot, State.setWorker, update_lone])
  have hnotifyLeft : Step .run
      { boot 0 1 .notifyLeft (.awaitDown (some 1)) with usable := true, online := false }
      { boot 0 1 .returned (.awaitDown (some 1)) with usable := true, online := false } :=
    (Step.notifyLeft Nat.zero_lt_one rfl).of_eq
      (by simp only [boot, State.setWorker, update_lone, notifyOwner])
  have hallDown : Step .run
      { boot 0 1 .returned (.awaitDown (some 1)) with usable := true, online := false }
      { boot 0 1 .returned (.join (some 1)) with usable := true, online := false } :=
    Step.allDown rfl rfl
  have hreturned : ∀ w < 1, lone .returned w = .returned := by
    intro w hw
    rw [Nat.lt_one_iff.mp hw]
    rfl
  have hjoin : Step .run
      { boot 0 1 .returned (.join (some 1)) with usable := true, online := false }
      { boot 0 1 .returned (.start 1) with usable := true, online := false, joined := 1 } :=
    @Step.join _ (some 1) rfl hreturned rfl
  have hstart : Step .run
      { boot 0 1 .returned (.start 1) with usable := true, online := false, joined := 1 }
      { boot 0 1 .returned (.spawn 1) with usable := true, joined := 1 } :=
    Step.start rfl
  have hspawned : Step .run { boot 0 1 .returned (.spawn 1) with usable := true, joined := 1 }
      { boot 0 1 .returned .awaitUp with usable := true, joined := 1 } :=
    Step.spawned rfl (Nat.le_refl 1)
  have hwaitUp : Step .run { boot 0 1 .returned .awaitUp with usable := true, joined := 1 }
      { boot 0 1 .returned .waitingUp with usable := true, joined := 1 } :=
    Step.waitUp rfl Nat.zero_lt_one
  refine ⟨_, (boot_run fun hstep => ⟨.run, nofun, hstep⟩).trans
    (.head ⟨.callNumThreads, nofun, hnumThreads⟩ <| .head ⟨.run, nofun, hstop⟩ <|
      .head ⟨.run, nofun, hloop⟩ <| .head ⟨.run, nofun, hleave⟩ <|
      .head ⟨.run, nofun, hnotifyLeft⟩ <| .head ⟨.run, nofun, hallDown⟩ <|
      .head ⟨.run, nofun, hjoin⟩ <| .head ⟨.run, nofun, hstart⟩ <| .head ⟨.run, nofun, hspawned⟩ <|
      .single ⟨.run, nofun, hwaitUp⟩), ?_, ?_⟩
  · exact .inr ⟨nofun, nofun, nofun⟩
  · exact halted_of_resting (fun w hw => .inr (hreturned w hw)) (fun _ => .inl rfl) (.inr rfl)

/-- A task is scheduled for the worker that waits, and the notification goes to a client in
`flushQueue`: it finds the task and waits again. -/
theorem flushQueue_stuck : ∃ s, Relation.ReflTransGen (StepWithout .callNumThreads)
    (State.construct 1) s ∧ s.Stuck := by
  have hnotify : Step .wakeClient (serving .waiting 0 [0] 1 .notifyOne (.waiting 1))
      (serving .waiting 0 [0] 1 .idle (.flush 1)) :=
    (Step.notifyClient (c := 0) (d := 1) rfl rfl).of_eq
      (by simp only [serving, State.setClient, update_pair_first, update_pair_second])
  refine ⟨_, (queued_run (fun hstep => ⟨.run, nofun, hstep⟩)
    fun hstep => ⟨.call, nofun, hstep⟩).trans (.head ⟨.wakeClient, nofun, hnotify⟩ <|
      .single ⟨.run, nofun, serving_flushWait .idle (List.cons_ne_nil 0 [])⟩), ?_, ?_⟩
  · exact .inl ⟨1, nofun⟩
  · refine halted_of_resting (fun w hw => .inl ?_) (fun c => ?_) (.inl rfl)
    · rw [Nat.lt_one_iff.mp hw]
      rfl
    · change pair .idle (.waiting 1) c = .idle ∨ ∃ since, pair .idle (.waiting 1) c = .waiting since
      by_cases hc : c = 1
      · subst hc
        exact .inr ⟨1, rfl⟩
      · rw [pair, update_of_ne hc, update_eq_self]
        exact .inl rfl

/-- Neither of the two is needed for the other to get the pool stuck. -/
theorem run_stuck :
    (∃ s, Relation.ReflTransGen (StepWithout .wakeClient) (State.construct 1) s ∧ s.Stuck) ∧
    ∃ s, Relation.ReflTransGen (StepWithout .callNumThreads) (State.construct 1) s ∧ s.Stuck :=
  ⟨numThreads_stuck, flushQueue_stuck⟩

/-- The client returns from `flushQueue` behind its task, and nobody was stuck. -/
theorem calls_complete_oneTask : ∃ s s', Relation.ReflTransGen GoodStep (State.construct 1) s ∧
    AnyStep s s' ∧ FlushReturns 1 1 s s' ∧ 0 ∈ s'.finished ∧ s.executed.Nodup ∧ ¬ s.Stuck := by
  have hgood : Relation.ReflTransGen GoodStep (State.construct 1) _ :=
    done_run (fun hstep => ⟨.run, hstep, by simp [Disturbs]⟩)
      fun hstep => ⟨.call, hstep, by simp [Disturbs]⟩
  have hany : Relation.ReflTransGen AnyStep (State.construct 1) _ :=
    done_run (fun hstep => ⟨.run, hstep⟩) fun hstep => ⟨.call, hstep⟩
  have hreturn := Step.flushReturn (c := 1)
    (s := { serving .loop 0 [] 1 .idle (.flush 1) with executed := [0], finished := [0] })
    rfl rfl rfl rfl
  obtain ⟨hnodup, hflush⟩ := (calls_complete Nat.zero_lt_one).1 _ hany
  exact ⟨_, _, hgood, ⟨.run, hreturn⟩, ⟨rfl, rfl⟩,
    hflush _ 1 1 ⟨.run, hreturn⟩ ⟨rfl, rfl⟩ 0 Nat.zero_lt_one, hnodup,
    (calls_complete Nat.zero_lt_one).2 _ hgood⟩

/-- The queue is what was scheduled last, in the order of scheduling. -/
theorem queue_step (h : ∃ first n, s.q = List.range' first n ∧ s.scheduled = first + n)
    (hstep : Step kind s s') :
    ∃ first n, s'.q = List.range' first n ∧ s'.scheduled = first + n := by
  obtain ⟨first, n, hrange, hscheduled⟩ := h
  cases hstep with
  | take _ _ _ hq =>
    cases n with
    | zero => cases hq.symm.trans hrange
    | succ n =>
      obtain ⟨-, htail⟩ := List.cons.inj (hq.symm.trans hrange)
      exact ⟨first + 1, n, htail, hscheduled.trans (by omega)⟩
  | @push s c _ _ =>
    refine ⟨first, n + 1, ?_, congrArg (· + 1) hscheduled⟩
    rw [List.range'_1_concat, ← hrange, ← hscheduled]
  | _ => exact ⟨first, n, hrange, hscheduled⟩

/-- First in, first out: a task in front of those in the queue is begun, or a worker has it. -/
theorem taken_inOrder {numThreads : Nat}
    (hrun : Relation.ReflTransGen AnyStep (State.construct numThreads) s) :
    s.q = List.range' (s.scheduled - s.q.length) s.q.length ∧
    ∀ t, t < s.scheduled - s.q.length ↔
      t ∈ s.executed ∨ ∃ w < s.threads, s.workers w = .taken t := by
  obtain ⟨first, n, hrange, hscheduled⟩ := run_invariant
    (fun p q hp hstep => queue_step hp hstep.choose_spec) hrun ⟨0, 0, rfl, rfl⟩
  have hfirst : s.scheduled - s.q.length = first := by
    rw [hrange, List.length_range']
    omega
  rw [hfirst]
  refine ⟨by rw [hrange, List.length_range'], fun t => ?_⟩
  have hone := (tasks_of_run hrun).executed t
  have hqueue : s.q.count t = if first ≤ t ∧ t < first + n then 1 else 0 := by
    simp only [hrange, List.Nodup.count List.nodup_range', List.mem_range'_1]
  have hholder : (∃ w < s.threads, s.workers w = .taken t) ↔
      total s.threads (Worker.unbegun t) s.workers ≠ 0 := by
    rw [ne_eq, total_eq_zero_iff]
    push Not
    refine exists_congr fun w => and_congr_right fun _ => ?_
    cases s.workers w <;> simp [Worker.unbegun]
  rw [hholder, ← List.count_pos_iff]
  split at hone <;> split at hqueue <;> omega

theorem taken_inOrder_twoTasks : ∃ s, Relation.ReflTransGen AnyStep (State.construct 1) s ∧
    s.q = [1] ∧ ∀ t, t < 1 ↔ t ∈ s.executed ∨ ∃ w < s.threads, s.workers w = .taken t := by
  have hrun : Relation.ReflTransGen AnyStep (State.construct 1) _ :=
    twoTasks_run (fun hstep => ⟨.run, hstep⟩) fun hstep => ⟨.call, hstep⟩
  exact ⟨_, hrun, taken_inOrder hrun⟩

/-- The lock of the queue has one holder, and both counters count workers of the pool: neither is
zero where a worker decrements it. -/
theorem counters_right {numThreads : Nat}
    (hrun : Relation.ReflTransGen AnyStep (State.construct numThreads) s) :
    (∀ v < s.threads, ∀ w < s.threads,
      (s.workers v).HoldsLock → (s.workers w).HoldsLock → v = w) ∧
    s.runningTasks = total s.threads Worker.busy s.workers ∧
    s.runningThreads = total s.threads Worker.isUp s.workers ∧
    s.runningTasks ≤ s.threads ∧ s.runningThreads ≤ s.threads ∧
    (s.runningTasks = 0 ↔ ∀ w < s.threads, (s.workers w).busy = 0) ∧
    ∀ w < s.threads, (s.workers w = .finish → 0 < s.runningTasks) ∧
      (s.workers w = .leave → 0 < s.runningThreads) := by
  have hlocked : Locked s := run_invariant (fun p q hp hstep => hp.step hstep.choose_spec) hrun
    ⟨nofun, nofun, nofun⟩
  have hcounted : Counted s := run_invariant (fun p q hp hstep => hp.step hstep.choose_spec) hrun
    rfl
  have hrunning := (tasks_of_run hrun).running
  refine ⟨fun v hv w hw hholds hholds' => ?_, hrunning, hcounted, ?_, ?_, ?_, fun w hw => ⟨?_, ?_⟩⟩
  · rw [hlocked.holder v hv] at hholds
    rw [hlocked.holder w hw, hholds] at hholds'
    exact Option.some.inj hholds'
  · rw [hrunning]
    exact total_le (fun worker => by cases worker <;> simp [Worker.busy]) _ _
  · rw [hcounted]
    exact total_le Worker.isUp_le _ _
  · rw [hrunning, total_eq_zero_iff]
  · intro hfinish
    have hbusy : (s.workers w).busy = 1 := congrArg Worker.busy hfinish
    rw [hrunning]
    exact Nat.pos_of_ne_zero fun hzero => by simp [total_eq_zero_iff.mp hzero w hw] at hbusy
  · intro hleave
    have hup : (s.workers w).isUp = 1 := congrArg Worker.isUp hleave
    rw [hcounted]
    exact Nat.pos_of_ne_zero fun hzero => by simp [total_eq_zero_iff.mp hzero w hw] at hup

theorem counters_right_twoTasks : ∃ s, Relation.ReflTransGen AnyStep (State.construct 1) s ∧
    s.runningTasks = 1 ∧ total s.threads Worker.busy s.workers = 1 ∧
    total s.threads Worker.isUp s.workers = 1 := by
  have hrun : Relation.ReflTransGen AnyStep (State.construct 1) _ :=
    twoTasks_run (fun hstep => ⟨.run, hstep⟩) fun hstep => ⟨.call, hstep⟩
  obtain ⟨-, hbusy, hup, -⟩ := counters_right hrun
  exact ⟨_, hrun, rfl, hbusy.symm, hup.symm⟩

end Sserialize.ThreadPool
