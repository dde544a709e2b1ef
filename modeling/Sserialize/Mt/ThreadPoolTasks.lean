import Sserialize.Mt.ThreadPool

namespace Sserialize.ThreadPool

open WorkerPool
open Function (update update_self update_of_ne)

variable {s s' : State} {kind : Kind}

namespace Worker

def unbegun (t : Nat) : Worker → Nat
  | taken t' => if t' = t then 1 else 0
  | _ => 0

def unfinished (t : Nat) : Worker → Nat
  | taken t' => if t' = t then 1 else 0
  | inTask t' => if t' = t then 1 else 0
  | _ => 0

/-- The task counts in `runningTasks`. -/
def busy : Worker → Nat
  | taken _ => 1
  | inTask _ => 1
  | finish => 1
  | _ => 0

def Free : Worker → Prop
  | taken _ => False
  | inTask _ => False
  | finish => False
  | _ => True

variable {worker : Worker}

theorem Free.unbegun_eq (h : worker.Free) (t : Nat) : worker.unbegun t = 0 := by
  cases worker <;> first | rfl | exact h.elim

theorem Free.unfinished_eq (h : worker.Free) (t : Nat) : worker.unfinished t = 0 := by
  cases worker <;> first | rfl | exact h.elim

theorem Free.busy_eq (h : worker.Free) : worker.busy = 0 := by
  cases worker <;> first | rfl | exact h.elim

def Keeps (old new : Worker) : Prop := new = old ∨ new.Free ∧ old.Free

theorem Keeps.trans {a b c : Worker} (hab : Keeps a b) (hbc : Keeps b c) : Keeps a c := by
  rcases hbc with rfl | ⟨hc, hb⟩
  · exact hab
  · rcases hab with rfl | ⟨-, ha⟩
    · exact .inr ⟨hc, hb⟩
    · exact .inr ⟨hc, ha⟩

end Worker

/-- A task in front of `scheduled` is in one place. -/
structure Tasks (s : State) : Prop where
  executed : ∀ t, s.executed.count t + total s.threads (Worker.unbegun t) s.workers + s.q.count t =
    if t < s.scheduled then 1 else 0
  finished : ∀ t, s.finished.count t + total s.threads (Worker.unfinished t) s.workers +
    s.q.count t = if t < s.scheduled then 1 else 0
  running : s.runningTasks = total s.threads Worker.busy s.workers
  since : ∀ c since, s.clients c = .flush since ∨ s.clients c = .waiting since →
    since ≤ s.scheduled

theorem Tasks.construct (numThreads : Nat) : Tasks (State.construct numThreads) where
  executed := fun _ => rfl
  finished := fun _ => rfl
  running := rfl
  since := fun _ _ h => nomatch h

theorem totals_of_free {n : Nat} {f g : Nat → Worker}
    (h : ∀ w < n, (f w).Keeps (g w)) :
    (∀ t, total n (Worker.unbegun t) g = total n (Worker.unbegun t) f) ∧
    (∀ t, total n (Worker.unfinished t) g = total n (Worker.unfinished t) f) ∧
    total n Worker.busy g = total n Worker.busy f := by
  refine ⟨fun t => total_congr ?_, fun t => total_congr ?_, total_congr ?_⟩
  all_goals
    intro w hw
    rcases h w hw with heq | ⟨hnew, hold⟩
    · rw [heq]
  · rw [hnew.unbegun_eq, hold.unbegun_eq]
  · rw [hnew.unfinished_eq, hold.unfinished_eq]
  · rw [hnew.busy_eq, hold.busy_eq]

theorem update_free {workers : Nat → Worker} {w n : Nat} {old : Worker} (worker : Worker)
    (hworker : workers w = old) (hnew : worker.Free) (hold : old.Free) :
    ∀ v < n, (workers v).Keeps (update workers w worker v) := by
  intro v _
  by_cases hvw : v = w
  · subst hvw
    rw [update_self, hworker]
    exact .inr ⟨hnew, hold⟩
  · rw [update_of_ne hvw]
    exact .inl rfl

theorem wakeWorkers_free {workers : Nat → Worker} (v : Nat) :
    (workers v).Keeps (wakeWorkers workers v) := by
  unfold wakeWorkers
  cases workers v <;> first | exact .inl rfl | exact .inr ⟨trivial, trivial⟩

theorem Tasks.keep (h : Tasks s) (hq : s'.q = s.q) (hscheduled : s'.scheduled = s.scheduled)
    (hexecuted : s'.executed = s.executed) (hfinished : s'.finished = s.finished)
    (hrunning : s'.runningTasks = s.runningTasks) (hthreads : s'.threads = s.threads)
    (hworkers : ∀ w < s.threads, (s.workers w).Keeps (s'.workers w))
    (hclients : ∀ c since, s'.clients c = .flush since ∨ s'.clients c = .waiting since →
      since ≤ s.scheduled) : Tasks s' := by
  obtain ⟨hunbegun, hunfinished, hbusy⟩ := totals_of_free hworkers
  exact {
    executed := fun t => by
      rw [hexecuted, hthreads, hq, hscheduled, hunbegun]
      exact h.executed t
    finished := fun t => by
      rw [hfinished, hthreads, hq, hscheduled, hunfinished]
      exact h.finished t
    running := by
      rw [hrunning, hthreads, hbusy]
      exact h.running
    since := by
      rw [hscheduled]
      exact hclients }

theorem Tasks.keepWorker (h : Tasks s) (worker : Worker) {w : Nat} {old : Worker}
    (hworker : s.workers w = old) (hnew : worker.Free) (hold : old.Free)
    {runningThreads : Nat} {qLock : Option Nat} {owner : Owner} :
    Tasks { s.setWorker w worker with runningThreads, qLock, owner } :=
  h.keep rfl rfl rfl rfl rfl rfl (update_free worker hworker hnew hold) h.since

theorem Tasks.keepClient (h : Tasks s) {c : Nat} {client : Client}
    (hclient : ∀ since, client = .flush since ∨ client = .waiting since → since ≤ s.scheduled) :
    Tasks (s.setClient c client) := by
  refine h.keep rfl rfl rfl rfl rfl rfl (fun _ _ => .inl rfl) ?_
  intro d since hd
  change update s.clients c client d = _ ∨ update s.clients c client d = _ at hd
  by_cases hdc : d = c
  · subst hdc
    rw [update_self] at hd
    exact hclient since hd
  · rw [update_of_ne hdc] at hd
    exact h.since d since hd

variable {c since : Nat}

theorem wakeClients_since {clients : Nat → Client}
    (h : wakeClients clients c = .flush since ∨ wakeClients clients c = .waiting since) :
    clients c = .flush since ∨ clients c = .waiting since := by
  unfold wakeClients at h
  cases hclient : clients c with
  | waiting since' =>
    simp only [hclient, reduceCtorEq, or_false, Client.flush.injEq] at h
    rw [h]
    exact .inr rfl
  | _ =>
    rw [hclient] at h
    exact h

theorem count_append_singleton (l : List Nat) (t t' : Nat) :
    (l ++ [t]).count t' = l.count t' + if t = t' then 1 else 0 := by
  rw [List.count_append, List.count_singleton]
  simp

theorem Tasks.take (h : Tasks s) {w t : Nat} {q : List Nat} (hw : w < s.threads)
    (hworker : s.workers w = .relocked) (hq : s.q = t :: q) :
    Tasks { s.setWorker w (.taken t) with
      q, runningTasks := s.runningTasks + 1, qLock := none } where
  executed := by
    intro t'
    have hone := h.executed t'
    have htotal := total_update (Worker.unbegun t') hw s.workers (.taken t)
    rw [hworker] at htotal
    change _ + 0 = _ + (if t = t' then 1 else 0) at htotal
    rw [hq, List.count_cons] at hone
    simp only [beq_iff_eq] at hone
    change s.executed.count t' + total s.threads (Worker.unbegun t')
      (update s.workers w (.taken t)) + q.count t' = if t' < s.scheduled then 1 else 0
    rw [← hone]
    omega
  finished := by
    intro t'
    have hone := h.finished t'
    have htotal := total_update (Worker.unfinished t') hw s.workers (.taken t)
    rw [hworker] at htotal
    change _ + 0 = _ + (if t = t' then 1 else 0) at htotal
    rw [hq, List.count_cons] at hone
    simp only [beq_iff_eq] at hone
    change s.finished.count t' + total s.threads (Worker.unfinished t')
      (update s.workers w (.taken t)) + q.count t' = if t' < s.scheduled then 1 else 0
    rw [← hone]
    omega
  running := by
    have htotal := total_update Worker.busy hw s.workers (.taken t)
    rw [hworker] at htotal
    change _ + 0 = _ + 1 at htotal
    change s.runningTasks + 1 = total s.threads Worker.busy (update s.workers w (.taken t))
    rw [h.running]
    omega
  since := h.since

theorem Tasks.beginTask (h : Tasks s) {w t : Nat} (hw : w < s.threads)
    (hworker : s.workers w = .taken t) :
    Tasks { s.setWorker w (.inTask t) with executed := s.executed ++ [t] } where
  executed := by
    intro t'
    have hone := h.executed t'
    have htotal := total_update (Worker.unbegun t') hw s.workers (.inTask t)
    rw [hworker] at htotal
    change _ + (if t = t' then 1 else 0) = _ + 0 at htotal
    change (s.executed ++ [t]).count t' + total s.threads (Worker.unbegun t')
      (update s.workers w (.inTask t)) + s.q.count t' = if t' < s.scheduled then 1 else 0
    rw [← hone, count_append_singleton]
    omega
  finished := by
    intro t'
    have hsame : (Worker.inTask t).unfinished t' = (s.workers w).unfinished t' := by
      rw [hworker]
      rfl
    change s.finished.count t' + total s.threads (Worker.unfinished t')
      (update s.workers w (.inTask t)) + s.q.count t' = _
    rw [total_update_of_eq _ hw hsame]
    exact h.finished t'
  running := by
    have hsame : (Worker.inTask t).busy = (s.workers w).busy := by
      rw [hworker]
      rfl
    exact h.running.trans (total_update_of_eq _ hw hsame).symm
  since := h.since

theorem Tasks.endTask (h : Tasks s) {w t : Nat} (hw : w < s.threads)
    (hworker : s.workers w = .inTask t) :
    Tasks { s.setWorker w .finish with finished := s.finished ++ [t] } where
  executed := by
    intro t'
    have hsame : Worker.finish.unbegun t' = (s.workers w).unbegun t' := by
      rw [hworker]
      rfl
    change s.executed.count t' + total s.threads (Worker.unbegun t')
      (update s.workers w .finish) + s.q.count t' = _
    rw [total_update_of_eq _ hw hsame]
    exact h.executed t'
  finished := by
    intro t'
    have hone := h.finished t'
    have htotal := total_update (Worker.unfinished t') hw s.workers .finish
    rw [hworker] at htotal
    change _ + (if t = t' then 1 else 0) = _ + 0 at htotal
    change (s.finished ++ [t]).count t' + total s.threads (Worker.unfinished t')
      (update s.workers w .finish) + s.q.count t' = if t' < s.scheduled then 1 else 0
    rw [← hone, count_append_singleton]
    omega
  running := by
    have hsame : Worker.finish.busy = (s.workers w).busy := by
      rw [hworker]
      rfl
    exact h.running.trans (total_update_of_eq _ hw hsame).symm
  since := h.since

theorem Tasks.finish (h : Tasks s) {w : Nat} (hw : w < s.threads)
    (hworker : s.workers w = .finish) :
    Tasks { s.setWorker w .notifyDone with runningTasks := s.runningTasks - 1 } where
  executed := by
    intro t
    have hsame : Worker.notifyDone.unbegun t = (s.workers w).unbegun t := by
      rw [hworker]
      rfl
    change s.executed.count t + total s.threads (Worker.unbegun t)
      (update s.workers w .notifyDone) + s.q.count t = _
    rw [total_update_of_eq _ hw hsame]
    exact h.executed t
  finished := by
    intro t
    have hsame : Worker.notifyDone.unfinished t = (s.workers w).unfinished t := by
      rw [hworker]
      rfl
    change s.finished.count t + total s.threads (Worker.unfinished t)
      (update s.workers w .notifyDone) + s.q.count t = _
    rw [total_update_of_eq _ hw hsame]
    exact h.finished t
  running := by
    have htotal := total_update Worker.busy hw s.workers .notifyDone
    rw [hworker] at htotal
    change _ + 1 = _ + 0 at htotal
    have hrunning := h.running
    change s.runningTasks - 1 =
      total s.threads Worker.busy (update s.workers w .notifyDone)
    omega
  since := h.since

theorem Tasks.push (h : Tasks s) {c : Nat} :
    Tasks { s.setClient c .notifyOne with
      q := s.q ++ [s.scheduled], scheduled := s.scheduled + 1 } where
  executed := by
    intro t
    have hone := h.executed t
    change s.executed.count t + total s.threads (Worker.unbegun t) s.workers +
      (s.q ++ [s.scheduled]).count t = if t < s.scheduled + 1 then 1 else 0
    rw [count_append_singleton]
    split at hone <;> split <;> split <;> omega
  finished := by
    intro t
    have hone := h.finished t
    change s.finished.count t + total s.threads (Worker.unfinished t) s.workers +
      (s.q ++ [s.scheduled]).count t = if t < s.scheduled + 1 then 1 else 0
    rw [count_append_singleton]
    split at hone <;> split <;> split <;> omega
  running := h.running
  since := by
    have hkeep : Tasks (s.setClient c .notifyOne) :=
      h.keepClient fun _ hclient => (nomatch hclient)
    exact fun d since hd => (hkeep.since d since hd).trans (Nat.le_succ _)

theorem Tasks.spawn (h : Tasks s) :
    Tasks { s.setWorker s.threads .created with threads := s.threads + 1 } where
  executed := by
    intro t
    change s.executed.count t + total (s.threads + 1) (Worker.unbegun t)
      (update s.workers s.threads .created) + s.q.count t = _
    rw [total_succ_update]
    exact h.executed t
  finished := by
    intro t
    change s.finished.count t + total (s.threads + 1) (Worker.unfinished t)
      (update s.workers s.threads .created) + s.q.count t = _
    rw [total_succ_update]
    exact h.finished t
  running := by
    change s.runningTasks = total (s.threads + 1) Worker.busy
      (update s.workers s.threads .created)
    rw [total_succ_update]
    exact h.running
  since := h.since

theorem Tasks.keepOwner (h : Tasks s) {online usable : Bool} {joined : Nat} {owner : Owner} :
    Tasks { s with online, usable, joined, owner } :=
  h.keep rfl rfl rfl rfl rfl rfl (fun _ _ => .inl rfl) h.since

theorem Tasks.step (h : Tasks s) (hstep : Step kind s s') : Tasks s' := by
  cases hstep with
  | up _ hworker _ | notifyUp _ hworker | again _ hworker _ | loopOnline _ hworker _
  | loopOffline _ hworker _ | lockQueue _ hworker _ | empty _ hworker _ _ | nonEmpty _ hworker _
  | relock _ hworker _ | wait _ hworker | spuriousWorker _ hworker | leave _ hworker _
  | notifyLeft _ hworker =>
    exact h.keepWorker _ hworker (by trivial) (by trivial)
  | take hw hworker _ hq => exact h.take hw hworker hq
  | beginTask hw hworker => exact h.beginTask hw hworker
  | endTask hw hworker => exact h.endTask hw hworker
  | finish hw hworker _ => exact h.finish hw hworker
  | @notifyDone s w hw hworker =>
    refine h.keep rfl rfl rfl rfl rfl rfl ?_ fun c since hc =>
      h.since c since (wakeClients_since hc)
    exact fun v hv => (update_free .loop hworker trivial trivial v hv).trans (wakeWorkers_free v)
  | sheduleTask _ _ | notifyNone _ _ _ | flushReturn _ _ _ _ =>
    exact h.keepClient fun _ hclient => (nomatch hclient)
  | push _ _ => exact h.push
  | @notifyWorker s c w _ hw hworker =>
    have hkeep : Tasks (s.setClient c .idle) := h.keepClient fun _ hclient => (nomatch hclient)
    exact hkeep.keepWorker .woken hworker trivial trivial
  | @notifyClient s c d since _ hother =>
    have hkeep : Tasks (s.setClient c .idle) := h.keepClient fun _ hclient => (nomatch hclient)
    refine hkeep.keepClient fun since' hsince => h.since d since' ?_
    rcases hsince with heq | heq
    · rw [hother, Client.flush.inj heq]
      exact .inr rfl
    · cases heq
  | flushQueue _ _ =>
    refine h.keepClient fun since hsince => ?_
    rcases hsince with heq | heq
    · rw [← Client.flush.inj heq]
    · cases heq
  | @flushWait s c since hclient _ _ =>
    refine h.keepClient fun since' hsince => ?_
    rcases hsince with heq | heq
    · cases heq
    · rw [← Client.waiting.inj heq]
      exact h.since c since (.inl hclient)
  | @spuriousClient s c since hclient =>
    refine h.keepClient fun since' hsince => ?_
    rcases hsince with heq | heq
    · rw [← Client.flush.inj heq]
      exact h.since c since (.inr hclient)
    · cases heq
  | start _ | spawned _ _ | waitUp _ _ | spuriousUp _ | started _ _ | numThreads _ _
  | destroy _ _ | stop _ | stillUp _ _ | lockedQueue _ _ | waitDown _ | spuriousDown _
  | allDown _ _ | join _ _ _ | joinTwice _ _ =>
    exact h.keepOwner
  | spawn _ _ => exact h.spawn
  | notifyWorkers _ =>
    exact h.keep rfl rfl rfl rfl rfl rfl (fun w _ => wakeWorkers_free w)
      fun c since hc => h.since c since (wakeClients_since hc)

theorem tasks_of_run {numThreads : Nat}
    (hrun : Relation.ReflTransGen AnyStep (State.construct numThreads) s) : Tasks s := by
  refine run_invariant ?_ hrun (Tasks.construct numThreads)
  rintro p q hp ⟨kind, hstep⟩
  exact hp.step hstep

theorem Tasks.nodup_executed (h : Tasks s) : s.executed.Nodup := by
  rw [List.nodup_iff_count_le_one]
  intro t
  have hone := h.executed t
  split at hone <;> omega

theorem Tasks.mem_finished (h : Tasks s) (hq : s.q = []) (hrunning : s.runningTasks = 0) {t : Nat}
    (ht : t < s.scheduled) : t ∈ s.finished := by
  have hone := h.finished t
  have hidle : ∀ w < s.threads, (s.workers w).busy = 0 := by
    rw [← total_eq_zero_iff, ← h.running, hrunning]
  have hzero : total s.threads (Worker.unfinished t) s.workers = 0 := by
    rw [total_eq_zero_iff]
    intro w hw
    have hbusy := hidle w hw
    cases hworker : s.workers w <;> rw [hworker] at hbusy <;>
      first | rfl | exact absurd hbusy Nat.one_ne_zero
  rw [hzero, hq, List.count_nil, if_pos ht] at hone
  exact List.count_pos_iff.mp (by omega)

theorem setClient_idle_of_flush (d : Nat) (client : Client) (hbefore : s.clients c = .flush since)
    (hafter : (s.setClient d client).clients c = .idle) : d = c ∧ client = .idle := by
  change update s.clients d client c = .idle at hafter
  by_cases hdc : c = d
  · subst hdc
    rw [update_self] at hafter
    exact ⟨rfl, hafter⟩
  · rw [update_of_ne hdc, hbefore] at hafter
    cases hafter

theorem wakeClients_of_flush {clients : Nat → Client} (h : clients c = .flush since) :
    wakeClients clients c = .flush since := by
  unfold wakeClients
  rw [h]

theorem Tasks.finished_of_flushReturns (h : Tasks s) (hstep : Step kind s s')
    (hreturns : FlushReturns c since s s') : ∀ t < since, t ∈ s'.finished := by
  obtain ⟨hbefore, hafter⟩ := hreturns
  cases hstep with
  | @flushReturn s d _ _ _ hq hrunning =>
    intro t ht
    exact h.mem_finished hq hrunning (Nat.lt_of_lt_of_le ht (h.since c since (.inl hbefore)))
  | @sheduleTask s d _ _ => cases (setClient_idle_of_flush d .push hbefore hafter).2
  | @push s d _ _ => cases (setClient_idle_of_flush d .notifyOne hbefore hafter).2
  | @notifyWorker s d w hclient _ _ | @notifyNone s d hclient _ _ =>
    obtain ⟨rfl, -⟩ := setClient_idle_of_flush d .idle hbefore hafter
    rw [hbefore] at hclient
    cases hclient
  | @notifyClient s d d' since' hclient hother =>
    have hmiddle : (s.setClient d .idle).clients c = .flush since := by
      refine (update_of_ne ?_ _ _).trans hbefore
      rintro rfl
      rw [hbefore] at hclient
      cases hclient
    cases (setClient_idle_of_flush d' (.flush since') hmiddle hafter).2
  | @flushQueue s d _ _ => cases (setClient_idle_of_flush d (.flush s.scheduled) hbefore hafter).2
  | @flushWait s d since' _ _ _ =>
    cases (setClient_idle_of_flush d (.waiting since') hbefore hafter).2
  | @spuriousClient s d since' _ =>
    cases (setClient_idle_of_flush d (.flush since') hbefore hafter).2
  | notifyDone _ _ | notifyWorkers _ => cases (wakeClients_of_flush hbefore).symm.trans hafter
  | _ => cases hbefore.symm.trans hafter

end Sserialize.ThreadPool
