import Sserialize.Search.OOMCTCValuesCreatorAppend

namespace Sserialize.OOMCTCValuesCreator

open MaximalRuns WorkerPool

variable {ε ν : Type*} {nodeId : ε → ν} {entries : List ε} {n : Nat} {s s' : State ε ν}

def Worker.HoldsLock : Worker ε → Prop
  | .foundEmpty => True
  | .notify => True
  | .wait => True
  | _ => False

structure Locked (n : Nat) (s : State ε ν) : Prop where
  holder : ∀ w < n, (s.workers w).HoldsLock → s.wqLock = some w
  empty : s.wqLock ≠ none → s.wq = []

variable {w : Nat}

theorem Locked.not_holdsLock (h : Locked n s) (hlock : s.wqLock = none) (hw : w < n) :
    ¬ (s.workers w).HoldsLock := by
  intro hholds
  have hholder := h.holder w hw hholds
  rw [hlock] at hholder
  cases hholder

variable {worker : Worker ε}

theorem Locked.update (h : Locked n s) (hlocks : worker.HoldsLock → (s.workers w).HoldsLock) :
    ∀ v < n, (Function.update s.workers w worker v).HoldsLock → s.wqLock = some v := by
  intro v hv
  by_cases hvw : v = w
  · subst hvw
    rw [Function.update_self]
    exact fun hholds => h.holder v hv (hlocks hholds)
  · rw [Function.update_of_ne hvw]
    exact h.holder v hv

theorem Locked.release (h : Locked n s) (hw : w < n) (hheld : (s.workers w).HoldsLock)
    (hworker : ¬ worker.HoldsLock) :
    ∀ v < n, (Function.update s.workers w worker v).HoldsLock → none = some v := by
  intro v hv hholds
  by_cases hvw : v = w
  · subst hvw
    rw [Function.update_self] at hholds
    exact absurd hholds hworker
  · rw [Function.update_of_ne hvw] at hholds
    have hother := h.holder v hv hholds
    rw [h.holder w hw hheld, Option.some_inj] at hother
    exact absurd hother.symm hvw

variable {workers : Nat → Worker ε}

theorem notifyAll_holdsLock : (notifyAll workers w).HoldsLock ↔ (workers w).HoldsLock := by
  unfold notifyAll
  cases workers w <;> exact Iff.rfl

theorem Locked.step (h : Locked n s) (hstep : Step nodeId entries n s s') : Locked n s' := by
  cases hstep with
  | feederMore _ _ | feederDone _ _ | feederWait _ _ _ | feederSpurious _ | feederWoken _ _
  | feederBegin _ _ _ _ | feederFill _ _ | feederFilled _ _ | feederNotifyNone _ _ =>
    exact ⟨h.holder, h.empty⟩
  | feederReturn _ _ =>
    exact ⟨fun w hw hholds => h.holder w hw (notifyAll_holdsLock.mp hholds), h.empty⟩
  | feederPush _ hlock => exact ⟨h.holder, fun hne => absurd hlock hne⟩
  | feederNotify _ _ _ | workerHandle _ _ | workerSpurious _ _ | workerWoken _ _ _ =>
    exact ⟨h.update (fun hholds => nomatch hholds), h.empty⟩
  | workerTake _ _ hlock _ =>
    exact ⟨h.update (fun hholds => nomatch hholds), fun hne => absurd hlock hne⟩
  | @workerEmpty w hw hworker hlock hwq =>
    refine ⟨?_, fun _ => hwq⟩
    intro v hv hholds
    by_cases hvw : v = w
    · exact congrArg some hvw.symm
    · change (Function.update s.workers w .foundEmpty v).HoldsLock at hholds
      rw [Function.update_of_ne hvw] at hholds
      exact absurd hholds (h.not_holdsLock hlock hv)
  | workerMore hw hworker _ | workerNotify hw hworker =>
    exact ⟨h.update (fun _ => by rw [hworker]; trivial), h.empty⟩
  | workerReturn hw hworker _ | workerWait hw hworker =>
    exact ⟨h.release hw (by rw [hworker]; trivial) (fun hholds => nomatch hholds),
      fun hne => absurd rfl hne⟩

def State.pushed (s : State ε ν) : Nat :=
  match s.feeder with
  | .fill _ block => block.beginPos
  | .lockPush block => block.beginPos
  | _ => s.ePos

def Fed (nodeId : ε → ν) (entries : List ε) (s : State ε ν) : Prop :=
  Boundary (entries.map nodeId) s.pushed ∧ s.ePos ≤ entries.length ∧
  match s.feeder with
  | .lockEnd => entries.length ≤ s.ePos
  | .returned => entries.length ≤ s.ePos
  | .lockQueue => s.ePos < entries.length
  | .waiting => s.ePos < entries.length
  | .fill ni block => block.beginPos ≤ s.ePos ∧ (entries.map nodeId)[block.beginPos]? = some ni ∧
      Constant (entries.map nodeId) block.beginPos s.ePos ∧
      block.data = (entries.drop block.beginPos).take (s.ePos - block.beginPos)
  | .lockPush block => block.endPos = s.ePos ∧ IsBlock nodeId entries block
  | _ => True

theorem Fed.step (h : Fed nodeId entries s) (hstep : Step nodeId entries n s s') :
    Fed nodeId entries s' := by
  obtain ⟨hboundary, hrange, hshape⟩ := h
  unfold State.pushed at hboundary
  cases hstep with
  | feederMore hfeeder hmore =>
    rw [hfeeder] at hboundary
    exact ⟨hboundary, hrange, hmore⟩
  | feederDone hfeeder hdone =>
    rw [hfeeder] at hboundary
    exact ⟨hboundary, hrange, hdone⟩
  | feederReturn hfeeder _ | feederWait hfeeder _ _ =>
    rw [hfeeder] at hboundary hshape
    exact ⟨hboundary, hrange, hshape⟩
  | feederSpurious hfeeder | feederWoken hfeeder _ | feederNotify hfeeder _ _
  | feederNotifyNone hfeeder _ =>
    rw [hfeeder] at hboundary
    exact ⟨hboundary, hrange, trivial⟩
  | @feederBegin e hfeeder _ _ he =>
    rw [hfeeder] at hboundary
    refine ⟨hboundary, hrange, Nat.le_refl _, ?_, ?_, ?_⟩
    · rw [List.getElem?_map, he]
      rfl
    · exact fun i hi hlt => absurd hlt (Nat.not_lt.mpr hi)
    · rw [Nat.sub_self, List.take_zero]
  | @feederFill e block hfeeder he =>
    rw [hfeeder] at hboundary hshape
    obtain ⟨hle, hni, hconstant, hdata⟩ := hshape
    have hlt : s.ePos < entries.length := (List.getElem?_eq_some_iff.mp he).1
    refine ⟨hboundary, hlt, Nat.le_succ_of_le hle, hni, ?_, ?_⟩
    · apply hconstant.succ
      rw [hni, List.getElem?_map, he]
      rfl
    · have hnext : (entries.drop block.beginPos)[s.ePos - block.beginPos]? = some e := by
        rw [List.getElem?_drop, Nat.add_sub_cancel' hle, he]
      have hsub : s.ePos + 1 - block.beginPos = s.ePos - block.beginPos + 1 := by omega
      change block.data ++ [e] = _
      rw [hdata, hsub, List.take_add_one, hnext]
      rfl
  | @feederFilled ni block hfeeder hend =>
    rw [hfeeder] at hboundary hshape
    obtain ⟨hle, hni, hconstant, hdata⟩ := hshape
    have hother : (entries.map nodeId)[s.ePos]? ≠ some ni := by
      rw [List.getElem?_map]
      cases he : entries[s.ePos]? with
      | none => exact nofun
      | some e => exact fun heq => hend e he (Option.some.inj heq)
    have hlt : block.beginPos < s.ePos := by
      apply Nat.lt_of_le_of_ne hle
      intro heq
      rw [heq] at hni
      exact hother hni
    refine ⟨hboundary, hrange, rfl, ⟨hlt, ?_, hconstant, hboundary, .inr ?_⟩, hdata⟩
    · rw [List.length_map]
      exact hrange
    · change (entries.map nodeId)[s.ePos - 1]? ≠ _
      rw [hconstant (s.ePos - 1) (by omega) (by omega), hni]
      exact hother.symm
  | @feederPush block hfeeder _ =>
    rw [hfeeder] at hshape
    obtain ⟨hend, hblock⟩ := hshape
    refine ⟨?_, hrange, trivial⟩
    have hright := hblock.1.right
    rw [hend] at hright
    exact hright
  | workerNotify _ _ =>
    unfold notifyFeeder
    cases hfeeder : s.feeder <;> rw [hfeeder] at hboundary hshape <;>
      exact ⟨hboundary, hrange, by first | exact hshape | trivial⟩
  | workerTake _ _ _ _ | workerHandle _ _ | workerEmpty _ _ _ _ | workerMore _ _ _
  | workerReturn _ _ _ | workerWait _ _ | workerSpurious _ _ | workerWoken _ _ _ =>
    exact ⟨hboundary, hrange, hshape⟩

def Worker.isWaiting : Worker ε → Nat
  | .waiting => 1
  | _ => 0

def Feeder.unnotified : Feeder ε ν → Nat
  | .notifyOne => 1
  | _ => 0

/-- The blocks in the queue are fewer than the workers that do not wait, as long as one waits, but
for the one that the feeder is about to notify. So the queue is not filled while a worker waits. -/
structure Waits (entries : List ε) (n : Nat) (s : State ε ν) : Prop where
  few : total n Worker.isWaiting s.workers ≠ 0 →
    s.wq.length + total n Worker.isWaiting s.workers ≤ n + s.feeder.unnotified
  feeder : s.feeder = .waiting → ∀ w < n, s.workers w ≠ .waiting ∧ s.workers w ≠ .wait
  done : s.feeder = .returned →
    ∀ w < n, s.workers w ≠ .waiting ∧ s.workers w ≠ .wait ∧ s.workers w ≠ .notify
  returned : ∀ w < n, s.workers w = .returned → entries.length ≤ s.ePos

theorem Worker.isWaiting_le (worker : Worker ε) : worker.isWaiting ≤ 1 := by
  cases worker <;> first | exact Nat.le_refl 1 | exact Nat.zero_le 1

theorem total_isWaiting_eq_zero {n : Nat} :
    total n Worker.isWaiting workers = 0 ↔ ∀ w < n, workers w ≠ .waiting := by
  rw [total_eq_zero_iff]
  constructor
  · intro hzero w hw hwaiting
    have hone := hzero w hw
    rw [hwaiting] at hone
    cases hone
  · intro hnone w hw
    have hne := hnone w hw
    cases hworker : workers w <;> first | rfl | exact absurd hworker hne

theorem notifyAll_ne_waiting (workers : Nat → Worker ε) (w : Nat) :
    notifyAll workers w ≠ .waiting := by
  unfold notifyAll
  cases workers w <;> exact nofun

theorem Waits.returned_update (h : Waits entries n s)
    (hreturned : worker = .returned → entries.length ≤ s.ePos) :
    ∀ v < n, Function.update s.workers w worker v = .returned → entries.length ≤ s.ePos :=
  all_update (P := fun x : Worker ε => x = .returned → entries.length ≤ s.ePos) h.returned hreturned

theorem Waits.feederStep (h : Waits entries n s) {feeder : Feeder ε ν} {ePos : Nat}
    (hunnotified : s.feeder.unnotified ≤ feeder.unnotified) (hwaiting : feeder ≠ .waiting)
    (hreturned : feeder ≠ .returned) (hePos : s.ePos ≤ ePos) :
    Waits entries n { s with ePos, feeder } where
  few := fun hne => (h.few hne).trans (Nat.add_le_add_left hunnotified n)
  feeder := fun heq => absurd heq hwaiting
  done := fun heq => absurd heq hreturned
  returned := fun w hw heq => (h.returned w hw heq).trans hePos

theorem Waits.workerStep (h : Waits entries n s) (worker : Worker ε) (hw : w < n)
    (hidle : worker ≠ .waiting ∧ worker ≠ .wait ∧ worker ≠ .notify)
    (hreturned : worker = .returned → entries.length ≤ s.ePos) {wq : List (BlockDescription ε)}
    (hwq : wq.length ≤ s.wq.length) (wqLock : Option Nat) (handled : List (BlockDescription ε)) :
    Waits entries n { s with
      wq, wqLock, handled, workers := Function.update s.workers w worker } where
  few := by
    intro hne
    have hzero : worker.isWaiting = 0 := by
      cases worker <;> first | rfl | exact absurd rfl hidle.1
    have htotal := total_update Worker.isWaiting hw s.workers worker
    have hfew := h.few
    simp only at hne ⊢
    omega
  feeder := fun heq =>
    all_update (P := fun x : Worker ε => x ≠ .waiting ∧ x ≠ .wait) (h.feeder heq)
      ⟨hidle.1, hidle.2.1⟩
  done := fun heq =>
    all_update (P := fun x : Worker ε => x ≠ .waiting ∧ x ≠ .wait ∧ x ≠ .notify) (h.done heq) hidle
  returned := h.returned_update hreturned

theorem Waits.step (h : Waits entries n s) (hlocked : Locked n s) (hfed : Fed nodeId entries s)
    (hstep : Step nodeId entries n s s') : Waits entries n s' := by
  obtain ⟨-, -, hshape⟩ := hfed
  cases hstep with
  | feederMore hfeeder _ | feederDone hfeeder _ | feederSpurious hfeeder | feederWoken hfeeder _
  | feederBegin hfeeder _ _ _ | feederFilled hfeeder _ =>
    exact h.feederStep (by rw [hfeeder]; exact Nat.le_refl 0) nofun nofun (Nat.le_refl _)
  | feederReturn hfeeder hlock =>
    have hnone : total n Worker.isWaiting (notifyAll s.workers) = 0 :=
      total_isWaiting_eq_zero.mpr fun w _ => notifyAll_ne_waiting s.workers w
    rw [hfeeder] at hshape
    exact {
      few := fun hne => absurd hnone hne
      feeder := nofun
      done := by
        intro _ w hw
        have hfree := hlocked.not_holdsLock hlock hw
        rw [← notifyAll_holdsLock] at hfree
        refine ⟨notifyAll_ne_waiting s.workers w, ?_, ?_⟩
        · intro heq
          exact hfree (by rw [show notifyAll s.workers w = .wait from heq]; trivial)
        · intro heq
          exact hfree (by rw [show notifyAll s.workers w = .notify from heq]; trivial)
      returned := fun _ _ _ => hshape }
  | feederWait hfeeder hlock hfilled =>
    have hnone : total n Worker.isWaiting s.workers = 0 := by
      by_contra hne
      have hfew := h.few hne
      have hfill : n + 2 ≤ queueFill n := Nat.le_max_left _ _
      rw [hfeeder] at hfew
      change _ ≤ n + 0 at hfew
      omega
    exact {
      few := fun hne => absurd hnone hne
      feeder := by
        intro _ w hw
        refine ⟨total_isWaiting_eq_zero.mp hnone w hw, ?_⟩
        intro heq
        exact hlocked.not_holdsLock hlock hw (by rw [show s.workers w = .wait from heq]; trivial)
      done := nofun
      returned := h.returned }
  | feederFill hfeeder _ =>
    exact h.feederStep (by rw [hfeeder]; exact Nat.le_refl 0) nofun nofun (Nat.le_succ _)
  | @feederPush block hfeeder _ =>
    exact {
      few := by
        intro hne
        have hfew := h.few hne
        rw [hfeeder] at hfew
        change _ ≤ n + 0 at hfew
        change (s.wq ++ [block]).length + _ ≤ n + 1
        rw [List.length_append, List.length_singleton]
        change _ + total n Worker.isWaiting s.workers ≤ _
        omega
      feeder := nofun
      done := nofun
      returned := h.returned }
  | @feederNotify w hfeeder hw hworker =>
    have htotal := total_update Worker.isWaiting hw s.workers .woken
    rw [hworker] at htotal
    change _ + 1 = _ + 0 at htotal
    exact {
      few := by
        intro _
        have hfew := h.few (by omega)
        rw [hfeeder] at hfew
        change _ ≤ n + 1 at hfew
        change s.wq.length + total n Worker.isWaiting (Function.update s.workers w .woken) ≤ n + 0
        omega
      feeder := nofun
      done := nofun
      returned := h.returned_update nofun }
  | feederNotifyNone hfeeder hnone =>
    exact {
      few := fun hne => absurd (total_isWaiting_eq_zero.mpr hnone) hne
      feeder := nofun
      done := nofun
      returned := h.returned }
  | @workerTake w bd wq hw _ _ hwq =>
    have hless : wq.length ≤ s.wq.length := by
      rw [hwq]
      exact Nat.le_succ _
    exact h.workerStep (.handle _) hw ⟨nofun, nofun, nofun⟩ nofun hless _ _
  | workerHandle hw _ | workerWoken hw _ _ =>
    exact h.workerStep .loop hw ⟨nofun, nofun, nofun⟩ nofun (Nat.le_refl _) _ _
  | workerEmpty hw _ _ _ =>
    exact h.workerStep .foundEmpty hw ⟨nofun, nofun, nofun⟩ nofun (Nat.le_refl _) _ _
  | @workerMore w hw hworker hmore =>
    have htotal := total_update Worker.isWaiting hw s.workers .notify
    rw [hworker] at htotal
    change _ + 0 = _ + 0 at htotal
    have hnot : s.feeder ≠ .returned := by
      intro heq
      rw [heq] at hshape
      exact Nat.lt_irrefl _ (Nat.lt_of_lt_of_le hmore hshape)
    exact {
      few := by
        rw [Nat.add_zero, Nat.add_zero] at htotal
        rw [htotal]
        exact h.few
      feeder := fun heq =>
        all_update (P := fun x : Worker ε => x ≠ .waiting ∧ x ≠ .wait) (h.feeder heq)
          ⟨nofun, nofun⟩
      done := fun heq => absurd heq hnot
      returned := h.returned_update nofun }
  | workerReturn hw _ hdone =>
    exact h.workerStep .returned hw ⟨nofun, nofun, nofun⟩ (fun _ => hdone) (Nat.le_refl _) _ _
  | @workerNotify w hw hworker =>
    have htotal := total_update Worker.isWaiting hw s.workers .wait
    rw [hworker] at htotal
    change _ + 0 = _ + 0 at htotal
    rw [Nat.add_zero, Nat.add_zero] at htotal
    have hnot : s.feeder ≠ .returned := fun heq => (h.done heq w hw).2.2 hworker
    exact {
      few := by
        intro hne
        rw [htotal] at hne ⊢
        have hfew := h.few hne
        unfold notifyFeeder
        cases hfeeder : s.feeder <;> rw [hfeeder] at hfew <;> exact hfew
      feeder := by
        intro heq
        unfold notifyFeeder at heq
        cases hfeeder : s.feeder <;> rw [hfeeder] at heq <;> cases heq
      done := by
        intro heq
        unfold notifyFeeder at heq
        cases hfeeder : s.feeder <;> rw [hfeeder] at heq <;> 
          first | exact absurd hfeeder hnot | cases heq
      returned := h.returned_update nofun }
  | @workerWait w hw hworker =>
    have hempty : s.wq = [] := by
      apply hlocked.empty
      rw [hlocked.holder w hw (by rw [hworker]; trivial)]
      exact nofun
    exact {
      few := by
        intro _
        have hle := total_le Worker.isWaiting_le n (Function.update s.workers w .waiting)
        change s.wq.length + _ ≤ _
        rw [hempty, List.length_nil, Nat.zero_add]
        exact hle.trans (Nat.le_add_right n _)
      feeder := fun heq => absurd hworker (h.feeder heq w hw).2
      done := fun heq => absurd hworker (h.done heq w hw).2.1
      returned := h.returned_update nofun }
  | workerSpurious hw _ =>
    exact h.workerStep .woken hw ⟨nofun, nofun, nofun⟩ nofun (Nat.le_refl _) _ _

def Worker.handles (b : Nat) : Worker ε → Nat
  | .handle bd => if bd.beginPos = b then 1 else 0
  | _ => 0

def beginning (b : Nat) (blocks : List (BlockDescription ε)) : Nat :=
  blocks.countP (fun block => block.beginPos = b)

/-- The runs in front of `pushed` are in one place each: handled, taken or in the queue. -/
structure Counted (nodeId : ε → ν) (entries : List ε) (n : Nat) (s : State ε ν) : Prop where
  handled : ∀ block ∈ s.handled, IsBlock nodeId entries block
  taken : ∀ w < n, ∀ block, s.workers w = .handle block → IsBlock nodeId entries block
  queued : ∀ block ∈ s.wq, IsBlock nodeId entries block
  once : ∀ b e, Run (entries.map nodeId) b e →
    beginning b s.handled + total n (Worker.handles b) s.workers + beginning b s.wq =
      if e ≤ s.pushed then 1 else 0

theorem beginning_append (b : Nat) (blocks : List (BlockDescription ε))
    (block : BlockDescription ε) :
    beginning b (blocks ++ [block]) =
      beginning b blocks + if block.beginPos = b then 1 else 0 := by
  unfold beginning
  rw [List.countP_append, List.countP_singleton]
  simp

theorem beginning_cons (b : Nat) (block : BlockDescription ε)
    (blocks : List (BlockDescription ε)) :
    beginning b (block :: blocks) =
      beginning b blocks + if block.beginPos = b then 1 else 0 := by
  unfold beginning
  rw [List.countP_cons]
  simp

theorem taken_update (h : Counted nodeId entries n s)
    (hworker : ∀ block, worker = .handle block → IsBlock nodeId entries block) :
    ∀ v < n, ∀ block, Function.update s.workers w worker v = .handle block →
      IsBlock nodeId entries block :=
  all_update (P := fun x : Worker ε => ∀ block, x = .handle block → IsBlock nodeId entries block)
    h.taken hworker

theorem Counted.keep (h : Counted nodeId entries n s) (hhandled : s'.handled = s.handled)
    (hwq : s'.wq = s.wq) (hpushed : s'.pushed = s.pushed)
    (hworkers : ∀ w < n, ∀ block, s'.workers w = .handle block ↔ s.workers w = .handle block) :
    Counted nodeId entries n s' where
  handled := hhandled ▸ h.handled
  taken := fun w hw block heq => h.taken w hw block ((hworkers w hw block).mp heq)
  queued := hwq ▸ h.queued
  once := by
    intro b e hrun
    have htotal : total n (Worker.handles b) s'.workers = total n (Worker.handles b) s.workers := by
      apply Finset.sum_congr rfl
      intro w hw
      have hsame := hworkers w (Finset.mem_range.mp hw)
      cases hnew : s'.workers w with
      | handle block => rw [(hsame block).mp hnew]
      | _ =>
        cases hold : s.workers w with
        | handle block =>
          have hcontra := (hsame block).mpr hold
          rw [hnew] at hcontra
          cases hcontra
        | _ => rfl
    rw [hhandled, hwq, hpushed, htotal]
    exact h.once b e hrun

theorem handle_update (hnew : ∀ block, worker ≠ .handle block)
    (hold : ∀ block, s.workers w ≠ .handle block) (v : Nat) (block : BlockDescription ε) :
    Function.update s.workers w worker v = .handle block ↔ s.workers v = .handle block := by
  by_cases hvw : v = w
  · subst hvw
    rw [Function.update_self]
    exact ⟨fun heq => absurd heq (hnew block), fun heq => absurd heq (hold block)⟩
  · rw [Function.update_of_ne hvw]

theorem notifyAll_eq_handle (workers : Nat → Worker ε) (w : Nat) (block : BlockDescription ε) :
    notifyAll workers w = .handle block ↔ workers w = .handle block := by
  unfold notifyAll
  cases workers w <;> first | exact Iff.rfl | exact ⟨nofun, nofun⟩

theorem handle_update_of_eq {old worker : Worker ε} (hworker : s.workers w = old)
    (hnew : ∀ block, worker ≠ .handle block) (hold : ∀ block, old ≠ .handle block) :
    ∀ v < n, ∀ block, Function.update s.workers w worker v = .handle block ↔
      s.workers v = .handle block :=
  fun v _ => handle_update hnew (hworker ▸ hold) v

theorem notifyFeeder_pushed (s : State ε ν) (workers : Nat → Worker ε) :
    State.pushed { s with feeder := notifyFeeder s.feeder, workers } = s.pushed := by
  unfold State.pushed notifyFeeder
  cases s.feeder <;> rfl

theorem Counted.push (h : Counted nodeId entries n s) {block : BlockDescription ε}
    (hfeeder : s.feeder = .lockPush block) (hend : block.endPos = s.ePos)
    (hblock : IsBlock nodeId entries block) :
    Counted nodeId entries n { s with wq := s.wq ++ [block], feeder := .notifyOne } where
  handled := h.handled
  taken := h.taken
  queued := by
    intro other hmem
    rcases List.mem_append.mp hmem with hmem | hmem
    · exact h.queued other hmem
    · rw [List.mem_singleton.mp hmem]
      exact hblock
  once := by
    intro b e hrun
    have hone := h.once b e hrun
    have hpushed : s.pushed = block.beginPos := by
      unfold State.pushed
      rw [hfeeder]
    have hlt := hblock.1.nonempty
    have hlt' := hrun.nonempty
    rw [hpushed] at hone
    change _ = if e ≤ s.ePos then 1 else 0
    rw [← hend, beginning_append]
    by_cases hbegin : block.beginPos = b
    · have hsame : block.endPos = e :=
        (hblock.1.unique hrun ⟨Nat.le_refl _, hlt⟩ ⟨by omega, by omega⟩).2
      rw [if_neg (by omega)] at hone
      rw [if_pos hbegin, if_pos (by omega)]
      simp only
      omega
    · have hiff : e ≤ block.beginPos ↔ e ≤ block.endPos := by
        constructor
        · intro hle
          omega
        · intro hle
          by_contra hgt
          exact hbegin (hblock.1.unique hrun (i := e - 1) ⟨by omega, by omega⟩
            ⟨by omega, by omega⟩).1
      rw [if_neg hbegin]
      simp only [hiff] at hone
      exact hone

theorem Counted.take (h : Counted nodeId entries n s) {w : Nat} {bd : BlockDescription ε}
    {wq : List (BlockDescription ε)} (hw : w < n) (hworker : s.workers w = .loop)
    (hwq : s.wq = bd :: wq) :
    Counted nodeId entries n
      { s with wq, workers := Function.update s.workers w (.handle bd) } where
  handled := h.handled
  taken := by
    apply taken_update h
    intro block heq
    rw [← Worker.handle.inj heq]
    exact h.queued bd (by rw [hwq]; simp)
  queued := fun block hmem => h.queued block (by rw [hwq]; exact List.mem_cons_of_mem _ hmem)
  once := by
    intro b e hrun
    have hone := h.once b e hrun
    have htotal := total_update (Worker.handles b) hw s.workers (.handle bd)
    rw [hworker] at htotal
    change _ + 0 = _ + (if bd.beginPos = b then 1 else 0) at htotal
    rw [hwq, beginning_cons] at hone
    change _ = if e ≤ s.pushed then 1 else 0
    rw [← hone]
    simp only
    omega

theorem Counted.handle (h : Counted nodeId entries n s) {w : Nat} {bd : BlockDescription ε}
    (hw : w < n) (hworker : s.workers w = .handle bd) :
    Counted nodeId entries n { s with
      workers := Function.update s.workers w .loop
      handled := s.handled ++ [bd] } where
  handled := by
    intro block hmem
    rcases List.mem_append.mp hmem with hmem | hmem
    · exact h.handled block hmem
    · rw [List.mem_singleton.mp hmem]
      exact h.taken w hw bd hworker
  taken := taken_update h nofun
  queued := h.queued
  once := by
    intro b e hrun
    have hone := h.once b e hrun
    have htotal := total_update (Worker.handles b) hw s.workers .loop
    rw [hworker] at htotal
    change _ + (if bd.beginPos = b then 1 else 0) = _ + 0 at htotal
    change _ = if e ≤ s.pushed then 1 else 0
    rw [← hone]
    simp only [beginning_append]
    omega

theorem Counted.step (h : Counted nodeId entries n s) (hfed : Fed nodeId entries s)
    (hstep : Step nodeId entries n s s') : Counted nodeId entries n s' := by
  obtain ⟨-, -, hshape⟩ := hfed
  have hsame : ∀ w < n, ∀ block, s.workers w = .handle block ↔ s.workers w = .handle block :=
    fun _ _ _ => Iff.rfl
  have hpushed : s.pushed = s.pushed := rfl
  cases hstep with
  | feederMore hfeeder _ | feederDone hfeeder _ | feederWait hfeeder _ _ | feederSpurious hfeeder
  | feederWoken hfeeder _ | feederBegin hfeeder _ _ _ | feederFill hfeeder _
  | feederFilled hfeeder _ | feederNotifyNone hfeeder _ =>
    exact h.keep rfl rfl (by rw [State.pushed, State.pushed, hfeeder]) hsame
  | feederReturn hfeeder _ =>
    exact h.keep rfl rfl (by rw [State.pushed, State.pushed, hfeeder])
      fun w _ => notifyAll_eq_handle s.workers w
  | feederPush hfeeder _ =>
    rw [hfeeder] at hshape
    exact h.push hfeeder hshape.1 hshape.2
  | feederNotify hfeeder _ hworker =>
    exact h.keep rfl rfl (by rw [State.pushed, State.pushed, hfeeder])
      (handle_update_of_eq hworker nofun nofun)
  | workerTake hw hworker _ hwq => exact h.take hw hworker hwq
  | workerHandle hw hworker => exact h.handle hw hworker
  | workerEmpty _ hworker _ _ | workerMore _ hworker _ | workerReturn _ hworker _
  | workerWait _ hworker | workerSpurious _ hworker | workerWoken _ hworker _ =>
    exact h.keep rfl rfl hpushed (handle_update_of_eq hworker nofun nofun)
  | workerNotify _ hworker =>
    exact h.keep rfl rfl (notifyFeeder_pushed s _) (handle_update_of_eq hworker nofun nofun)

structure Inv (nodeId : ε → ν) (entries : List ε) (n : Nat) (s : State ε ν) : Prop where
  locked : Locked n s
  fed : Fed nodeId entries s
  waits : Waits entries n s
  counted : Counted nodeId entries n s

theorem inv_start : Inv nodeId entries n (State.start : State ε ν) where
  locked := ⟨fun _ _ hholds => (nomatch hholds), fun _ => rfl⟩
  fed := ⟨.inl rfl, Nat.zero_le _, trivial⟩
  waits := {
    few := by
      intro hne
      have hnone : ∀ w < n, (State.start : State ε ν).workers w ≠ .waiting := fun _ _ => nofun
      exact absurd (total_isWaiting_eq_zero.mpr hnone) hne
    feeder := nofun
    done := nofun
    returned := nofun }
  counted := {
    handled := nofun
    taken := nofun
    queued := nofun
    once := by
      intro b e hrun
      have hlt := hrun.nonempty
      have hzero : total n (Worker.handles b) (State.start : State ε ν).workers = 0 :=
        Finset.sum_eq_zero fun _ _ => rfl
      rw [hzero]
      exact (if_neg (show ¬ e ≤ 0 by omega)).symm }

theorem Inv.step (h : Inv nodeId entries n s) (hstep : Step nodeId entries n s s') :
    Inv nodeId entries n s' where
  locked := h.locked.step hstep
  fed := h.fed.step hstep
  waits := h.waits.step h.locked h.fed hstep
  counted := h.counted.step h.fed hstep

theorem inv_of_run (hrun : Relation.ReflTransGen (Step nodeId entries n) State.start s) :
    Inv nodeId entries n s := by
  refine run_invariant ?_ hrun inv_start
  exact fun _ _ h hstep => Inv.step h hstep

theorem Inv.not_allWaiting (h : Inv nodeId entries n s) (hn : 0 < n) : ¬ s.AllWaiting n := by
  rintro ⟨hfeeder, hworkers, hnot⟩
  obtain ⟨-, -, hshape⟩ := h.fed
  rcases hfeeder with hwaiting | hreturned
  · rw [hwaiting] at hshape
    rcases hworkers 0 hn with hwait | hret
    · exact (h.waits.feeder hwaiting 0 hn).1 hwait
    · exact Nat.lt_irrefl _ (Nat.lt_of_lt_of_le hshape (h.waits.returned 0 hn hret))
  · apply hnot
    refine ⟨hreturned, fun w hw => (hworkers w hw).resolve_left ?_⟩
    exact (h.waits.done hreturned w hw).1

def State.Abandons (s : State ε ν) : Prop := s.feeder.Holds ∨ s.wq ≠ []

theorem notifyAll_eq_returned : notifyAll workers w = .returned ↔ workers w = .returned := by
  unfold notifyAll
  cases workers w <;> first | exact Iff.rfl | exact ⟨nofun, nofun⟩

theorem Inv.step_of_returned (h : Inv nodeId entries n s) (hn : 0 < n)
    (hret : s.WorkersReturned n) (hstep : Step nodeId entries n s s') :
    s'.WorkersReturned n ∧ (s'.Abandons ↔ s.Abandons) := by
  obtain ⟨-, -, hshape⟩ := h.fed
  have hnone : ∀ {w : Nat} {worker : Worker ε}, w < n → s.workers w = worker →
      worker ≠ .returned → False := fun hw hworker hne => hne (hworker ▸ hret _ hw)
  -- a step between two states of the feeder in which it has no block
  have hkeep : ∀ {feeder : Feeder ε ν}, ¬ s.feeder.Holds → ¬ feeder.Holds →
      (State.Abandons { s with feeder } ↔ s.Abandons) := by
    intro feeder hold hnew
    unfold State.Abandons
    simp only [hold, hnew, false_or]
  cases hstep with
  | feederMore hfeeder _ | feederDone hfeeder _ | feederWait hfeeder _ _ | feederSpurious hfeeder
  | feederWoken hfeeder _ | feederNotifyNone hfeeder _ =>
    exact ⟨hret, hkeep (by rw [hfeeder]; exact id) id⟩
  | feederReturn hfeeder _ =>
    exact ⟨fun w hw => notifyAll_eq_returned.mpr (hret w hw),
      hkeep (by rw [hfeeder]; exact id) id⟩
  | feederBegin hfeeder _ _ _ =>
    rw [hfeeder] at hshape
    have hdone := h.waits.returned 0 hn (hret 0 hn)
    exact absurd hshape (Nat.not_lt.mpr hdone)
  | feederFill hfeeder _ | feederFilled hfeeder _ =>
    exact ⟨hret, fun _ => .inl (by rw [hfeeder]; trivial), fun _ => .inl trivial⟩
  | feederPush hfeeder _ =>
    exact ⟨hret, fun _ => .inl (by rw [hfeeder]; trivial), fun _ => .inr (by simp)⟩
  | feederNotify _ hw hworker | workerTake hw hworker _ _ | workerHandle hw hworker
  | workerEmpty hw hworker _ _ | workerMore hw hworker _ | workerReturn hw hworker _
  | workerNotify hw hworker | workerWait hw hworker | workerSpurious hw hworker
  | workerWoken hw hworker _ =>
    exact (hnone hw hworker nofun).elim

theorem Inv.step_to_returned (h : Inv nodeId entries n s) (hret : ¬ s.WorkersReturned n)
    (hstep : Step nodeId entries n s s') (hret' : s'.WorkersReturned n) :
    s'.Abandons ↔ s.feeder.Holds := by
  have hlast : ∀ {w : Nat} {worker : Worker ε}, w < n →
      (∀ v < n, Function.update s.workers w worker v = .returned) → worker = .returned := by
    intro w worker hw hall
    have hself := hall w hw
    rwa [Function.update_self] at hself
  cases hstep with
  | feederMore _ _ | feederDone _ _ | feederWait _ _ _ | feederSpurious _ | feederWoken _ _
  | feederBegin _ _ _ _ | feederFill _ _ | feederFilled _ _ | feederPush _ _
  | feederNotifyNone _ _ =>
    exact absurd hret' hret
  | feederReturn _ _ =>
    exact absurd (fun w hw => notifyAll_eq_returned.mp (hret' w hw)) hret
  | feederNotify _ hw _ | workerTake hw _ _ _ | workerHandle hw _ | workerEmpty hw _ _ _
  | workerMore hw _ _ | workerNotify hw _ | workerWait hw _ | workerSpurious hw _
  | workerWoken hw _ _ =>
    cases hlast hw hret'
  | @workerReturn w hw hworker _ =>
    have hempty : s.wq = [] := by
      apply h.locked.empty
      rw [h.locked.holder w hw (by rw [hworker]; trivial)]
      exact nofun
    unfold State.Abandons
    simp only [hempty, ne_eq, not_true, or_false]

theorem Inv.handledOnce_iff (h : Inv nodeId entries n s) (hall : s.AllReturned n) :
    HandledOnce nodeId entries s.handled ↔ ¬ s.Abandons := by
  obtain ⟨-, -, hshape⟩ := h.fed
  rw [hall.1] at hshape
  have hpushed : s.pushed = s.ePos := by rw [State.pushed, hall.1]
  have hfree : s.Abandons ↔ s.wq ≠ [] := by
    unfold State.Abandons
    rw [hall.1]
    exact or_iff_right id
  have honce : ∀ b e, Run (entries.map nodeId) b e →
      beginning b s.handled + beginning b s.wq = 1 := by
    intro b e hrun
    have hone := h.counted.once b e hrun
    have hzero : total n (Worker.handles b) s.workers = 0 := by
      apply Finset.sum_eq_zero
      intro w hw
      rw [hall.2 w (Finset.mem_range.mp hw)]
      rfl
    have hrange := hrun.inRange
    rw [List.length_map] at hrange
    rw [hzero, Nat.add_zero, hpushed, if_pos (hrange.trans hshape)] at hone
    exact hone
  -- a handled block with the begin of a run is that run
  have hends : ∀ b e, Run (entries.map nodeId) b e →
      s.handled.countP (fun block => block.beginPos = b ∧ block.endPos = e) =
        beginning b s.handled := by
    intro b e hrun
    apply List.countP_congr
    intro block hmem
    have hblock := h.counted.handled block hmem
    simp only [decide_eq_true_eq]
    refine ⟨And.left, fun hbegin => ⟨hbegin, ?_⟩⟩
    have hlt := hblock.1.nonempty
    have hlt' := hrun.nonempty
    exact (hblock.1.unique hrun (i := b) ⟨by omega, by omega⟩ ⟨by omega, by omega⟩).2
  rw [hfree, not_not]
  constructor
  · rintro ⟨-, hcount⟩
    cases hwq : s.wq with
    | nil => rfl
    | cons block wq =>
      have hblock := h.counted.queued block (by rw [hwq]; simp)
      have hone := honce _ _ hblock.1
      rw [← hends _ _ hblock.1, hcount _ _ hblock.1, hwq, beginning_cons, if_pos rfl] at hone
      omega
  · intro hwq
    refine ⟨h.counted.handled, fun b e hrun => ?_⟩
    have hone := honce b e hrun
    rw [hwq] at hone
    rw [hends b e hrun]
    exact hone

theorem Inv.abandons_of_run {p : State ε ν} (hp : Inv nodeId entries n p) (hn : 0 < n)
    (hret : p.WorkersReturned n) (hrun : Relation.ReflTransGen (Step nodeId entries n) p s) :
    Inv nodeId entries n s ∧ s.WorkersReturned n ∧ (s.Abandons ↔ p.Abandons) := by
  induction hrun with
  | refl => exact ⟨hp, hret, Iff.rfl⟩
  | tail _ hstep ih =>
    obtain ⟨hinv, hqret, hiff⟩ := ih
    obtain ⟨hqret', hiff'⟩ := hinv.step_of_returned hn hqret hstep
    exact ⟨hinv.step hstep, hqret', hiff'.trans hiff⟩

theorem not_abandons_of_run (hn : 0 < n)
    (hrun : Relation.ReflTransGen (fun p q => Step nodeId entries n p q ∧ ¬ Strands n p q)
      State.start s) :
    Inv nodeId entries n s ∧ (s.WorkersReturned n → ¬ s.Abandons) := by
  induction hrun with
  | refl => exact ⟨inv_start, fun hret => (nomatch hret 0 hn)⟩
  | @tail q q' _ hlast ih =>
    obtain ⟨hinv, hleft⟩ := ih
    obtain ⟨hstep, hkeeps⟩ := hlast
    refine ⟨hinv.step hstep, fun hret' => ?_⟩
    by_cases hret : q.WorkersReturned n
    · rw [(hinv.step_of_returned hn hret hstep).2]
      exact hleft hret
    · rw [hinv.step_to_returned hret hstep hret']
      exact fun hholds => hkeeps ⟨hret, hret', hholds⟩

/-- The threads never wait all together. In a run without a step that strands a block every maximal
run is handled exactly once; behind such a step a block is lost. -/
theorem append_handles (hn : 0 < n) :
    (∀ s, Relation.ReflTransGen (Step nodeId entries n) State.start s → ¬ s.AllWaiting n) ∧
    (∀ s, Relation.ReflTransGen (fun p q => Step nodeId entries n p q ∧ ¬ Strands n p q)
        State.start s → s.AllReturned n → HandledOnce nodeId entries s.handled) ∧
    ∀ p q s, Relation.ReflTransGen (Step nodeId entries n) State.start p →
      Step nodeId entries n p q → Strands n p q →
      Relation.ReflTransGen (Step nodeId entries n) q s → s.AllReturned n →
      ¬ HandledOnce nodeId entries s.handled := by
  refine ⟨fun s hrun => (inv_of_run hrun).not_allWaiting hn, ?_, ?_⟩
  · intro s hrun hall
    have hsafe := not_abandons_of_run hn hrun
    exact (hsafe.1.handledOnce_iff hall).mpr (hsafe.2 hall.2)
  · rintro p q s hrun hstep ⟨hret, hret', hholds⟩ hrest hall honce
    have hp := inv_of_run hrun
    have hq := hp.step hstep
    have hs := inv_of_run ((hrun.tail hstep).trans hrest)
    apply (hs.handledOnce_iff hall).mp honce
    rw [(hq.abandons_of_run hn hret' hrest).2.2, hp.step_to_returned hret hstep hret']
    exact hholds

theorem append_handles_two :
    (∀ s, Relation.ReflTransGen (Step id [1, 1, 2] 2) State.start s → ¬ s.AllWaiting 2) ∧
    (∀ s, Relation.ReflTransGen (fun p q => Step id [1, 1, 2] 2 p q ∧ ¬ Strands 2 p q)
        State.start s → s.AllReturned 2 → HandledOnce id [1, 1, 2] s.handled) ∧
    ∀ p q s, Relation.ReflTransGen (Step id [1, 1, 2] 2) State.start p →
      Step id [1, 1, 2] 2 p q → Strands 2 p q →
      Relation.ReflTransGen (Step id [1, 1, 2] 2) q s → s.AllReturned 2 →
      ¬ HandledOnce id [1, 1, 2] s.handled :=
  append_handles (by decide)

/-- A single worker returns while the feeder has the only block. -/
theorem append_loses_block :
    ∃ s, Relation.ReflTransGen (Step id [5] 1) State.start s ∧ s.AllReturned 1 ∧
      ¬ HandledOnce id [5] s.handled := by
  let block : BlockDescription Nat := ⟨0, 1, [5]⟩
  let found : Nat → Worker Nat := Function.update (fun _ => .loop) 0 .foundEmpty
  let gone : Nat → Worker Nat := Function.update found 0 .returned
  have hfound : found 0 = .foundEmpty := Function.update_self ..
  have hgone : ∀ w < 1, gone w = .returned := by
    intro w hw
    obtain rfl : w = 0 := by omega
    exact Function.update_self ..
  have hnone : ∀ w < 1, gone w ≠ .waiting := by
    intro w hw
    rw [hgone w hw]
    exact nofun
  have hend : ∀ e, [5][1]? = some e → id e ≠ 5 := by simp
  have hfill : Relation.ReflTransGen (Step id [5] 1) State.start
      ⟨1, [], some 0, .fill 5 ⟨0, 0, [5]⟩, found, []⟩ :=
    ((((Relation.ReflTransGen.refl.tail (.feederMore rfl (by decide))).tail
      (.feederBegin rfl rfl (by decide) rfl)).tail
      (.feederFill rfl rfl)).tail
      (.workerEmpty Nat.zero_lt_one rfl rfl rfl))
  have hreturned : Relation.ReflTransGen (Step id [5] 1) State.start
      ⟨1, [], none, .fill 5 ⟨0, 0, [5]⟩, gone, []⟩ :=
    hfill.tail (.workerReturn Nat.zero_lt_one hfound (by decide))
  have hlost : Relation.ReflTransGen (Step id [5] 1) State.start
      ⟨1, [], none, .lockPush block, gone, []⟩ :=
    hreturned.tail (@Step.feederFilled _ _ id [5] 1 _ 5 ⟨0, 0, [5]⟩ rfl hend)
  have hpushed : Relation.ReflTransGen (Step id [5] 1) State.start
      ⟨1, [block], none, .loop, gone, []⟩ :=
    (hlost.tail (.feederPush rfl rfl)).tail
      (.feederNotifyNone rfl hnone)
  refine ⟨_, (hpushed.tail (.feederDone rfl (by decide))).tail (.feederReturn rfl rfl),
    ⟨rfl, fun w hw => notifyAll_eq_returned.mpr (hgone w hw)⟩, ?_⟩
  rintro ⟨-, honce⟩
  have hrun : Run ([5].map id) 0 1 :=
    ⟨by decide, by decide, constant_singleton 0, .inl rfl, .inr (by decide)⟩
  exact absurd (honce 0 1 hrun) (by decide)

end Sserialize.OOMCTCValuesCreator
