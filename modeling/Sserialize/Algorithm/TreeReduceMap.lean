import Sserialize.Library.WorkerPool

/-!
# `treeReduceMap` with several threads

A worker touches the shared storage under the lock only: it puts its result there and, unless that
result is alone, takes everything with it. Putting and taking are one step.
-/

namespace Sserialize.TreeReduceMap

variable {α β : Type*} [Inhabited β]

def treeReduceMap (redFunc : β → β → β) (mapFunc : α → β) : List α → β
  | [] => default
  | [a] => mapFunc a
  | [a, b] => redFunc (mapFunc a) (mapFunc b)
  | a :: b :: c :: rest =>
    let range := a :: b :: c :: rest
    redFunc (treeReduceMap redFunc mapFunc (range.take (range.length / 2)))
      (treeReduceMap redFunc mapFunc (range.drop (range.length / 2)))
termination_by range => range.length
decreasing_by
  · rw [List.length_take, List.length_cons, List.length_cons, List.length_cons]
    omega
  · rw [List.length_drop, List.length_cons, List.length_cons, List.length_cons]
    omega

def treeReduce (redFunc : β → β → β) (range : List β) : β := treeReduceMap redFunc id range

/-! ## Workers -/

inductive Worker (β : Type*) where
  | start
  | reducing (myStorage : List β) (several : 2 ≤ myStorage.length)
  | returned

structure State (β : Type*) where
  workers : Nat → Worker β
  storage : List β

/-- The thread count after it has been bounded by the size of the input. -/
def threads (threadCount : Nat) (input : List α) : Nat :=
  min input.length (if threadCount = 0 then 1 else threadCount)

def blockSize (threadCount : Nat) (input : List α) : Nat :=
  input.length / threads threadCount input +
    if input.length % threads threadCount input > 0 then 1 else 0

def blockBeginOffset (threadCount : Nat) (input : List α) (blockNum : Nat) : Nat :=
  blockSize threadCount input * blockNum

def block (threadCount : Nat) (input : List α) (blockNum : Nat) : List α :=
  (input.drop (blockBeginOffset threadCount input blockNum)).take
    (min (blockSize threadCount input)
      (input.length - blockBeginOffset threadCount input blockNum))

def publish (storage : List β) (result : β) : Worker β × List β :=
  if h : (storage ++ [result]).length < 2 then (.returned, storage ++ [result])
  else (.reducing (storage ++ [result]) (Nat.le_of_not_lt h), [])

variable (redFunc : β → β → β) (mapFunc : α → β) (threadCount : Nat) (input : List α)

def workerStep (blockNum : Nat) (storage : List β) : Worker β → Option (Worker β × List β)
  | .start =>
    if input.length ≤ blockBeginOffset threadCount input blockNum then some (.returned, storage)
    else
      some (publish storage (treeReduceMap redFunc mapFunc (block threadCount input blockNum)))
  | .reducing myStorage _ => some (publish storage (treeReduce redFunc myStorage))
  | .returned => none

inductive Step : State β → State β → Prop
  | worker {s : State β} {blockNum : Nat} {w : Worker β} {storage : List β}
      (hnum : blockNum < threads threadCount input)
      (hstep : workerStep redFunc mapFunc threadCount input blockNum s.storage
        (s.workers blockNum) = some (w, storage)) :
      Step s ⟨Function.update s.workers blockNum w, storage⟩

def begin : State β := ⟨fun _ => .start, []⟩

/-- Values reduced to one; of no values there is none. -/
def reduced (values : List β) : Option β :=
  (values.map some).foldr (Option.merge redFunc) none

def held (blockNum : Nat) : Worker β → Option β
  | .start => reduced redFunc ((block threadCount input blockNum).map mapFunc)
  | .reducing myStorage _ => reduced redFunc myStorage
  | .returned => none

section Reduced

variable [Std.Associative redFunc]

end Reduced

/-! ## Blocks -/

variable {redFunc mapFunc threadCount input}

def weight : Worker β → Nat
  | .start => 2
  | .reducing myStorage _ => myStorage.length
  | .returned => 0

def measure (threadCount : Nat) (input : List α) (s : State β) : Nat :=
  WorkerPool.total (threads threadCount input) weight s.workers + s.storage.length

omit [Inhabited β] in
theorem weight_publish (storage : List β) (result : β) :
    weight (publish storage result).1 + (publish storage result).2.length = storage.length + 1 := by
  have hlen : (storage ++ [result]).length = storage.length + 1 := List.length_append
  rw [publish]
  split
  next => rw [weight, hlen, Nat.zero_add]
  next => exact hlen

variable {storage storage' : List β} {blockNum : Nat}

theorem weight_workerStep {w w' : Worker β}
    (hstep : workerStep redFunc mapFunc threadCount input blockNum storage w = some (w', storage')) :
    weight w' + storage'.length < weight w + storage.length := by
  cases w with
  | start =>
    rw [workerStep] at hstep
    split at hstep
    next =>
      obtain ⟨rfl, rfl⟩ := Prod.mk.inj (Option.some.inj hstep)
      exact Nat.add_lt_add_right Nat.zero_lt_two _
    next =>
      have hweight := weight_publish storage
        (treeReduceMap redFunc mapFunc (block threadCount input blockNum))
      rw [Option.some.inj hstep] at hweight
      simp only [weight] at hweight ⊢
      omega
  | reducing myStorage several =>
    have hweight := weight_publish storage (treeReduce redFunc myStorage)
    rw [Option.some.inj hstep] at hweight
    simp only [weight] at hweight ⊢
    omega
  | returned => exact absurd hstep.symm (Option.some_ne_none _)

theorem measure_lt (s s' : State β) (hstep : Step redFunc mapFunc threadCount input s s') :
    measure threadCount input s' < measure threadCount input s := by
  cases hstep with
  | @worker blockNum w storage hnum hworker =>
    have hweight := weight_workerStep hworker
    have htotal := WorkerPool.total_update weight hnum s.workers w
    simp only [measure]
    omega

variable [Std.Associative redFunc] [Std.Commutative redFunc]

def everything (redFunc : β → β → β) [Std.Associative redFunc] [Std.Commutative redFunc]
    (mapFunc : α → β) (threadCount : Nat) (input : List α) (s : State β) : Option β :=
  ((Finset.range (threads threadCount input)).fold (Option.merge redFunc) none
    fun i => held redFunc mapFunc threadCount input i (s.workers i)).merge redFunc
      (reduced redFunc s.storage)

end Sserialize.TreeReduceMap
