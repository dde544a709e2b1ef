import Mathlib.Data.Finset.Card

/-!
# Exploration with a worklist

A search that keeps its open elements on a stack and remembers what was reached. What it has found
in the end is what can be reached from the start over accepted elements. Over a finite set of elements
that is closed under successors the search ends: each round takes one element from the stack, and
each element is put there at most once.
-/

namespace Sserialize.Worklist

variable {α : Type}

/-- The open elements, the reached ones, and those reached after the start. -/
structure State (α : Type) where
  queue : List α
  relaxed : List α
  found : List α

def relax [DecidableEq α] (accept : α → Bool) (s : State α) (x : α) : State α :=
  if !s.relaxed.contains x && accept x then
    ⟨s.queue ++ [x], s.relaxed ++ [x], s.found ++ [x]⟩
  else s

/-- The search; `none` is a search that did not end. -/
def run [DecidableEq α] (succ : α → List α) (accept : α → Bool) : Nat → State α → Option (State α)
  | 0, _ => none
  | fuel + 1, s =>
    match s.queue.getLast? with
    | none => some s
    | some x =>
      run succ accept fuel ((succ x).foldl (relax accept) { s with queue := s.queue.dropLast })

/-- What can be reached from `start` over accepted elements. -/
inductive Reach (succ : α → List α) (accept : α → Bool) (start : List α) : α → Prop where
  | start {x : α} (hx : x ∈ start) : Reach succ accept start x
  | step {x y : α} (hx : Reach succ accept start x) (hy : y ∈ succ x) (haccept : accept y = true) :
      Reach succ accept start y

structure Adds (accept : α → Bool) (xs : List α) (s t : State α) (added : List α) : Prop where
  queue : t.queue = s.queue ++ added
  relaxed : t.relaxed = s.relaxed ++ added
  found : t.found = s.found ++ added
  nodup : added.Nodup
  fresh : ∀ x ∈ added, x ∉ s.relaxed
  mem : ∀ x ∈ added, x ∈ xs ∧ accept x = true
  all : ∀ x ∈ xs, accept x = true → x ∈ t.relaxed

theorem foldl_relax [DecidableEq α] (accept : α → Bool) (xs : List α) (s : State α) :
    ∃ added, Adds accept xs s (xs.foldl (relax accept) s) added := by
  induction xs generalizing s with
  | nil => exact ⟨[], by simp, by simp, by simp, List.nodup_nil, nofun, nofun, nofun⟩
  | cons x xs ih =>
    obtain ⟨added, hadds⟩ := ih (relax accept s x)
    rw [List.foldl_cons]
    by_cases hnew : x ∉ s.relaxed ∧ accept x = true
    · have hrelax : relax accept s x = ⟨s.queue ++ [x], s.relaxed ++ [x], s.found ++ [x]⟩ := by
        rw [relax, if_pos (by simp [hnew])]
      rw [hrelax] at hadds ⊢
      have hfresh : ∀ y ∈ added, y ∉ s.relaxed ∧ y ≠ x := by
        intro y hy
        have hy' := hadds.fresh y hy
        rw [List.mem_append, List.mem_singleton, not_or] at hy'
        exact hy'
      refine ⟨x :: added, ?_, ?_, ?_, ?_, ?_, ?_, ?_⟩
      · rw [hadds.queue, List.append_assoc, List.singleton_append]
      · rw [hadds.relaxed, List.append_assoc, List.singleton_append]
      · rw [hadds.found, List.append_assoc, List.singleton_append]
      · exact List.nodup_cons.mpr ⟨fun hx => (hfresh x hx).2 rfl, hadds.nodup⟩
      · intro y hy
        rcases List.mem_cons.mp hy with rfl | hy
        · exact hnew.1
        · exact (hfresh y hy).1
      · intro y hy
        rcases List.mem_cons.mp hy with rfl | hy
        · exact ⟨List.mem_cons_self, hnew.2⟩
        · exact ⟨List.mem_cons_of_mem x (hadds.mem y hy).1, (hadds.mem y hy).2⟩
      · intro y hy haccept
        rcases List.mem_cons.mp hy with rfl | hy
        · rw [hadds.relaxed]
          exact List.mem_append_left added (List.mem_append_right _ (List.mem_singleton_self y))
        · exact hadds.all y hy haccept
    · have hrelax : relax accept s x = s := by
        rw [relax, if_neg]
        simpa using hnew
      rw [hrelax] at hadds ⊢
      refine ⟨added, hadds.queue, hadds.relaxed, hadds.found, hadds.nodup, hadds.fresh, ?_, ?_⟩
      · intro y hy
        exact ⟨List.mem_cons_of_mem x (hadds.mem y hy).1, (hadds.mem y hy).2⟩
      · intro y hy haccept
        rcases List.mem_cons.mp hy with rfl | hy
        · rw [hadds.relaxed]
          by_contra hmem
          exact hnew ⟨fun hy' => hmem (List.mem_append_left added hy'), haccept⟩
        · exact hadds.all y hy haccept

/-- The invariant of the search from `start`. -/
structure Inv (succ : α → List α) (accept : α → Bool) (start : List α) (s : State α) : Prop where
  relaxed : s.relaxed = start ++ s.found
  queue : ∀ x ∈ s.queue, x ∈ s.relaxed
  sound : ∀ x ∈ s.relaxed, Reach succ accept start x
  fresh : ∀ x ∈ s.found, x ∉ start
  closed : ∀ x ∈ s.relaxed, x ∈ s.queue ∨ ∀ y ∈ succ x, accept y = true → y ∈ s.relaxed

variable {succ : α → List α} {accept : α → Bool} {start : List α}

theorem inv_start (succ : α → List α) (accept : α → Bool) (start : List α) :
    Inv succ accept start ⟨start, start, []⟩ where
  relaxed := (List.append_nil start).symm
  queue _ hx := hx
  sound _ hx := .start hx
  fresh := nofun
  closed _ hx := Or.inl hx

theorem Inv.round {s : State α} (h : Inv succ accept start s) {x : α}
    (hlast : s.queue.getLast? = some x) {added : List α} {t : State α}
    (hadds : Adds accept (succ x) { s with queue := s.queue.dropLast } t added) :
    Inv succ accept start t := by
  obtain ⟨rest, hqueue⟩ := List.getLast?_eq_some_iff.mp hlast
  have hdrop : s.queue.dropLast = rest := by rw [hqueue, List.dropLast_concat]
  have htqueue : t.queue = rest ++ added := by rw [hadds.queue, ← hdrop]
  have htrelaxed : t.relaxed = s.relaxed ++ added := hadds.relaxed
  have htfound : t.found = s.found ++ added := hadds.found
  have hxmem : x ∈ s.relaxed := h.queue x (hqueue ▸ List.mem_append_right rest
    (List.mem_singleton_self x))
  refine ⟨?_, ?_, ?_, ?_, ?_⟩
  · rw [htrelaxed, htfound, h.relaxed, List.append_assoc]
  · intro y hy
    rw [htqueue, List.mem_append] at hy
    rw [htrelaxed, List.mem_append]
    refine hy.imp_left fun hy => h.queue y ?_
    rw [hqueue]
    exact List.mem_append_left _ hy
  · intro y hy
    rw [htrelaxed, List.mem_append] at hy
    rcases hy with hy | hy
    · exact h.sound y hy
    · exact .step (h.sound x hxmem) (hadds.mem y hy).1 (hadds.mem y hy).2
  · intro y hy
    rw [htfound, List.mem_append] at hy
    rcases hy with hy | hy
    · exact h.fresh y hy
    · have hnot : y ∉ s.relaxed := hadds.fresh y hy
      rw [h.relaxed] at hnot
      exact fun hstart => hnot (List.mem_append_left _ hstart)
  · intro y hy
    rw [htrelaxed, List.mem_append] at hy
    rcases hy with hy | hy
    · by_cases hyx : y = x
      · rw [hyx]
        exact .inr hadds.all
      · rcases h.closed y hy with hyq | hyc
        · rw [hqueue, List.mem_append, List.mem_singleton] at hyq
          rw [htqueue]
          exact .inl (List.mem_append_left added (hyq.resolve_right hyx))
        · refine .inr fun z hz haccept => ?_
          rw [htrelaxed]
          exact List.mem_append_left added (hyc z hz haccept)
    · rw [htqueue]
      exact .inl (List.mem_append_right rest hy)

theorem Inv.mem_relaxed_iff {s : State α} (h : Inv succ accept start s) (hempty : s.queue = [])
    (x : α) : x ∈ s.relaxed ↔ Reach succ accept start x := by
  constructor
  · exact h.sound x
  · intro hx
    induction hx with
    | start hx =>
      rw [h.relaxed]
      exact List.mem_append_left _ hx
    | step _ hy haccept ih =>
      rcases h.closed _ ih with hq | hclosed
      · rw [hempty] at hq
        exact absurd hq List.not_mem_nil
      · exact hclosed _ hy haccept

structure Done (succ : α → List α) (accept : α → Bool) (start : List α) (s : State α) : Prop where
  mem_relaxed : ∀ x, x ∈ s.relaxed ↔ Reach succ accept start x
  mem_found : ∀ x, x ∈ s.found ↔ Reach succ accept start x ∧ x ∉ start

theorem Inv.done {s : State α} (h : Inv succ accept start s) (hempty : s.queue = []) :
    Done succ accept start s where
  mem_relaxed := h.mem_relaxed_iff hempty
  mem_found x := by
    rw [← h.mem_relaxed_iff hempty x, h.relaxed, List.mem_append]
    constructor
    · exact fun hx => ⟨.inr hx, h.fresh x hx⟩
    · rintro ⟨hx, hnot⟩
      exact hx.resolve_left hnot

theorem card_sdiff_relaxed [DecidableEq α] {dom : Finset α} {xs added : List α} {s t : State α}
    (hadds : Adds accept xs s t added) (hadded : ∀ y ∈ added, y ∈ dom) :
    (dom \ t.relaxed.toFinset).card + added.length = (dom \ s.relaxed.toFinset).card := by
  have hsub : added.toFinset ⊆ dom \ s.relaxed.toFinset := by
    intro y hy
    rw [List.mem_toFinset] at hy
    rw [Finset.mem_sdiff, List.mem_toFinset]
    exact ⟨hadded y hy, hadds.fresh y hy⟩
  have hsplit : dom \ t.relaxed.toFinset = (dom \ s.relaxed.toFinset) \ added.toFinset := by
    ext y
    rw [hadds.relaxed]
    simp only [Finset.mem_sdiff, List.mem_toFinset, List.mem_append, not_or, and_assoc]
  rw [hsplit, ← List.toFinset_card_of_nodup hadds.nodup]
  exact Finset.card_sdiff_add_card_eq_card hsub

theorem run_done [DecidableEq α] (dom : Finset α) (hclosed : ∀ x ∈ dom, ∀ y ∈ succ x, y ∈ dom)
    {fuel : Nat} {s : State α} (h : Inv succ accept start s)
    (hmem : ∀ x ∈ s.relaxed, x ∈ dom)
    (hfuel : s.queue.length + (dom \ s.relaxed.toFinset).card < fuel) :
    ∃ t, run succ accept fuel s = some t ∧ Done succ accept start t := by
  induction fuel generalizing s with
  | zero => exact absurd hfuel (Nat.not_lt_zero _)
  | succ fuel ih =>
    rw [run]
    cases hlast : s.queue.getLast? with
    | none => exact ⟨s, rfl, h.done (List.getLast?_eq_none_iff.mp hlast)⟩
    | some x =>
      obtain ⟨added, hadds⟩ := foldl_relax accept (succ x) { s with queue := s.queue.dropLast }
      have hinv := h.round hlast hadds
      obtain ⟨rest, hqueue⟩ := List.getLast?_eq_some_iff.mp hlast
      have hx : x ∈ dom := hmem x (h.queue x (hqueue ▸ List.mem_append_right rest
        (List.mem_singleton_self x)))
      have hadded : ∀ y ∈ added, y ∈ dom := fun y hy => hclosed x hx y (hadds.mem y hy).1
      refine ih hinv ?_ ?_
      · intro y hy
        rw [hadds.relaxed, List.mem_append] at hy
        exact hy.elim (hmem y) (hadded y)
      · have hcard := card_sdiff_relaxed hadds hadded
        have hlength : s.queue.length = s.queue.dropLast.length + 1 := by
          rw [hqueue, List.dropLast_concat, List.length_append, List.length_singleton]
        rw [hadds.queue, List.length_append]
        dsimp only at hcard ⊢
        omega

end Sserialize.Worklist

/-!
## Exploration with a queue

The search of a worklist whose first open element is taken. Of interest are the elements that were
taken, in their order.
-/

namespace Sserialize.QueueSearch

open Worklist

variable {α : Type} [DecidableEq α]

/-- The search; `none` is a search that did not end. -/
def run (succ : α → List α) (accept : α → Bool) :
    Nat → List α → Worklist.State α → Option (List α)
  | 0, _, _ => none
  | fuel + 1, taken, s =>
    match s.queue with
    | [] => some taken
    | x :: queue =>
      run succ accept fuel (taken ++ [x]) ((succ x).foldl (relax accept) { s with queue := queue })

variable {succ : α → List α} {accept : α → Bool} {start : List α}

variable {s : Worklist.State α}

theorem run_nil (h : s.queue = []) (fuel : Nat) (taken : List α) :
    run succ accept (fuel + 1) taken s = some taken := by
  obtain ⟨queue, relaxed, found⟩ := s
  subst h
  rfl

theorem run_cons {x : α} {queue : List α} (h : s.queue = x :: queue) (fuel : Nat) (taken : List α) :
    run succ accept (fuel + 1) taken s =
      run succ accept fuel (taken ++ [x])
        ((succ x).foldl (relax accept) { s with queue := queue }) := by
  obtain ⟨queue', relaxed, found⟩ := s
  subst h
  rfl

/-- The invariant of the search from `start`. -/
structure Inv (succ : α → List α) (accept : α → Bool) (start taken : List α)
    (s : Worklist.State α) : Prop where
  started : ∀ x ∈ start, x ∈ s.relaxed
  relaxed : ∀ x, x ∈ s.relaxed ↔ x ∈ taken ∨ x ∈ s.queue
  sound : ∀ x ∈ s.relaxed, Reach succ accept start x
  closed : ∀ x ∈ taken, ∀ y ∈ succ x, accept y = true → y ∈ s.relaxed

omit [DecidableEq α] in
theorem inv_start (succ : α → List α) (accept : α → Bool) (start : List α) :
    Inv succ accept start [] ⟨start, start, []⟩ where
  started _ hx := hx
  relaxed _ := (or_iff_right List.not_mem_nil).symm
  sound _ hx := .start hx
  closed _ hx := absurd hx List.not_mem_nil

omit [DecidableEq α] in
theorem Inv.round {taken : List α} {s t : Worklist.State α} (h : Inv succ accept start taken s)
    {x : α} {queue added : List α} (hqueue : s.queue = x :: queue)
    (hadds : Adds accept (succ x) { s with queue := queue } t added) :
    Inv succ accept start (taken ++ [x]) t := by
  have htrelaxed : t.relaxed = s.relaxed ++ added := hadds.relaxed
  have hold : ∀ y ∈ s.relaxed, y ∈ t.relaxed := by
    intro y hy
    rw [htrelaxed]
    exact List.mem_append_left _ hy
  have hx : x ∈ s.relaxed := (h.relaxed x).mpr (.inr (hqueue ▸ List.mem_cons_self))
  refine ⟨fun y hy => hold y (h.started y hy), ?_, ?_, ?_⟩
  · intro y
    have hmem := h.relaxed y
    rw [hqueue] at hmem
    rw [htrelaxed, hadds.queue]
    simp only [List.mem_append, hmem, List.mem_cons, List.not_mem_nil]
    tauto
  · intro y hy
    rw [htrelaxed, List.mem_append] at hy
    rcases hy with hy | hy
    · exact h.sound y hy
    · exact .step (h.sound x hx) (hadds.mem y hy).1 (hadds.mem y hy).2
  · intro y hy z hz haccept
    rcases List.mem_append.mp hy with hy | hy
    · exact hold z (h.closed y hy z hz haccept)
    · rw [List.mem_singleton] at hy
      subst hy
      exact hadds.all z hz haccept

omit [DecidableEq α] in
theorem Inv.mem_taken_iff {taken : List α} (h : Inv succ accept start taken s)
    (hempty : s.queue = []) (x : α) : x ∈ taken ↔ Reach succ accept start x := by
  have hrelaxed : ∀ y, y ∈ s.relaxed ↔ y ∈ taken := by
    intro y
    rw [h.relaxed, hempty]
    exact or_iff_left List.not_mem_nil
  constructor
  · exact fun hx => h.sound x ((hrelaxed x).mpr hx)
  · intro hx
    induction hx with
    | start hx => exact (hrelaxed _).mp (h.started _ hx)
    | step _ hy haccept ih => exact (hrelaxed _).mp (h.closed _ ih _ hy haccept)

/-- The search ends and has taken what can be reached: each round takes an element from the queue,
and each element of `dom` is put there at most once. -/
theorem run_taken (dom : Finset α) (hclosed : ∀ x ∈ dom, ∀ y ∈ succ x, y ∈ dom) {fuel : Nat}
    {taken : List α} (h : Inv succ accept start taken s) (hmem : ∀ x ∈ s.relaxed, x ∈ dom)
    (hfuel : s.queue.length + (dom \ s.relaxed.toFinset).card < fuel) :
    ∃ all, run succ accept fuel taken s = some all ∧
      ∀ x, x ∈ all ↔ Reach succ accept start x := by
  induction fuel generalizing taken s with
  | zero => exact absurd hfuel (Nat.not_lt_zero _)
  | succ fuel ih =>
    cases hqueue : s.queue with
    | nil => exact ⟨taken, run_nil hqueue fuel taken, h.mem_taken_iff hqueue⟩
    | cons x queue =>
      obtain ⟨added, hadds⟩ := foldl_relax accept (succ x) { s with queue := queue }
      have hx : x ∈ dom := hmem x ((h.relaxed x).mpr (.inr (hqueue ▸ List.mem_cons_self)))
      have hadded : ∀ y ∈ added, y ∈ dom := fun y hy => hclosed x hx y (hadds.mem y hy).1
      rw [run_cons hqueue]
      refine ih (h.round hqueue hadds) ?_ ?_
      · intro y hy
        rw [hadds.relaxed, List.mem_append] at hy
        exact hy.elim (hmem y) (hadded y)
      · have hcard := card_sdiff_relaxed hadds hadded
        rw [hqueue, List.length_cons] at hfuel
        rw [hadds.queue, List.length_append]
        dsimp only at hcard ⊢
        omega

end Sserialize.QueueSearch
