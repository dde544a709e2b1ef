import Sserialize.Storage.Bytes

/-!
# Breadth first search without a visited set

A loop over a list that it appends to. When the elements that it appends do not depend on the state,
it visits them level by level.
-/

namespace Sserialize.BreadthFirst

variable {α σ : Type} (succ : α → List α)

def order : Nat → List α → List α
  | 0, _ => []
  | n + 1, xs => xs ++ order n (xs.flatMap succ)

def loop (visit : σ → α → Except Fault (σ × List α)) : Nat → σ → List α → Except Fault σ
  | _, s, [] => .ok s
  | 0, _, _ :: _ => .error .undefinedBehaviour
  | fuel + 1, s, x :: queue => do
    let (s, xs) ← visit s x
    loop visit fuel s (queue ++ xs)

variable {succ} {visit : σ → α → Except Fault (σ × List α)} {step : σ → α → σ} {I : σ → Prop}
  {P : α → Prop}

def EndsWithin (succ : α → List α) : Nat → List α → Prop
  | 0, xs => xs = []
  | n + 1, xs => EndsWithin succ n (xs.flatMap succ)

section

variable (hinv : ∀ s x, I s → P x → I (step s x))

include hinv

theorem invariant_foldl {xs : List α} (hxs : ∀ x ∈ xs, P x) {s : σ} (hs : I s) :
    I (xs.foldl step s) := by
  induction xs generalizing s with
  | nil => exact hs
  | cons x xs ih =>
    exact ih (fun y hy => hxs y (List.mem_cons_of_mem _ hy))
      (hinv s x hs (hxs x List.mem_cons_self))

variable (hvisit : ∀ s x, I s → P x → visit s x = .ok (step s x, succ x))

include hvisit

theorem loop_append {xs : List α} (hxs : ∀ x ∈ xs, P x) :
    ∀ {s : σ} (fuel : Nat) (queue : List α), I s →
      loop visit (xs.length + fuel) s (xs ++ queue) =
        loop visit fuel (xs.foldl step s) (queue ++ xs.flatMap succ) := by
  induction xs with
  | nil =>
    intro s fuel queue _
    rw [List.length_nil, Nat.zero_add, List.nil_append, List.flatMap_nil, List.append_nil,
      List.foldl_nil]
  | cons x xs ih =>
    intro s fuel queue hs
    have hx := hxs x List.mem_cons_self
    have hfuel : (x :: xs).length + fuel = xs.length + fuel + 1 := by
      rw [List.length_cons]
      omega
    have ih := ih (fun y hy => hxs y (List.mem_cons_of_mem _ hy)) fuel (queue ++ succ x)
      (hinv s x hs hx)
    rw [hfuel, List.cons_append, loop, hvisit s x hs hx, ok_bind]
    dsimp only
    rw [List.append_assoc, ih, List.flatMap_cons, List.foldl_cons, List.append_assoc]

variable (hsucc : ∀ x, P x → ∀ y ∈ succ x, P y)

include hsucc

theorem loop_eq {n : Nat} : ∀ {xs : List α} {s : σ} {fuel : Nat}, (∀ x ∈ xs, P x) → I s →
    EndsWithin succ n xs → (order succ n xs).length ≤ fuel →
      loop visit fuel s xs = .ok ((order succ n xs).foldl step s) := by
  induction n with
  | zero =>
    intro xs s fuel _ _ hend _
    rw [EndsWithin] at hend
    rw [hend, order, List.foldl_nil]
    cases fuel with
    | zero => rfl
    | succ fuel => rfl
  | succ n ih =>
    intro xs s fuel hxs hs hend hfuel
    rw [order, List.length_append] at hfuel
    obtain ⟨rest, rfl⟩ : ∃ rest, fuel = xs.length + rest := ⟨fuel - xs.length, by omega⟩
    have hnext : ∀ y ∈ xs.flatMap succ, P y := by
      intro y hy
      obtain ⟨x, hx, hyx⟩ := List.mem_flatMap.mp hy
      exact hsucc x (hxs x hx) y hyx
    have happend := loop_append hinv hvisit hxs rest [] hs
    rw [List.append_nil, List.nil_append] at happend
    rw [happend, ih hnext (invariant_foldl hinv hxs hs) hend (by omega), order,
      List.foldl_append]

end

/-! ## What the search visits -/

theorem mem_order_of_reach {n : Nat} : ∀ {xs : List α}, EndsWithin succ n xs →
    (∀ x ∈ xs, x ∈ order succ n xs) ∧
      ∀ x ∈ order succ n xs, ∀ y ∈ succ x, y ∈ order succ n xs := by
  induction n with
  | zero =>
    intro xs hend
    rw [EndsWithin] at hend
    rw [hend]
    exact ⟨fun x hx => absurd hx List.not_mem_nil, fun x hx => absurd hx List.not_mem_nil⟩
  | succ n ih =>
    intro xs hend
    obtain ⟨hstart, hclosed⟩ := ih hend
    refine ⟨fun x hx => List.mem_append_left _ hx, fun x hx y hy => List.mem_append_right _ ?_⟩
    obtain hx | hx := List.mem_append.mp hx
    · exact hstart y (List.mem_flatMap.mpr ⟨x, hx, hy⟩)
    · exact hclosed x hx y hy

theorem of_mem_order {Q : α → Prop} (hsucc : ∀ x, Q x → ∀ y ∈ succ x, Q y) {n : Nat} :
    ∀ {xs : List α}, (∀ x ∈ xs, Q x) → ∀ x ∈ order succ n xs, Q x := by
  induction n with
  | zero => exact fun _ x hx => absurd hx List.not_mem_nil
  | succ n ih =>
    intro xs hxs x hx
    obtain hx | hx := List.mem_append.mp hx
    · exact hxs x hx
    · refine ih (fun y hy => ?_) x hx
      obtain ⟨z, hz, hyz⟩ := List.mem_flatMap.mp hy
      exact hsucc z (hxs z hz) y hyz

theorem endsWithin_of_lt {succ : Nat → List Nat} {bound : Nat}
    (hlt : ∀ x < bound, ∀ y ∈ succ x, x < y ∧ y < bound) {n : Nat} :
    ∀ {xs : List Nat}, (∀ x ∈ xs, x < bound ∧ bound ≤ x + n) → EndsWithin succ n xs := by
  induction n with
  | zero =>
    intro xs hxs
    rw [EndsWithin, List.eq_nil_iff_forall_not_mem]
    intro x hx
    have h := hxs x hx
    omega
  | succ n ih =>
    intro xs hxs
    refine ih fun y hy => ?_
    obtain ⟨x, hx, hyx⟩ := List.mem_flatMap.mp hy
    have h := hxs x hx
    have h' := hlt x h.1 y hyx
    omega

end Sserialize.BreadthFirst
