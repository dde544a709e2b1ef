import Mathlib.Data.List.Induction
import Mathlib.Data.List.Nodup
import Mathlib.Order.Lattice

/-!
# Collecting minimal elements

Elements are visited one after the other, and one is collected unless it is, or is above, an element
collected before. What is collected are the minimal elements exactly if every other one is visited
behind an element below it.
-/

namespace GreedyMinimal

variable {α : Type*} (below : α → α → Prop)

open Classical in
noncomputable def collect : List α → List α → List α
  | collected, [] => collected
  | collected, x :: xs =>
    if ∃ a ∈ collected, a = x ∨ below a x then collect collected xs
    else collect (collected ++ [x]) xs

open Classical in
theorem collect_cons (collected : List α) (x : α) (xs : List α) :
    collect below collected (x :: xs) =
      if ∃ a ∈ collected, a = x ∨ below a x then collect below collected xs
      else collect below (collected ++ [x]) xs := rfl

def MinimalIn (xs : List α) (x : α) : Prop := ∀ y ∈ xs, ¬ below y x

def BehindSmaller (collected xs : List α) : Prop :=
  ∀ before x after, xs = before ++ x :: after → ¬ MinimalIn below (collected ++ xs) x →
    ∃ y ∈ collected ++ before, below y x

variable {below} {collected xs : List α}

theorem collect_append (xs ys : List α) :
    collect below collected (xs ++ ys) = collect below (collect below collected xs) ys := by
  induction xs generalizing collected with
  | nil => rfl
  | cons x xs ih =>
    rw [List.cons_append, collect_cons, collect_cons]
    by_cases h : ∃ a ∈ collected, a = x ∨ below a x
    · rw [if_pos h, if_pos h, ih]
    · rw [if_neg h, if_neg h, ih]

theorem mem_collect_of_mem {a : α} (h : a ∈ collected) : a ∈ collect below collected xs := by
  induction xs generalizing collected with
  | nil => exact h
  | cons x xs ih =>
    rw [collect_cons]
    by_cases hx : ∃ a ∈ collected, a = x ∨ below a x
    · rw [if_pos hx]
      exact ih h
    · rw [if_neg hx]
      exact ih (List.mem_append_left _ h)

theorem mem_of_mem_collect {a : α} (h : a ∈ collect below collected xs) : a ∈ collected ++ xs := by
  induction xs generalizing collected with
  | nil => exact List.mem_append_left _ h
  | cons x xs ih =>
    rw [collect_cons] at h
    by_cases hx : ∃ a ∈ collected, a = x ∨ below a x
    · rw [if_pos hx] at h
      obtain hmem | hmem := List.mem_append.mp (ih h)
      · exact List.mem_append_left _ hmem
      · exact List.mem_append_right _ (List.mem_cons_of_mem _ hmem)
    · rw [if_neg hx] at h
      have hmem := ih h
      rwa [List.append_assoc] at hmem

theorem nodup_collect (h : collected.Nodup) : (collect below collected xs).Nodup := by
  induction xs generalizing collected with
  | nil => exact h
  | cons x xs ih =>
    rw [collect_cons]
    by_cases hx : ∃ a ∈ collected, a = x ∨ below a x
    · rw [if_pos hx]
      exact ih h
    · rw [if_neg hx]
      have hnot : x ∉ collected := fun hmem => hx ⟨x, hmem, .inl rfl⟩
      exact ih (List.nodup_append.mpr ⟨h, List.nodup_singleton x, fun a ha b hb hab => hnot
        (List.mem_singleton.mp hb ▸ hab ▸ ha)⟩)

theorem exists_collect {x : α} (h : x ∈ collected ++ xs) :
    ∃ a ∈ collect below collected xs, a = x ∨ below a x := by
  induction xs generalizing collected with
  | nil =>
    rw [List.append_nil] at h
    exact ⟨x, h, .inl rfl⟩
  | cons y xs ih =>
    rw [collect_cons]
    by_cases hy : ∃ a ∈ collected, a = y ∨ below a y
    · rw [if_pos hy]
      obtain hmem | hmem := List.mem_append.mp h
      · exact ih (List.mem_append_left _ hmem)
      · obtain rfl | hmem := List.mem_cons.mp hmem
        · obtain ⟨a, ha, hax⟩ := hy
          exact ⟨a, mem_collect_of_mem ha, hax⟩
        · exact ih (List.mem_append_right _ hmem)
    · rw [if_neg hy]
      refine ih ?_
      rwa [List.append_assoc]

theorem mem_collect_of_minimal {x : α} (h : x ∈ collected ++ xs)
    (hmin : MinimalIn below (collected ++ xs) x) : x ∈ collect below collected xs := by
  obtain ⟨a, ha, rfl | hax⟩ := exists_collect h
  · exact ha
  · exact absurd hax (hmin a (mem_of_mem_collect ha))

theorem collect_minimal_iff (htrans : ∀ a b c, below a b → below b c → below a c)
    (hcollected : ∀ a ∈ collected, MinimalIn below (collected ++ xs) a) :
    (∀ a ∈ collect below collected xs, MinimalIn below (collected ++ xs) a) ↔
      BehindSmaller below collected xs := by
  constructor
  · rintro hall before x after rfl hmin
    have hsub : ∀ a ∈ collect below collected before,
        a ∈ collect below collected (before ++ x :: after) := by
      intro a ha
      rw [collect_append]
      exact mem_collect_of_mem ha
    by_cases hx : ∃ a ∈ collect below collected before, a = x ∨ below a x
    · obtain ⟨a, ha, rfl | hax⟩ := hx
      · exact absurd (hall a (hsub a ha)) hmin
      · exact ⟨a, mem_of_mem_collect ha, hax⟩
    · refine absurd (hall x ?_) hmin
      rw [collect_append, collect_cons, if_neg hx]
      exact mem_collect_of_mem (List.mem_append_right _ List.mem_cons_self)
  · intro hbehind
    -- what is collected before a suffix of the elements is minimal
    have hall : ∀ before after, xs = before ++ after →
        ∀ a ∈ collect below collected before, MinimalIn below (collected ++ xs) a := by
      intro before
      induction before using List.reverseRecOn with
      | nil => exact fun _ _ a ha => hcollected a ha
      | append_singleton before x ih =>
        intro after hxs a ha
        have hxs' : xs = before ++ x :: after := by
          rw [hxs, List.append_assoc]
          rfl
        rw [collect_append, collect] at ha
        by_cases hx : ∃ a ∈ collect below collected before, a = x ∨ below a x
        · rw [if_pos hx] at ha
          exact ih _ hxs' a ha
        · rw [if_neg hx, collect] at ha
          obtain ha | ha := List.mem_append.mp ha
          · exact ih _ hxs' a ha
          · rw [List.mem_singleton.mp ha]
            by_contra hmin
            obtain ⟨y, hy, hyx⟩ := hbehind before x after hxs' hmin
            obtain ⟨b, hb, rfl | hby⟩ := exists_collect hy
            · exact hx ⟨b, hb, .inr hyx⟩
            · exact hx ⟨b, hb, .inr (htrans b y x hby hyx)⟩
    exact hall xs [] (List.append_nil xs).symm

theorem behindSmaller_of_pairwise (h : xs.Pairwise fun x y => ¬ below y x)
    (hirrefl : ∀ x ∈ xs, ¬ below x x) : BehindSmaller below collected xs := by
  rintro before x after rfl hmin
  rw [MinimalIn] at hmin
  push Not at hmin
  obtain ⟨y, hy, hyx⟩ := hmin
  obtain ⟨-, hafter, -⟩ := List.pairwise_append.mp h
  refine ⟨y, ?_, hyx⟩
  obtain hy | hy := List.mem_append.mp hy
  · exact List.mem_append_left _ hy
  · obtain hy | hy := List.mem_append.mp hy
    · exact List.mem_append_right _ hy
    · obtain rfl | hy := List.mem_cons.mp hy
      · exact absurd hyx (hirrefl y (List.mem_append_right _ List.mem_cons_self))
      · exact absurd hyx ((List.pairwise_cons.mp hafter).1 y hy)

end GreedyMinimal

/-!
## The first minimum of a list

Candidates are visited in order, and one is kept if it is smaller than the best one so far. The
result is a candidate that no other one is below, or the start if no candidate is below its bound.
-/

namespace RunningMinimum

variable {α β : Type*} {γ : Type*} [LinearOrder γ]

def keepSmaller (f : α → γ) (make : α → β) (best : β × γ) (x : α) : β × γ :=
  if f x < best.2 then (make x, f x) else best

variable {f : α → γ} {make : α → β}

theorem foldl_keepSmaller (start : β × γ) (xs : List α) :
    (xs.foldl (keepSmaller f make) start = start ∧ ∀ x ∈ xs, start.2 ≤ f x) ∨
      ∃ x ∈ xs, xs.foldl (keepSmaller f make) start = (make x, f x) ∧ f x < start.2 ∧
        ∀ y ∈ xs, f x ≤ f y := by
  induction xs generalizing start with
  | nil => exact .inl ⟨rfl, List.forall_mem_nil _⟩
  | cons x xs ih =>
    rw [List.foldl_cons, keepSmaller]
    split
    next hlt =>
      right
      rcases ih (make x, f x) with ⟨heq, hle⟩ | ⟨y, hy, heq, hyx, hle⟩
      · exact ⟨x, List.mem_cons_self, heq, hlt, List.forall_mem_cons.mpr ⟨le_rfl, hle⟩⟩
      · exact ⟨y, List.mem_cons_of_mem x hy, heq, hyx.trans hlt,
          List.forall_mem_cons.mpr ⟨hyx.le, hle⟩⟩
    next hnot =>
      have hge : start.2 ≤ f x := not_lt.mp hnot
      rcases ih start with ⟨heq, hle⟩ | ⟨y, hy, heq, hlt, hle⟩
      · exact .inl ⟨heq, List.forall_mem_cons.mpr ⟨hge, hle⟩⟩
      · exact .inr ⟨y, List.mem_cons_of_mem x hy, heq, hlt,
          List.forall_mem_cons.mpr ⟨hlt.le.trans hge, hle⟩⟩

end RunningMinimum
