import Mathlib.Data.List.Basic
import Mathlib.Order.Basic

/-!
# Cutting a list into blocks

Blocks of one length, of which only the last one may be shorter, and sums over them.
-/

namespace ListBlocks

variable {α β : Type*}

def blocks (n : Nat) (xs : List α) : List (List α) :=
  if 0 < n ∧ xs ≠ [] then xs.take n :: blocks n (xs.drop n) else []
termination_by xs.length
decreasing_by
  rename_i h
  rw [List.length_drop]
  have hpos := List.length_pos_iff.mpr h.2
  omega

variable {n : Nat}

@[simp] theorem blocks_nil (n : Nat) : blocks n ([] : List α) = [] := by
  rw [blocks, if_neg fun h => h.2 rfl]

theorem blocks_of_ne_nil (hn : 0 < n) {xs : List α} (hxs : xs ≠ []) :
    blocks n xs = xs.take n :: blocks n (xs.drop n) := by
  rw [blocks, if_pos ⟨hn, hxs⟩]

theorem induct {P : List α → Prop} (hn : 0 < n) (nil : P [])
    (block : ∀ xs, xs ≠ [] → P (xs.drop n) → P xs) (xs : List α) : P xs := by
  induction hlength : xs.length using Nat.strongRecOn generalizing xs with
  | ind m ih =>
    subst hlength
    by_cases hxs : xs = []
    · rw [hxs]
      exact nil
    · have hpos := List.length_pos_iff.mpr hxs
      refine block xs hxs (ih (xs.drop n).length ?_ _ rfl)
      rw [List.length_drop]
      omega

theorem flatten_blocks (hn : 0 < n) (xs : List α) : (blocks n xs).flatten = xs := by
  induction xs using induct hn with
  | nil => rw [blocks_nil, List.flatten_nil]
  | block xs hxs ih => rw [blocks_of_ne_nil hn hxs, List.flatten_cons, ih, List.take_append_drop]

theorem of_mem_blocks (hn : 0 < n) {xs b : List α} (hb : b ∈ blocks n xs) :
    0 < b.length ∧ b.length ≤ n ∧ ∀ x ∈ b, x ∈ xs := by
  induction xs using induct hn with
  | nil =>
    rw [blocks_nil] at hb
    exact absurd hb List.not_mem_nil
  | block xs hxs ih =>
    rw [blocks_of_ne_nil hn hxs] at hb
    rcases List.mem_cons.mp hb with rfl | hb
    · have hpos := List.length_pos_iff.mpr hxs
      refine ⟨?_, List.length_take_le n xs, fun x hx => List.mem_of_mem_take hx⟩
      rw [List.length_take]
      omega
    · obtain ⟨hpos, hle, hmem⟩ := ih hb
      exact ⟨hpos, hle, fun x hx => List.mem_of_mem_drop (hmem x hx)⟩

theorem map_blocks (hn : 0 < n) (f : α → β) (xs : List α) :
    blocks n (xs.map f) = (blocks n xs).map (List.map f) := by
  induction xs using induct hn with
  | nil => rw [List.map_nil, blocks_nil, blocks_nil, List.map_nil]
  | block xs hxs ih =>
    rw [blocks_of_ne_nil hn hxs, blocks_of_ne_nil hn (mt List.map_eq_nil_iff.mp hxs), List.map_cons,
      ← ih, List.map_take, List.map_drop]

theorem length_blocks (hn : 0 < n) (xs : List α) :
    (blocks n xs).length = xs.length / n + if xs.length % n > 0 then 1 else 0 := by
  induction xs using induct hn with
  | nil =>
    rw [blocks_nil, List.length_nil, List.length_nil, Nat.zero_div, Nat.zero_mod,
      if_neg (Nat.lt_irrefl 0)]
  | block xs hxs ih =>
    rw [blocks_of_ne_nil hn hxs, List.length_cons, ih, List.length_drop]
    have hpos := List.length_pos_iff.mpr hxs
    by_cases hle : n ≤ xs.length
    · rw [Nat.mod_eq_sub_mod hle, Nat.div_eq_sub_div hn hle]
      omega
    · have hlt : xs.length < n := Nat.lt_of_not_le hle
      rw [Nat.sub_eq_zero_of_le (Nat.le_of_lt hlt), Nat.zero_div, Nat.zero_mod, if_neg (Nat.lt_irrefl 0),
        Nat.div_eq_of_lt hlt, Nat.mod_eq_of_lt hlt, if_pos hpos]

theorem length_blocks_le (hn : 0 < n) (xs : List α) : (blocks n xs).length ≤ xs.length := by
  induction xs using induct hn with
  | nil =>
    rw [blocks_nil]
    exact Nat.le_refl _
  | block xs hxs ih =>
    have hpos := List.length_pos_iff.mpr hxs
    rw [List.length_drop] at ih
    rw [blocks_of_ne_nil hn hxs, List.length_cons]
    omega

end ListBlocks
