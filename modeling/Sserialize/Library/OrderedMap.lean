import Mathlib.Data.List.Nodup
import Mathlib.Data.List.Perm.Basic
import Mathlib.Order.Lattice

/-!
# Maps in insertion order

A list of key value pairs. Assigning to a key that is there changes its value in place, a new key is
appended.
-/

namespace OrderedMap

variable {K V : Type*} [DecidableEq K]

def keys (m : List (K × V)) : List K := m.map Prod.fst

def lookup (key : K) (m : List (K × V)) : Option V :=
  (m.find? fun entry => entry.1 = key).map Prod.snd

def assign (key : K) (v : V) : List (K × V) → List (K × V)
  | [] => [(key, v)]
  | entry :: m => if entry.1 = key then (entry.1, v) :: m else entry :: assign key v m

def insert (key : K) (v : V) (m : List (K × V)) : List (K × V) :=
  if key ∈ keys m then m else m ++ [(key, v)]

theorem assign_cons (key : K) (v : V) (entry : K × V) (m : List (K × V)) :
    assign key v (entry :: m) =
      if entry.1 = key then (entry.1, v) :: m else entry :: assign key v m := rfl

omit [DecidableEq K] in
@[simp] theorem keys_append (m m' : List (K × V)) : keys (m ++ m') = keys m ++ keys m' := by
  simp [keys]

variable {m : List (K × V)} {key : K}

theorem length_insert_le (key : K) (v : V) (m : List (K × V)) :
    (insert key v m).length ≤ m.length + 1 := by
  rw [insert]
  split
  · exact Nat.le_succ _
  · simp

theorem assign_of_not_mem (v : V) (h : key ∉ keys m) : assign key v m = m ++ [(key, v)] := by
  induction m with
  | nil => rfl
  | cons entry m ih =>
    rw [keys, List.map_cons, List.mem_cons, not_or] at h
    rw [assign_cons, if_neg fun heq => h.1 heq.symm, ih h.2, List.cons_append]

theorem set_eq_assign (v : V) (hnodup : (keys m).Nodup) {i : Nat} (hi : i < m.length)
    (hkey : m[i].1 = key) : m.set i (key, v) = assign key v m := by
  induction m generalizing i with
  | nil => cases hi
  | cons entry m ih =>
    rw [keys, List.map_cons, List.nodup_cons] at hnodup
    cases i with
    | zero =>
      rw [List.getElem_cons_zero] at hkey
      rw [assign_cons, if_pos hkey, List.set_cons_zero, hkey]
    | succ i =>
      rw [List.getElem_cons_succ] at hkey
      have hi' : i < m.length := Nat.lt_of_succ_lt_succ hi
      have hmem : key ∈ m.map Prod.fst := by
        rw [← hkey]
        exact List.mem_map_of_mem (List.getElem_mem hi')
      have hne : entry.1 ≠ key := fun heq => hnodup.1 (heq ▸ hmem)
      rw [assign_cons, if_neg hne, List.set_cons_succ, ih hnodup.2 hi' hkey]

theorem keys_assign (key : K) (v : V) (m : List (K × V)) :
    keys (assign key v m) = if key ∈ keys m then keys m else keys m ++ [key] := by
  induction m with
  | nil => rfl
  | cons entry m ih =>
    rw [assign_cons]
    by_cases heq : entry.1 = key
    · rw [if_pos heq, if_pos (by simp [keys, heq])]
      rfl
    · have hkeys : keys (entry :: assign key v m) = entry.1 :: keys (assign key v m) := rfl
      rw [if_neg heq, hkeys, ih]
      by_cases hmem : key ∈ keys m
      · have hmem' : key ∈ keys (entry :: m) := List.mem_cons_of_mem _ hmem
        rw [if_pos hmem, if_pos hmem']
        rfl
      · have hnot : key ∉ keys (entry :: m) := by
          rw [keys, List.map_cons, List.mem_cons, not_or]
          exact ⟨fun h => heq h.symm, hmem⟩
        rw [if_neg hmem, if_neg hnot]
        rfl

omit [DecidableEq K] in
theorem nodup_append {v : V} (hnodup : (keys m).Nodup) (h : key ∉ keys m) :
    (keys (m ++ [(key, v)])).Nodup := by
  rw [keys_append]
  exact hnodup.append (List.nodup_singleton key) (by simpa [keys] using h)

theorem nodup_assign (key : K) (v : V) (hnodup : (keys m).Nodup) : (keys (assign key v m)).Nodup := by
  rw [keys_assign]
  by_cases hmem : key ∈ keys m
  · rw [if_pos hmem]
    exact hnodup
  · rw [if_neg hmem]
    exact hnodup.append (List.nodup_singleton key) (by simpa using hmem)

theorem assign_insert (key : K) (v w : V) (m : List (K × V)) :
    assign key v (insert key w m) = assign key v m := by
  rw [insert]
  by_cases h : key ∈ keys m
  · rw [if_pos h]
  · have happend : ∀ l : List (K × V), key ∉ keys l → assign key v (l ++ [(key, w)]) =
        l ++ [(key, v)] := by
      intro l hl
      induction l with
      | nil => simp [assign]
      | cons entry l ih =>
        rw [keys, List.map_cons, List.mem_cons, not_or] at hl
        rw [List.cons_append, assign_cons, if_neg fun heq => hl.1 heq.symm, ih hl.2, List.cons_append]
    rw [if_neg h, happend m h, assign_of_not_mem v h]

theorem lookup_eq_none : lookup key m = none ↔ key ∉ keys m := by
  simp only [lookup, keys, Option.map_eq_none_iff, List.find?_eq_none, decide_eq_true_eq,
    List.mem_map, not_exists, not_and]

theorem lookup_of_getElem (hnodup : (keys m).Nodup) {i : Nat} (hi : i < m.length)
    (hkey : m[i].1 = key) : lookup key m = some m[i].2 := by
  induction m generalizing i with
  | nil => cases hi
  | cons entry m ih =>
    rw [keys, List.map_cons, List.nodup_cons] at hnodup
    cases i with
    | zero =>
      rw [List.getElem_cons_zero] at hkey
      simp [lookup, hkey]
    | succ i =>
      rw [List.getElem_cons_succ] at hkey
      have hi' : i < m.length := Nat.lt_of_succ_lt_succ hi
      have hmem : key ∈ m.map Prod.fst := by
        rw [← hkey]
        exact List.mem_map_of_mem (List.getElem_mem hi')
      have hne : entry.1 ≠ key := fun heq => hnodup.1 (heq ▸ hmem)
      have hrest := ih hnodup.2 hi' hkey
      rw [lookup] at hrest
      rw [lookup, List.find?_cons_of_neg (by simpa using hne), hrest, List.getElem_cons_succ]

theorem lookup_eq_some {v : V} (hnodup : (keys m).Nodup) : lookup key m = some v ↔ (key, v) ∈ m := by
  constructor
  · intro h
    obtain ⟨entry, hfind, hv⟩ := Option.map_eq_some_iff.mp h
    have hkey : entry.1 = key := by simpa using List.find?_some hfind
    have hentry : entry = (key, v) := Prod.ext hkey hv
    exact hentry ▸ List.mem_of_find?_eq_some hfind
  · intro h
    obtain ⟨i, hi, hget⟩ := List.mem_iff_getElem.mp h
    have hlookup := lookup_of_getElem hnodup hi (congrArg Prod.fst hget)
    rw [hlookup, hget]

theorem exists_assign_perm (key : K) (v : V) (hnodup : (keys m).Nodup) :
    ∃ rest, (assign key v m).Perm ((key, v) :: rest) ∧
      m.Perm (((lookup key m).map fun w => (key, w)).toList ++ rest) := by
  induction m with
  | nil => exact ⟨[], List.Perm.refl _, List.Perm.refl _⟩
  | cons entry m ih =>
    obtain ⟨-, hrest⟩ := List.nodup_cons.mp hnodup
    by_cases heq : entry.1 = key
    · refine ⟨m, ?_, ?_⟩
      · rw [assign_cons, if_pos heq, heq]
      · have hlookup : lookup key (entry :: m) = some entry.2 := by
          rw [lookup, List.find?_cons_of_pos (by simpa using heq), Option.map_some]
        rw [hlookup, ← heq]
        exact List.Perm.refl _
    · obtain ⟨rest, hassign, hm⟩ := ih hrest
      have hlookup : lookup key (entry :: m) = lookup key m := by
        rw [lookup, List.find?_cons_of_neg (by simpa using heq)]
        rfl
      refine ⟨entry :: rest, ?_, ?_⟩
      · rw [assign_cons, if_neg heq]
        exact (hassign.cons entry).trans (List.Perm.swap _ _ _)
      · rw [hlookup]
        exact (hm.cons entry).trans List.perm_middle.symm

theorem lookup_assign (key key' : K) (v : V) (m : List (K × V)) :
    lookup key' (assign key v m) = if key' = key then some v else lookup key' m := by
  induction m with
  | nil =>
    by_cases h : key' = key
    · simp [lookup, assign, h]
    · have hne : ¬ key = key' := fun heq => h heq.symm
      simp [lookup, assign, h, hne]
  | cons entry m ih =>
    rw [assign_cons]
    by_cases heq : entry.1 = key
    · rw [if_pos heq]
      by_cases h : key' = key
      · simp [lookup, heq, h]
      · have hne : ¬ entry.1 = key' := fun heq' => h (heq'.symm.trans heq)
        simp [lookup, h, hne]
    · rw [if_neg heq]
      by_cases hhead : entry.1 = key'
      · have h : ¬ key' = key := fun heq' => heq (hhead.trans heq')
        simp [lookup, hhead, h]
      · rw [lookup] at ih ⊢
        rw [List.find?_cons_of_neg (by simpa using hhead), ih, lookup, lookup,
          List.find?_cons_of_neg (by simpa using hhead)]

theorem lookup_map {W : Type*} (g : K → W) (key : K) (m : List (K × V)) :
    lookup key (m.map fun entry => (entry.1, g entry.1)) =
      (lookup key m).map fun _ => g key := by
  induction m with
  | nil => rfl
  | cons entry m ih =>
    by_cases heq : entry.1 = key
    · simp [lookup, heq]
    · rw [lookup, lookup] at ih ⊢
      rw [List.map_cons, List.find?_cons_of_neg (by simpa using heq), ih,
        List.find?_cons_of_neg (by simpa using heq)]

theorem exists_lookup (h : key ∈ keys m) : ∃ v, lookup key m = some v := by
  cases hlookup : lookup key m with
  | none => exact absurd h (lookup_eq_none.mp hlookup)
  | some v => exact ⟨v, rfl⟩

theorem mem_keys_foldl_assign {m acc : List (K × V)} (h : key ∈ keys acc ∨ key ∈ keys m) :
    key ∈ keys (m.foldl (fun acc entry => assign entry.1 entry.2 acc) acc) := by
  induction m generalizing acc with
  | nil => exact h.resolve_right (by simp [keys])
  | cons entry m ih =>
    refine ih ?_
    rw [keys_assign]
    rcases h with h | h
    · left
      split
      · exact h
      · exact List.mem_append_left _ h
    · rw [keys, List.map_cons, List.mem_cons] at h
      rcases h with rfl | h
      · left
        split
        next hmem => exact hmem
        next => exact List.mem_append_right _ (List.mem_singleton.mpr rfl)
      · exact .inr h

end OrderedMap

/-!
## Maps in the order of their keys

A list of key value pairs with strictly ascending keys.
-/

namespace SortedMap

variable {K V : Type*} [LinearOrder K]

def Sorted (m : List (K × V)) : Prop := m.Pairwise fun x y => x.1 < y.1

def assign (key : K) (v : V) : List (K × V) → List (K × V)
  | [] => [(key, v)]
  | entry :: m =>
    if key < entry.1 then (key, v) :: entry :: m
    else if entry.1 < key then entry :: assign key v m
    else (key, v) :: m

theorem Sorted.nodup {m : List (K × V)} (h : Sorted m) : (OrderedMap.keys m).Nodup :=
  List.pairwise_map.mpr (h.imp ne_of_lt)

theorem Sorted.eq {m : List (K × V)} (h : Sorted m) {key : K} {v w : V} (hv : (key, v) ∈ m)
    (hw : (key, w) ∈ m) : v = w := by
  have hv' := (OrderedMap.lookup_eq_some h.nodup).mpr hv
  have hw' := (OrderedMap.lookup_eq_some h.nodup).mpr hw
  exact Option.some.inj (hv'.symm.trans hw')

theorem mem_assign {m : List (K × V)} (h : Sorted m) (key : K) (v : V) (x : K × V) :
    x ∈ assign key v m ↔ x = (key, v) ∨ (x ∈ m ∧ x.1 ≠ key) := by
  induction m with
  | nil => simp [assign]
  | cons entry m ih =>
    obtain ⟨hlt, hm⟩ := List.pairwise_cons.mp h
    rw [assign]
    split
    · rename_i hkey
      have hne : ∀ y ∈ entry :: m, y.1 ≠ key := by
        intro y hy
        rcases List.mem_cons.mp hy with rfl | hy
        · exact ne_of_gt hkey
        · exact ne_of_gt (hkey.trans (hlt y hy))
      rw [List.mem_cons]
      exact or_congr_right (and_iff_left_of_imp (hne x)).symm
    split
    · rename_i hkey
      rw [List.mem_cons, ih hm, List.mem_cons, or_and_right, or_left_comm]
      refine or_congr_right (or_congr_left (and_iff_left_of_imp ?_).symm)
      rintro rfl
      exact ne_of_lt hkey
    · rename_i hngt hnlt
      have heq : entry.1 = key := le_antisymm (not_lt.mp hngt) (not_lt.mp hnlt)
      rw [List.mem_cons, List.mem_cons]
      refine or_congr_right ?_
      constructor
      · intro hx
        exact ⟨.inr hx, heq ▸ ne_of_gt (hlt x hx)⟩
      · rintro ⟨rfl | hx, hne⟩
        · exact absurd heq hne
        · exact hx

theorem sorted_assign {m : List (K × V)} (h : Sorted m) (key : K) (v : V) :
    Sorted (assign key v m) := by
  induction m with
  | nil => exact List.pairwise_singleton _ _
  | cons entry m ih =>
    obtain ⟨hlt, hm⟩ := List.pairwise_cons.mp h
    rw [assign]
    split
    · rename_i hkey
      refine List.pairwise_cons.mpr ⟨fun y hy => ?_, h⟩
      rcases List.mem_cons.mp hy with rfl | hy
      · exact hkey
      · exact hkey.trans (hlt y hy)
    split
    · rename_i hkey
      refine List.pairwise_cons.mpr ⟨fun y hy => ?_, ih hm⟩
      rcases (mem_assign hm key v y).mp hy with rfl | ⟨hy, -⟩
      · exact hkey
      · exact hlt y hy
    · rename_i hngt hnlt
      have heq : entry.1 = key := le_antisymm (not_lt.mp hngt) (not_lt.mp hnlt)
      exact List.pairwise_cons.mpr ⟨fun y hy => heq ▸ hlt y hy, hm⟩

end SortedMap
