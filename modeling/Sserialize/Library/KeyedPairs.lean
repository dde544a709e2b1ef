import Mathlib.Data.List.Basic
import Mathlib.Order.Lattice

/-!
# Walking two lists by ascending keys

A loop over two lists with strictly ascending keys sees every key once, with the element of one of
the lists or with those of both.
-/

namespace KeyedPairs

variable {α κ : Type*}

inductive Pairing (α : Type*) where
  | first (x : α)
  | second (y : α)
  | both (x y : α)
  deriving Repr, DecidableEq

def Pairing.key (key : α → κ) : Pairing α → κ
  | .first x => key x
  | .second y => key y
  | .both x _ => key x

variable [LinearOrder κ] (key : α → κ)

def pairUp : List α → List α → List (Pairing α)
  | [], ys => ys.map .second
  | x :: xs, [] => (x :: xs).map .first
  | x :: xs, y :: ys =>
    if key x < key y then .first x :: pairUp xs (y :: ys)
    else if key y < key x then .second y :: pairUp (x :: xs) ys
    else .both x y :: pairUp xs ys
termination_by xs ys => xs.length + ys.length

def Sorted (xs : List α) : Prop := xs.Pairwise fun x y => key x < key y

variable {key}

theorem Sorted.eq {xs : List α} (h : Sorted key xs) {x y : α} (hx : x ∈ xs) (hy : y ∈ xs)
    (hkey : key x = key y) : x = y := by
  induction xs with
  | nil => cases hx
  | cons z zs ih =>
    obtain ⟨hz, hzs⟩ := List.pairwise_cons.mp h
    rcases List.mem_cons.mp hx with hxz | hxs
    · rcases List.mem_cons.mp hy with hyz | hys
      · rw [hxz, hyz]
      · exact absurd (hxz ▸ hkey) (ne_of_lt (hz y hys))
    · rcases List.mem_cons.mp hy with hyz | hys
      · exact absurd (hyz ▸ hkey.symm) (ne_of_lt (hz x hxs))
      · exact ih hzs hxs hys

def Pairing.Of (key : α → κ) (xs ys : List α) : Pairing α → Prop
  | .first x => x ∈ xs ∧ ∀ y ∈ ys, key y ≠ key x
  | .second y => y ∈ ys ∧ ∀ x ∈ xs, key x ≠ key y
  | .both x y => x ∈ xs ∧ y ∈ ys ∧ key x = key y

theorem mem_pairUp {xs ys : List α} (hxs : Sorted key xs) (hys : Sorted key ys)
    (p : Pairing α) : p ∈ pairUp key xs ys ↔ p.Of key xs ys := by
  induction xs, ys using pairUp.induct key with
  | case1 ys | case2 x xs =>
    rw [pairUp, List.mem_map]
    cases p <;> simp [Pairing.Of]
  | case3 x xs y ys hlt ih =>
    obtain ⟨hx, hxs'⟩ := List.pairwise_cons.mp hxs
    obtain ⟨hy, -⟩ := List.pairwise_cons.mp hys
    have hne : ∀ z ∈ y :: ys, key z ≠ key x := by
      intro z hz
      rcases List.mem_cons.mp hz with rfl | hz
      · exact ne_of_gt hlt
      · exact ne_of_gt (lt_trans hlt (hy z hz))
    have hnex : ∀ z ∈ xs, key z ≠ key x := fun z hz => ne_of_gt (hx z hz)
    rw [pairUp, if_pos hlt, List.mem_cons, ih hxs' hys]
    cases p with
    | first z =>
      simp only [Pairing.Of, Pairing.first.injEq, List.mem_cons (l := xs)]
      constructor
      · rintro (rfl | ⟨hz, hkey⟩)
        · exact ⟨.inl rfl, hne⟩
        · exact ⟨.inr hz, hkey⟩
      · rintro ⟨rfl | hz, hkey⟩
        · exact .inl rfl
        · exact .inr ⟨hz, hkey⟩
    | second z =>
      simp only [Pairing.Of, reduceCtorEq, false_or, List.forall_mem_cons (l := xs)]
      constructor
      · rintro ⟨hz, hkey⟩
        exact ⟨hz, (hne z hz).symm, hkey⟩
      · rintro ⟨hz, -, hkey⟩
        exact ⟨hz, hkey⟩
    | both z w =>
      simp only [Pairing.Of, reduceCtorEq, false_or, List.mem_cons (l := xs)]
      constructor
      · rintro ⟨hz, hw, hkey⟩
        exact ⟨.inr hz, hw, hkey⟩
      · rintro ⟨rfl | hz, hw, hkey⟩
        · exact absurd hkey.symm (hne w hw)
        · exact ⟨hz, hw, hkey⟩
  | case4 x xs y ys hnlt hlt ih =>
    obtain ⟨hx, -⟩ := List.pairwise_cons.mp hxs
    obtain ⟨hy, hys'⟩ := List.pairwise_cons.mp hys
    have hne : ∀ z ∈ x :: xs, key z ≠ key y := by
      intro z hz
      rcases List.mem_cons.mp hz with rfl | hz
      · exact ne_of_gt hlt
      · exact ne_of_gt (lt_trans hlt (hx z hz))
    rw [pairUp, if_neg hnlt, if_pos hlt, List.mem_cons, ih hxs hys']
    cases p with
    | first z =>
      simp only [Pairing.Of, reduceCtorEq, false_or, List.forall_mem_cons (l := ys)]
      constructor
      · rintro ⟨hz, hkey⟩
        exact ⟨hz, (hne z hz).symm, hkey⟩
      · rintro ⟨hz, -, hkey⟩
        exact ⟨hz, hkey⟩
    | second z =>
      simp only [Pairing.Of, Pairing.second.injEq, List.mem_cons (l := ys)]
      constructor
      · rintro (rfl | ⟨hz, hkey⟩)
        · exact ⟨.inl rfl, hne⟩
        · exact ⟨.inr hz, hkey⟩
      · rintro ⟨rfl | hz, hkey⟩
        · exact .inl rfl
        · exact .inr ⟨hz, hkey⟩
    | both z w =>
      simp only [Pairing.Of, reduceCtorEq, false_or, List.mem_cons (l := ys)]
      constructor
      · rintro ⟨hz, hw, hkey⟩
        exact ⟨hz, .inr hw, hkey⟩
      · rintro ⟨hz, rfl | hw, hkey⟩
        · exact absurd hkey (hne z hz)
        · exact ⟨hz, hw, hkey⟩
  | case5 x xs y ys hnlt hnlt' ih =>
    obtain ⟨hx, hxs'⟩ := List.pairwise_cons.mp hxs
    obtain ⟨hy, hys'⟩ := List.pairwise_cons.mp hys
    have heq : key x = key y := le_antisymm (not_lt.mp hnlt') (not_lt.mp hnlt)
    have hnex : ∀ z ∈ xs, key z ≠ key y := fun z hz => heq ▸ ne_of_gt (hx z hz)
    have hney : ∀ z ∈ ys, key z ≠ key x := fun z hz => heq ▸ ne_of_gt (hy z hz)
    rw [pairUp, if_neg hnlt, if_neg hnlt', List.mem_cons, ih hxs' hys']
    cases p with
    | first z =>
      simp only [Pairing.Of, reduceCtorEq, false_or, List.forall_mem_cons (l := ys),
        List.mem_cons (l := xs)]
      constructor
      · rintro ⟨hz, hkey⟩
        exact ⟨.inr hz, (hnex z hz).symm, hkey⟩
      · rintro ⟨rfl | hz, hhead, hkey⟩
        · exact absurd heq.symm hhead
        · exact ⟨hz, hkey⟩
    | second z =>
      simp only [Pairing.Of, reduceCtorEq, false_or, List.forall_mem_cons (l := xs),
        List.mem_cons (l := ys)]
      constructor
      · rintro ⟨hz, hkey⟩
        exact ⟨.inr hz, (hney z hz).symm, hkey⟩
      · rintro ⟨rfl | hz, hhead, hkey⟩
        · exact absurd heq hhead
        · exact ⟨hz, hkey⟩
    | both z w =>
      simp only [Pairing.Of, Pairing.both.injEq, List.mem_cons]
      constructor
      · rintro (⟨rfl, rfl⟩ | ⟨hz, hw, hkey⟩)
        · exact ⟨.inl rfl, .inl rfl, heq⟩
        · exact ⟨.inr hz, .inr hw, hkey⟩
      · rintro ⟨rfl | hz, rfl | hw, hkey⟩
        · exact .inl ⟨rfl, rfl⟩
        · exact absurd hkey.symm (hney w hw)
        · exact absurd hkey (hnex z hz)
        · exact .inr ⟨hz, hw, hkey⟩

theorem pairwise_pairUp {xs ys : List α} (hxs : Sorted key xs) (hys : Sorted key ys) :
    (pairUp key xs ys).Pairwise fun p q => p.key key < q.key key := by
  induction xs, ys using pairUp.induct key with
  | case1 ys =>
    rw [pairUp]
    exact List.pairwise_map.mpr hys
  | case2 x xs =>
    rw [pairUp]
    exact List.pairwise_map.mpr hxs
  | case3 x xs y ys hlt ih =>
    obtain ⟨hx, hxs'⟩ := List.pairwise_cons.mp hxs
    obtain ⟨hy, -⟩ := List.pairwise_cons.mp hys
    rw [pairUp, if_pos hlt]
    refine List.pairwise_cons.mpr ⟨fun p hp => ?_, ih hxs' hys⟩
    have hbelow : ∀ z ∈ y :: ys, key x < key z := by
      intro z hz
      rcases List.mem_cons.mp hz with rfl | hz
      · exact hlt
      · exact lt_trans hlt (hy z hz)
    rw [mem_pairUp hxs' hys] at hp
    cases p with
    | first z => exact hx z hp.1
    | second z => exact hbelow z hp.1
    | both z w => exact hx z hp.1
  | case4 x xs y ys hnlt hlt ih =>
    obtain ⟨hx, -⟩ := List.pairwise_cons.mp hxs
    obtain ⟨hy, hys'⟩ := List.pairwise_cons.mp hys
    rw [pairUp, if_neg hnlt, if_pos hlt]
    refine List.pairwise_cons.mpr ⟨fun p hp => ?_, ih hxs hys'⟩
    have hbelow : ∀ z ∈ x :: xs, key y < key z := by
      intro z hz
      rcases List.mem_cons.mp hz with rfl | hz
      · exact hlt
      · exact lt_trans hlt (hx z hz)
    rw [mem_pairUp hxs hys'] at hp
    cases p with
    | first z | both z w => exact hbelow z hp.1
    | second z => exact hy z hp.1
  | case5 x xs y ys hnlt hnlt' ih =>
    obtain ⟨hx, hxs'⟩ := List.pairwise_cons.mp hxs
    obtain ⟨hy, hys'⟩ := List.pairwise_cons.mp hys
    have heq : key x = key y := le_antisymm (not_lt.mp hnlt') (not_lt.mp hnlt)
    rw [pairUp, if_neg hnlt, if_neg hnlt']
    refine List.pairwise_cons.mpr ⟨fun p hp => ?_, ih hxs' hys'⟩
    rw [mem_pairUp hxs' hys'] at hp
    cases p with
    | first z => exact hx z hp.1
    | second z => exact lt_of_eq_of_lt heq (hy z hp.1)
    | both z w => exact hx z hp.1

section

variable {β ε : Type*}

def collect (f : α → Except ε (List β)) : List α → Except ε (List β)
  | [] => .ok []
  | x :: xs =>
    match f x with
    | .error e => .error e
    | .ok ys => (collect f xs).map (ys ++ ·)

theorem collect_eq {f : α → Except ε (List β)} {g : α → List β} {xs : List α}
    (h : ∀ x ∈ xs, f x = .ok (g x)) : collect f xs = .ok (xs.flatMap g) := by
  induction xs with
  | nil => rfl
  | cons x xs ih =>
    have hx := h x (by simp)
    have hxs := ih fun y hy => h y (List.mem_cons_of_mem _ hy)
    rw [collect, hx, hxs]
    rfl

end

theorem sorted_flatMap {β : Type*} {key' : β → κ} {xs : List β} {g : β → List α}
    (hxs : xs.Pairwise fun x y => key' x < key' y)
    (hkey : ∀ x ∈ xs, ∀ y ∈ g x, key y = key' x) (hlen : ∀ x ∈ xs, (g x).length ≤ 1) :
    Sorted key (xs.flatMap g) := by
  induction xs with
  | nil => exact List.Pairwise.nil
  | cons x xs ih =>
    obtain ⟨hx, hxs'⟩ := List.pairwise_cons.mp hxs
    have hrec := ih hxs' (fun y hy => hkey y (List.mem_cons_of_mem _ hy))
      fun y hy => hlen y (List.mem_cons_of_mem _ hy)
    rw [List.flatMap_cons]
    refine List.pairwise_append.mpr ⟨?_, hrec, ?_⟩
    · have hone := hlen x (by simp)
      match hg : g x, hone with
      | [], _ => exact List.Pairwise.nil
      | [a], _ => exact List.pairwise_singleton _ a
    · intro a ha b hb
      obtain ⟨y, hy, hby⟩ := List.mem_flatMap.mp hb
      have hka := hkey x (by simp) a ha
      have hkb := hkey y (List.mem_cons_of_mem _ hy) b hby
      rw [hka, hkb]
      exact hx y hy

end KeyedPairs
