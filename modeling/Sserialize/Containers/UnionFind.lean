import Sserialize.Library.RankedForest
import Sserialize.Storage.Bytes

/-!
# `UnionFind`

Handles are positions in a vector of entries. An entry packs its parent and its rank into one word of
64 bits. An operation that throws leaves what it has written, so every operation gives the structure
behind it. `find` recurses along the parents, which takes fuel; `none` is a recursion that has not
ended.
-/

namespace Sserialize

namespace UnionFind

def parentBits : Nat := 36

def rankBits : Nat := 28

structure Entry (V : Type) where
  value : V
  parent : Nat
  rank : Nat
  deriving DecidableEq

namespace Entry

variable {V : Type}

def new (parent : Nat) (v : V) : Except Fault (Entry V) :=
  let e : Entry V := { value := v, parent := parent % 2 ^ parentBits, rank := 0 }
  if parent ≠ e.parent then .error .typeOverflow else .ok e

def setParent (e : Entry V) (parent : Nat) : Entry V := { e with parent := parent % 2 ^ parentBits }

def incRank (e : Entry V) : Entry V := { e with rank := (e.rank + 1) % 2 ^ rankBits }

end Entry

end UnionFind

structure UnionFind (V : Type) where
  d : List (UnionFind.Entry V)
  deriving DecidableEq

namespace UnionFind

variable {V : Type}

def new : UnionFind V := { d := [] }

def size (u : UnionFind V) : Nat := u.d.length

def get (u : UnionFind V) (a : Nat) : Except Fault V :=
  match u.d[a]? with
  | none => .error .outOfRange
  | some e => .ok e.value

/-- `emplace_back` of an entry that throws adds none. -/
def makeSet (u : UnionFind V) (v : V) : Except Fault Nat × UnionFind V :=
  let p := u.size
  match Entry.new p v with
  | .error e => (.error e, u)
  | .ok e => (.ok p, { u with d := u.d ++ [e] })

def findAndCompress : Nat → UnionFind V → Nat → Option (Except Fault Nat × UnionFind V)
  | 0, _, _ => none
  | fuel + 1, u, a =>
    match u.d[a]? with
    | none => some (.error .undefinedBehaviour, u)
    | some e =>
      if e.parent ≠ a then
        match findAndCompress fuel u e.parent with
        | none => none
        | some (.error f, u) => some (.error f, u)
        | some (.ok r, u) =>
          some (.ok (r % 2 ^ parentBits), { u with d := u.d.modify a fun e => e.setParent r })
      else some (.ok e.parent, u)

def find (fuel : Nat) (u : UnionFind V) (a : Nat) : Option (Except Fault Nat × UnionFind V) :=
  if a ≥ u.size then some (.error .outOfRange, u) else findAndCompress fuel u a

/-- `unite` behind the two calls of `find`. -/
def link (u : UnionFind V) (pa pb : Nat) : Except Fault Unit × UnionFind V :=
  if pa = pb then (.ok (), u)
  else
    match u.d[pa]?, u.d[pb]? with
    | some epa, some epb =>
      if epa.rank < epb.rank then (.ok (), { u with d := u.d.set pa (epa.setParent pb) })
      else if epa.rank > epb.rank then (.ok (), { u with d := u.d.set pb (epb.setParent pa) })
      else
        let u := { u with d := (u.d.set pa (epa.setParent pb)).set pb epb.incRank }
        if epb.incRank.rank = 0 then (.error .typeOverflow, u) else (.ok (), u)
    | _, _ => (.error .undefinedBehaviour, u)

def unite (fuel : Nat) (u : UnionFind V) (a b : Nat) : Option (Except Fault Unit × UnionFind V) :=
  match find fuel u a with
  | none => none
  | some (.error e, u) => some (.error e, u)
  | some (.ok pa, u) =>
    match find fuel u b with
    | none => none
    | some (.error e, u) => some (.error e, u)
    | some (.ok pb, u) => some (link u pa pb)

/-- The structures that sequences of calls reach from the empty one, with the handles that were united
so far. The caller may go on behind an exception. -/
inductive Reaches : UnionFind V → List (Nat × Nat) → Prop
  | new : Reaches new []
  | makeSet {u : UnionFind V} {united : List (Nat × Nat)} (v : V) (h : Reaches u united) :
      Reaches (u.makeSet v).2 united
  | find {u u' : UnionFind V} {united : List (Nat × Nat)} {fuel a : Nat} {r : Except Fault Nat}
      (h : Reaches u united) (hfind : u.find fuel a = some (r, u')) : Reaches u' united
  | unite {u u' : UnionFind V} {united : List (Nat × Nat)} {fuel a b : Nat} (h : Reaches u united)
      (hunite : u.unite fuel a b = some (.ok (), u')) : Reaches u' (united ++ [(a, b)])
  | uniteThrows {u u' : UnionFind V} {united : List (Nat × Nat)} {fuel a b : Nat} {e : Fault}
      (h : Reaches u united) (hunite : u.unite fuel a b = some (.error e, u')) : Reaches u' united

def Connected (united : List (Nat × Nat)) : Nat → Nat → Prop :=
  Relation.EqvGen fun a b => (a, b) ∈ united

def Finds (u : UnionFind V) (a r : Nat) : Prop := ∃ fuel u', u.find fuel a = some (.ok r, u')

def Parent (u : UnionFind V) (a b : Nat) : Prop :=
  (u.d[a]?).map Entry.parent = some b ∧ a ≠ b

inductive Below (u : UnionFind V) (r : Nat) : Nat → Nat → Prop
  | root (h : (u.d[r]?).map Entry.parent = some r) : Below u r 0 r
  | parent {a b n : Nat} (h : u.Parent a b) (hb : Below u r n b) : Below u r (n + 1) a

end UnionFind

end Sserialize

/-!
## Runs of `UnionFind`

The entries are a ranked forest over all numbers: a number that is no handle is a root of its own. All
calls keep it, and its classes are the handles that were connected.
-/

namespace Sserialize.UnionFind

open RankedForest
open Function (update update_self update_of_ne update_apply update_eq_self)

variable {V : Type} {u u' : UnionFind V} {united : List (Nat × Nat)}

def parentOf (u : UnionFind V) (a : Nat) : Nat := ((u.d[a]?).map Entry.parent).getD a

def rankOf (u : UnionFind V) (a : Nat) : Nat := ((u.d[a]?).map Entry.rank).getD 0

/-- The fields of an entry suffice for the handles and for the ranks. -/
structure Inv (u : UnionFind V) (united : List (Nat × Nat)) : Prop where
  small : u.size ≤ 2 ^ parentBits
  parent_lt : ∀ a < u.size, u.parentOf a < u.size
  ranked : Ranked u.parentOf u.rankOf
  weighted : Weighted u.parentOf u.rankOf
  same : ∀ a b, Same u.parentOf a b ↔ Connected united a b

/-! ## Entries -/

variable {a : Nat}

theorem parentOf_of_size_le (h : u.size ≤ a) : u.parentOf a = a := by
  rw [parentOf, List.getElem?_eq_none h]
  rfl

theorem parentOf_eq {e : Entry V} (h : u.d[a]? = some e) : u.parentOf a = e.parent := by
  rw [parentOf, h]
  rfl

theorem rankOf_eq {e : Entry V} (h : u.d[a]? = some e) : u.rankOf a = e.rank := by
  rw [rankOf, h]
  rfl

theorem exists_entry (h : a < u.size) : ∃ e, u.d[a]? = some e :=
  ⟨u.d[a], List.getElem?_eq_getElem h⟩

theorem lt_size {e : Entry V} (h : u.d[a]? = some e) : a < u.size :=
  (List.getElem?_eq_some_iff.mp h).1

theorem parentOf_set (h : a < u.size) (e : Entry V) : parentOf { u with d := u.d.set a e } = update u.parentOf a e.parent := by
  funext b
  rw [parentOf, update_apply]
  simp only [List.getElem?_set]
  by_cases hb : b = a
  · subst hb
    simp only [if_true]
    rw [if_pos (show b < u.d.length from h)]
    rfl
  · rw [if_neg (Ne.symm hb), if_neg hb, parentOf]

theorem rankOf_set (h : a < u.size) (e : Entry V) : rankOf { u with d := u.d.set a e } = update u.rankOf a e.rank := by
  funext b
  rw [rankOf, update_apply]
  simp only [List.getElem?_set]
  by_cases hb : b = a
  · subst hb
    simp only [if_true]
    rw [if_pos (show b < u.d.length from h)]
    rfl
  · rw [if_neg (Ne.symm hb), if_neg hb, rankOf]

theorem size_set (u : UnionFind V) (a : Nat) (e : Entry V) :
    size { u with d := u.d.set a e } = u.size :=
  List.length_set

/-! ## The forest of the handles -/

theorem Inv.lt_size_iff (h : Inv u united) {a r : Nat} (hr : RootOf u.parentOf a r) :
    r < u.size ↔ a < u.size := by
  obtain ⟨n, hr⟩ := hr
  induction hr with
  | root _ => rfl
  | @step a r _ hne _ ih =>
    have ha : a < u.size := by
      by_contra hout
      exact hne (parentOf_of_size_le (Nat.le_of_not_lt hout))
    rw [ih]
    exact ⟨fun _ => ha, fun _ => h.parent_lt a ha⟩

theorem Inv.tree_subset (h : Inv u united) {r : Nat} (hr : r < u.size) :
    tree u.parentOf r ⊆ ↑(Finset.range u.size) := by
  intro a ha
  rw [Finset.coe_range, Set.mem_Iio]
  exact (h.lt_size_iff ha).mp hr

theorem Inv.finite_tree (h : Inv u united) {r : Nat} (hr : r < u.size) :
    (tree u.parentOf r).Finite :=
  (Finset.finite_toSet _).subset (h.tree_subset hr)

theorem Inv.rank_le (h : Inv u united) {r : Nat} (hr : r < u.size) (hroot : u.parentOf r = r) :
    u.rankOf r ≤ Nat.log 2 u.size := by
  have hcard : (tree u.parentOf r).ncard ≤ u.size := by
    have hle := Set.ncard_le_ncard (h.tree_subset hr)
    rwa [Set.ncard_coe_finset, Finset.card_range] at hle
  exact (h.weighted.rank_le_log hroot (h.finite_tree hr)).trans (Nat.log_mono_right hcard)

theorem Inv.leads_lt (h : Inv u united) {a n r : Nat} (ha : a < u.size)
    (hr : Leads u.parentOf a n r) : n < u.size := by
  have hrank := h.rank_le ((h.lt_size_iff ⟨n, hr⟩).mpr ha) hr.isRoot
  have hlog := Nat.log_lt_self 2 (Nat.ne_of_gt (Nat.zero_lt_of_lt ha))
  have hadd := hr.add_rank_le h.ranked
  omega

/-! ## `find` -/

/-- The forest changed, and every element still leads to its root. -/
structure Kept (u u' : UnionFind V) (united : List (Nat × Nat)) : Prop where
  inv : Inv u' united
  size : u'.size = u.size
  roots : ∀ a r, RootOf u'.parentOf a r ↔ RootOf u.parentOf a r

theorem Inv.kept (h : Inv u united) : Kept u u united := ⟨h, rfl, fun _ _ => Iff.rfl⟩

theorem Kept.trans {u₁ u₂ : UnionFind V} (h : Kept u u₁ united) (h' : Kept u₁ u₂ united) :
    Kept u u₂ united :=
  ⟨h'.inv, h'.size.trans h.size, fun a r => (h'.roots a r).trans (h.roots a r)⟩

theorem Inv.compress (h : Inv u united) {a r : Nat} (ha : a < u.size)
    (hr : RootOf u.parentOf a r) :
    Kept u { u with d := u.d.modify a fun e => e.setParent r } united := by
  have hrsize := (h.lt_size_iff hr).mpr ha
  obtain ⟨e, he⟩ := exists_entry ha
  have hmodify : u.d.modify a (fun e => e.setParent r) = u.d.set a (e.setParent r) := by
    rw [List.modify_eq_set_getElem?, he]
    rfl
  have hparent : parentOf { u with d := u.d.set a (e.setParent r) } =
      update u.parentOf a r := by
    rw [parentOf_set ha]
    congr 1
    exact Nat.mod_eq_of_lt (Nat.lt_of_lt_of_le hrsize h.small)
  have hrank : rankOf { u with d := u.d.set a (e.setParent r) } = u.rankOf := by
    rw [rankOf_set ha]
    change update u.rankOf a e.rank = u.rankOf
    rw [← rankOf_eq he, update_eq_self]
  have hroots : ∀ b s, RootOf (parentOf { u with d := u.d.set a (e.setParent r) }) b s ↔
      RootOf u.parentOf b s := by
    rw [hparent]
    exact rootOf_compress hr
  rw [hmodify]
  refine ⟨⟨?_, ?_, ?_, ?_, ?_⟩, size_set u a _, hroots⟩
  · rw [size_set]
    exact h.small
  · intro b hb
    rw [size_set] at hb ⊢
    rw [hparent, update_apply]
    split
    · exact hrsize
    · exact h.parent_lt b hb
  · rw [hparent, hrank]
    exact h.ranked.compress hr
  · rw [hparent, hrank]
    exact h.weighted.compress hr
  · intro b c
    rw [← h.same]
    simp only [Same, hroots]

theorem findAndCompress_spec {fuel a : Nat} {r : Except Fault Nat} (h : Inv u united)
    (ha : a < u.size) (hfind : u.findAndCompress fuel a = some (r, u')) :
    ∃ s, r = .ok s ∧ RootOf u.parentOf a s ∧ Kept u u' united := by
  induction fuel generalizing a r u' with
  | zero => cases hfind
  | succ fuel ih =>
    obtain ⟨e, he⟩ := exists_entry ha
    have hparent := parentOf_eq he
    rw [findAndCompress, he] at hfind
    dsimp only at hfind
    by_cases hroot : e.parent = a
    · rw [if_neg (not_not_intro hroot)] at hfind
      obtain ⟨rfl, rfl⟩ := Prod.mk.inj (Option.some.inj hfind)
      refine ⟨a, by rw [hroot], ?_, h.kept⟩
      exact rootOf_self (hparent.trans hroot)
    · rw [if_pos hroot] at hfind
      have hlt := h.parent_lt a ha
      rw [hparent] at hlt
      cases hrec : u.findAndCompress fuel e.parent with
      | none =>
        rw [hrec] at hfind
        cases hfind
      | some result =>
        obtain ⟨r₁, u₁⟩ := result
        obtain ⟨s, rfl, hs, hkept⟩ := ih hlt hrec
        rw [hrec] at hfind
        obtain ⟨rfl, rfl⟩ := Prod.mk.inj (Option.some.inj hfind)
        have hsa : RootOf u.parentOf a s := by
          rw [← rootOf_parent, hparent]
          exact hs
        have hsize : s < 2 ^ parentBits :=
          Nat.lt_of_lt_of_le ((h.lt_size_iff hsa).mpr ha) h.small
        refine ⟨s, by rw [Nat.mod_eq_of_lt hsize], hsa, ?_⟩
        apply hkept.trans
        apply hkept.inv.compress
        · rw [hkept.size]
          exact ha
        · rw [hkept.roots]
          exact hsa

theorem findAndCompress_returns {fuel a n r : Nat} (hr : Leads u.parentOf a n r) (hn : n < fuel) :
    ∃ result, u.findAndCompress fuel a = some result := by
  induction hr generalizing fuel with
  | @root a hroot =>
    obtain ⟨fuel, rfl⟩ : ∃ k, fuel = k + 1 := ⟨fuel - 1, by omega⟩
    rw [findAndCompress]
    cases he : u.d[a]? with
    | none => exact ⟨_, rfl⟩
    | some e =>
      dsimp only
      rw [if_neg (not_not_intro ((parentOf_eq he).symm.trans hroot))]
      exact ⟨_, rfl⟩
  | @step a _ n hne _ ih =>
    obtain ⟨fuel, rfl⟩ : ∃ k, fuel = k + 1 := ⟨fuel - 1, by omega⟩
    rw [findAndCompress]
    cases he : u.d[a]? with
    | none => exact ⟨_, rfl⟩
    | some e =>
      have hparent := parentOf_eq he
      rw [hparent] at hne ih
      obtain ⟨⟨r', u'⟩, hrec⟩ := ih (Nat.lt_of_succ_lt_succ hn)
      dsimp only
      rw [if_pos hne, hrec]
      cases r' with
      | error f | ok s => exact ⟨_, rfl⟩

theorem find_of_lt {fuel a : Nat} (ha : a < u.size) :
    u.find fuel a = u.findAndCompress fuel a :=
  if_neg (Nat.not_le_of_lt ha)

theorem find_of_le {fuel a : Nat} (ha : u.size ≤ a) :
    u.find fuel a = some (.error .outOfRange, u) :=
  if_pos ha

theorem find_spec {fuel a r : Nat} (h : Inv u united) (hfind : u.find fuel a = some (.ok r, u')) :
    a < u.size ∧ RootOf u.parentOf a r ∧ Kept u u' united := by
  rcases Nat.lt_or_ge a u.size with ha | ha
  · rw [find_of_lt ha] at hfind
    obtain ⟨s, hs, hroot, hkept⟩ := findAndCompress_spec h ha hfind
    obtain rfl := Except.ok.inj hs
    exact ⟨ha, hroot, hkept⟩
  · rw [find_of_le ha] at hfind
    cases hfind

theorem find_kept {fuel a : Nat} {r : Except Fault Nat} (h : Inv u united)
    (hfind : u.find fuel a = some (r, u')) : Kept u u' united := by
  rcases Nat.lt_or_ge a u.size with ha | ha
  · rw [find_of_lt ha] at hfind
    obtain ⟨s, -, -, hkept⟩ := findAndCompress_spec h ha hfind
    exact hkept
  · rw [find_of_le ha] at hfind
    obtain ⟨-, rfl⟩ := Prod.mk.inj (Option.some.inj hfind)
    exact h.kept

theorem find_returns {fuel a : Nat} (h : Inv u united) (ha : a < u.size) (hfuel : u.size ≤ fuel) :
    ∃ r u', u.find fuel a = some (.ok r, u') := by
  obtain ⟨n, r, hr⟩ := h.ranked.exists_leads a
  have hn := h.leads_lt ha hr
  obtain ⟨⟨r', u'⟩, hresult⟩ := findAndCompress_returns hr (Nat.lt_of_lt_of_le hn hfuel)
  obtain ⟨s, rfl, -, -⟩ := findAndCompress_spec h ha hresult
  exact ⟨s, u', by rw [find_of_lt ha, hresult]⟩

theorem finds_iff (h : Inv u united) {a r : Nat} :
    u.Finds a r ↔ a < u.size ∧ RootOf u.parentOf a r := by
  constructor
  · rintro ⟨fuel, u', hfind⟩
    obtain ⟨ha, hr, -⟩ := find_spec h hfind
    exact ⟨ha, hr⟩
  · rintro ⟨ha, hr⟩
    obtain ⟨s, u', hfind⟩ := find_returns h ha (Nat.le_refl _)
    obtain ⟨-, hs, -⟩ := find_spec h hfind
    rw [hr.unique hs]
    exact ⟨u.size, u', hfind⟩

/-! ## `unite` -/

theorem connected_append (united : List (Nat × Nat)) (a b : Nat) {x y : Nat} :
    Connected (united ++ [(a, b)]) x y ↔
      Connected united x y ∨ (Connected united x a ∧ Connected united y b) ∨
        (Connected united x b ∧ Connected united y a) := by
  have hmono : ∀ {x y}, Connected united x y → Connected (united ++ [(a, b)]) x y := by
    intro x y hxy
    exact Relation.EqvGen.mono (fun _ _ hmem => List.mem_append_left _ hmem) x y hxy
  have hab : Connected (united ++ [(a, b)]) a b :=
    .rel a b (List.mem_append_right _ List.mem_cons_self)
  constructor
  · intro hxy
    induction hxy with
    | rel x y hmem =>
      rcases List.mem_append.mp hmem with hmem | hmem
      · exact .inl (.rel x y hmem)
      · obtain ⟨rfl, rfl⟩ := Prod.mk.inj (List.mem_singleton.mp hmem)
        exact .inr (.inl ⟨.refl _, .refl _⟩)
    | refl x => exact .inl (.refl x)
    | symm x y _ ih =>
      rcases ih with hxy | ⟨hxa, hyb⟩ | ⟨hxb, hya⟩
      · exact .inl hxy.symm
      · exact .inr (.inr ⟨hyb, hxa⟩)
      · exact .inr (.inl ⟨hya, hxb⟩)
    | trans x y z _ _ hxy hyz =>
      have hjoin : ∀ {s t v : Nat}, Connected united s t → Connected united s v →
          Connected united t v := fun hst hsv => hst.symm.trans _ _ _ hsv
      rcases hxy with hxy | ⟨hxa, hyb⟩ | ⟨hxb, hya⟩
      · rcases hyz with hyz | ⟨hya, hzb⟩ | ⟨hyb, hza⟩
        · exact .inl (hxy.trans _ _ _ hyz)
        · exact .inr (.inl ⟨hxy.trans _ _ _ hya, hzb⟩)
        · exact .inr (.inr ⟨hxy.trans _ _ _ hyb, hza⟩)
      · rcases hyz with hyz | ⟨-, hzb⟩ | ⟨-, hza⟩
        · exact .inr (.inl ⟨hxa, hjoin hyz hyb⟩)
        · exact .inr (.inl ⟨hxa, hzb⟩)
        · exact .inl (hxa.trans _ _ _ hza.symm)
      · rcases hyz with hyz | ⟨-, hzb⟩ | ⟨-, hza⟩
        · exact .inr (.inr ⟨hxb, hjoin hyz hya⟩)
        · exact .inl (hxb.trans _ _ _ hzb.symm)
        · exact .inr (.inr ⟨hxb, hza⟩)
  · rintro (hxy | ⟨hxa, hyb⟩ | ⟨hxb, hya⟩)
    · exact hmono hxy
    · exact ((hmono hxa).trans _ _ _ hab).trans _ _ _ (hmono hyb).symm
    · exact ((hmono hxb).trans _ _ _ hab.symm).trans _ _ _ (hmono hya).symm

theorem Inv.join (h : Inv u united) {a b ra rb child root : Nat} (hra : RootOf u.parentOf a ra)
    (hrb : RootOf u.parentOf b rb) (hne : child ≠ root)
    (hchild : (child = ra ∧ root = rb) ∨ (child = rb ∧ root = ra)) (hroot : root < u.size)
    (hsize : u'.size = u.size) (hparent : u'.parentOf = update u.parentOf child root)
    (hranked : Ranked u'.parentOf u'.rankOf) (hweighted : Weighted u'.parentOf u'.rankOf) :
    Inv u' (united ++ [(a, b)]) := by
  have hself : u.parentOf child = child ∧ u.parentOf root = root := by
    rcases hchild with ⟨rfl, rfl⟩ | ⟨rfl, rfl⟩
    · exact ⟨hra.isRoot, hrb.isRoot⟩
    · exact ⟨hrb.isRoot, hra.isRoot⟩
  have hclass : ∀ {z c s}, RootOf u.parentOf c s → (Same u.parentOf z s ↔ Connected united z c) := by
    intro z c s hs
    obtain ⟨t, ht⟩ := h.ranked.exists_root z
    rw [← h.same, same_iff ht (rootOf_self hs.isRoot), same_iff ht hs]
  refine ⟨hsize ▸ h.small, ?_, hranked, hweighted, ?_⟩
  · intro x hx
    rw [hsize] at hx ⊢
    rw [hparent, update_apply]
    split
    · exact hroot
    · exact h.parent_lt x hx
  · intro x y
    rw [hparent, same_link h.ranked hself.1 hself.2 hne, connected_append, h.same]
    rcases hchild with ⟨rfl, rfl⟩ | ⟨rfl, rfl⟩
    · rw [hclass hra, hclass hrb, hclass hra, hclass hrb]
    · rw [hclass hra, hclass hrb, hclass hra, hclass hrb]
      exact or_congr Iff.rfl or_comm

theorem Inv.sameRoot (h : Inv u united) {a b r : Nat} (hra : RootOf u.parentOf a r)
    (hrb : RootOf u.parentOf b r) : Inv u (united ++ [(a, b)]) := by
  have hab : Connected united a b := (h.same a b).mp ⟨r, hra, hrb⟩
  refine { h with same := ?_ }
  intro x y
  rw [h.same, connected_append]
  constructor
  · exact .inl
  · rintro (hxy | ⟨hxa, hyb⟩ | ⟨hxb, hya⟩)
    · exact hxy
    · exact (hxa.trans _ _ _ hab).trans _ _ _ hyb.symm
    · exact (hxb.trans _ _ _ hab.symm).trans _ _ _ hya.symm

theorem link_spec {a b pa pb : Nat} (h : Inv u united) (ha : a < u.size) (hb : b < u.size)
    (hra : RootOf u.parentOf a pa) (hrb : RootOf u.parentOf b pb) :
    ∃ u', u.link pa pb = (.ok (), u') ∧ Inv u' (united ++ [(a, b)]) ∧ u'.size = u.size := by
  have hpa := (h.lt_size_iff hra).mpr ha
  have hpb := (h.lt_size_iff hrb).mpr hb
  obtain ⟨epa, hepa⟩ := exists_entry hpa
  obtain ⟨epb, hepb⟩ := exists_entry hpb
  have hfits : ∀ r < u.size, r % 2 ^ parentBits = r := fun r hr =>
    Nat.mod_eq_of_lt (Nat.lt_of_lt_of_le hr h.small)
  have hsame : ∀ {r s : Nat} {e : Entry V}, u.d[r]? = some e →
      rankOf { u with d := u.d.set r (e.setParent s) } = u.rankOf := by
    intro r s e he
    rw [rankOf_set (lt_size he)]
    change update u.rankOf r e.rank = u.rankOf
    rw [← rankOf_eq he, update_eq_self]
  rw [link]
  by_cases heq : pa = pb
  · subst heq
    rw [if_pos rfl]
    exact ⟨u, rfl, h.sameRoot hra hrb, rfl⟩
  rw [if_neg heq, hepa, hepb]
  dsimp only
  by_cases hlt : epa.rank < epb.rank
  · have hparent : parentOf { u with d := u.d.set pa (epa.setParent pb) } =
        update u.parentOf pa pb := by
      rw [parentOf_set hpa]
      exact congrArg _ (hfits pb hpb)
    rw [if_pos hlt]
    refine ⟨_, rfl, ?_, size_set u pa _⟩
    apply h.join hra hrb heq (.inl ⟨rfl, rfl⟩) hpb (size_set u pa _) hparent
    · rw [hparent, hsame hepa]
      apply h.ranked.link
      rw [rankOf_eq hepa, rankOf_eq hepb]
      exact hlt
    · rw [hparent, hsame hepa]
      exact h.weighted.link hra.isRoot hrb.isRoot heq
  rw [if_neg hlt]
  by_cases hgt : epa.rank > epb.rank
  · have hparent : parentOf { u with d := u.d.set pb (epb.setParent pa) } =
        update u.parentOf pb pa := by
      rw [parentOf_set hpb]
      exact congrArg _ (hfits pa hpa)
    rw [if_pos hgt]
    refine ⟨_, rfl, ?_, size_set u pb _⟩
    apply h.join hra hrb (Ne.symm heq) (.inr ⟨rfl, rfl⟩) hpa (size_set u pb _) hparent
    · rw [hparent, hsame hepb]
      apply h.ranked.link
      rw [rankOf_eq hepa, rankOf_eq hepb]
      exact hgt
    · rw [hparent, hsame hepb]
      exact h.weighted.link hrb.isRoot hra.isRoot (Ne.symm heq)
  rw [if_neg hgt]
  have hrank : u.rankOf pa = u.rankOf pb := by
    rw [rankOf_eq hepa, rankOf_eq hepb]
    omega
  -- 28 bits suffice: a rank is at most the logarithm of the number of handles
  have hinc : epb.incRank.rank = u.rankOf pb + 1 := by
    have hle := h.rank_le hpb hrb.isRoot
    have hlog : Nat.log 2 u.size ≤ parentBits := by
      have hmono := Nat.log_mono_right (b := 2) h.small
      rwa [Nat.log_pow (by decide)] at hmono
    have hbits : parentBits + 1 < 2 ^ rankBits := by decide
    rw [Entry.incRank, ← rankOf_eq hepb]
    exact Nat.mod_eq_of_lt (by omega)
  have hfirst : pb < size { u with d := u.d.set pa (epa.setParent pb) } := by
    rwa [size_set]
  have hparent : parentOf { u with d := (u.d.set pa (epa.setParent pb)).set pb epb.incRank } =
      update u.parentOf pa pb := by
    rw [parentOf_set hfirst, parentOf_set hpa]
    have hself : epb.incRank.parent = update u.parentOf pa pb pb := by
      rw [update_of_ne (Ne.symm heq)]
      exact (parentOf_eq hepb).symm
    rw [hself]
    have hset : (epa.setParent pb).parent = pb := hfits pb hpb
    rw [hset, update_eq_self]
  have hranks : rankOf { u with d := (u.d.set pa (epa.setParent pb)).set pb epb.incRank } =
      update u.rankOf pb (u.rankOf pb + 1) := by
    rw [rankOf_set hfirst, hsame hepa, hinc]
  have hsize : size { u with d := (u.d.set pa (epa.setParent pb)).set pb epb.incRank } = u.size := by
    rw [size_set, size_set]
  rw [if_neg (by omega)]
  refine ⟨_, rfl, ?_, hsize⟩
  apply h.join hra hrb heq (.inl ⟨rfl, rfl⟩) hpb hsize hparent
  · rw [hparent, hranks]
    apply (h.ranked.raise hrb.isRoot).link
    rw [update_of_ne heq, update_self]
    omega
  · rw [hparent, hranks]
    exact h.weighted.link_raise hra.isRoot hrb.isRoot heq hrank

theorem unite_returns {fuel a b : Nat} (h : Inv u united) (ha : a < u.size) (hb : b < u.size)
    (hfuel : u.size ≤ fuel) : ∃ u', u.unite fuel a b = some (.ok (), u') := by
  obtain ⟨pa, u₁, hfirst⟩ := find_returns h ha hfuel
  obtain ⟨-, hra, hkept₁⟩ := find_spec h hfirst
  rw [← hkept₁.size] at hb hfuel
  obtain ⟨pb, u₂, hsecond⟩ := find_returns hkept₁.inv hb hfuel
  obtain ⟨-, hrb, hkept₂⟩ := find_spec hkept₁.inv hsecond
  rw [← hkept₂.size] at hb
  rw [← hkept₁.size, ← hkept₂.size] at ha
  rw [← hkept₁.roots, ← hkept₂.roots] at hra
  rw [← hkept₂.roots] at hrb
  obtain ⟨u₃, hlink, -, -⟩ := link_spec hkept₂.inv ha hb hra hrb
  refine ⟨u₃, ?_⟩
  rw [unite, hfirst]
  dsimp only
  rw [hsecond]
  dsimp only
  rw [hlink]

theorem unite_spec {fuel a b : Nat} {r : Except Fault Unit} (h : Inv u united)
    (hunite : u.unite fuel a b = some (r, u')) :
    (r = .ok () ∧ Inv u' (united ++ [(a, b)])) ∨ ∃ e, r = .error e ∧ Inv u' united := by
  rw [unite] at hunite
  split at hunite
  · cases hunite
  · next e u₁ hfirst =>
    obtain ⟨rfl, rfl⟩ := Prod.mk.inj (Option.some.inj hunite)
    exact .inr ⟨e, rfl, (find_kept h hfirst).inv⟩
  · next pa u₁ hfirst =>
    obtain ⟨ha, hra, hkept₁⟩ := find_spec h hfirst
    split at hunite
    · cases hunite
    · next e u₂ hsecond =>
      obtain ⟨rfl, rfl⟩ := Prod.mk.inj (Option.some.inj hunite)
      exact .inr ⟨e, rfl, (find_kept hkept₁.inv hsecond).inv⟩
    · next pb u₂ hsecond =>
      obtain ⟨hb, hrb, hkept₂⟩ := find_spec hkept₁.inv hsecond
      rw [← hkept₂.size] at hb
      rw [← hkept₁.size, ← hkept₂.size] at ha
      rw [← hkept₁.roots, ← hkept₂.roots] at hra
      rw [← hkept₂.roots] at hrb
      obtain ⟨u₃, hlink, hinv, -⟩ := link_spec hkept₂.inv ha hb hra hrb
      rw [hlink] at hunite
      obtain ⟨rfl, rfl⟩ := Prod.mk.inj (Option.some.inj hunite)
      exact .inl ⟨rfl, hinv⟩

/-! ## Runs -/

theorem inv_new : Inv (new : UnionFind V) [] where
  small := Nat.zero_le _
  parent_lt := by
    intro a ha
    cases ha
  ranked := ⟨fun _ hne => absurd rfl hne, 0, fun _ => Nat.le_refl 0⟩
  weighted := by
    intro r hr
    change ((2 ^ 0 : ℕ) : ℕ∞) ≤ _
    rw [Nat.pow_zero, Nat.cast_one, Set.one_le_encard_iff_nonempty]
    exact ⟨r, rootOf_self hr⟩
  same := by
    intro a b
    have hroot : ∀ c : Nat, RootOf (new : UnionFind V).parentOf c c := fun c => rootOf_self rfl
    rw [same_iff (hroot a) (hroot b)]
    constructor
    · rintro rfl
      exact .refl a
    · intro hab
      induction hab with
      | rel a b hmem => cases hmem
      | refl a => rfl
      | symm a b _ ih => exact ih.symm
      | trans a b c _ _ hab hbc => exact hab.trans hbc

theorem makeSet_inv (h : Inv u united) (v : V) : Inv (u.makeSet v).2 united := by
  rw [makeSet]
  by_cases hfits : u.size % 2 ^ parentBits = u.size
  · have hnew : Entry.new u.size v = .ok { value := v, parent := u.size, rank := 0 } := by
      rw [Entry.new]
      simp only [hfits, ne_eq, not_true_eq_false, if_false]
    rw [hnew]
    dsimp only
    have hparent : parentOf { u with d := u.d ++ [{ value := v, parent := u.size, rank := 0 }] } =
        u.parentOf := by
      funext a
      rw [parentOf, parentOf, List.getElem?_append]
      split
      · rfl
      · next hge =>
        rw [List.getElem?_eq_none (Nat.le_of_not_lt hge)]
        by_cases ha : a = u.size
        · subst ha
          rw [size, Nat.sub_self]
          rfl
        · have hpos : 0 < a - u.d.length := by
            rw [size] at ha
            omega
          rw [List.getElem?_eq_none hpos]
    have hrank : rankOf { u with d := u.d ++ [{ value := v, parent := u.size, rank := 0 }] } =
        u.rankOf := by
      funext a
      rw [rankOf, rankOf, List.getElem?_append]
      split
      · rfl
      · next hge =>
        rw [List.getElem?_eq_none (Nat.le_of_not_lt hge)]
        cases a - u.d.length <;> rfl
    have hsize : size { u with d := u.d ++ [{ value := v, parent := u.size, rank := 0 }] } =
        u.size + 1 := by
      rw [size, List.length_append]
      rfl
    refine ⟨?_, ?_, ?_, ?_, ?_⟩
    · rw [hsize]
      omega
    · intro a ha
      rw [hsize] at ha ⊢
      rw [hparent]
      rcases Nat.lt_or_ge a u.size with hold | hold
      · exact (h.parent_lt a hold).trans (Nat.lt_succ_self _)
      · rwa [parentOf_of_size_le hold]
    · rw [hparent, hrank]
      exact h.ranked
    · rw [hparent, hrank]
      exact h.weighted
    · rw [hparent]
      exact h.same
  · have hthrows : Entry.new u.size v = .error .typeOverflow := by
      rw [Entry.new]
      exact if_pos (Ne.symm hfits)
    rw [hthrows]
    exact h

theorem Reaches.inv (h : Reaches u united) : Inv u united := by
  induction h with
  | new => exact inv_new
  | makeSet v _ ih => exact makeSet_inv ih v
  | find _ hfind ih => exact (find_kept ih hfind).inv
  | unite _ hunite ih =>
    rcases unite_spec ih hunite with ⟨-, hinv⟩ | ⟨e, he, -⟩
    · exact hinv
    · cases he
  | uniteThrows _ hunite ih =>
    rcases unite_spec ih hunite with ⟨he, -⟩ | ⟨e, -, hinv⟩
    · cases he
    · exact hinv

/-- The representatives tell which handles were united, `find` ends and keeps them, no handle is above
itself, and the rank of a root is between the height of its tree and the logarithm of its size. -/
structure Correct (u : UnionFind V) (united : List (Nat × Nat)) : Prop where
  findReturns : ∀ fuel a, a < u.size → u.size ≤ fuel → ∃ r u', u.find fuel a = some (.ok r, u')
  uniteReturns : ∀ fuel a b, a < u.size → b < u.size → u.size ≤ fuel →
    ∃ u', u.unite fuel a b = some (.ok (), u')
  connected : ∀ a b r s, u.Finds a r → u.Finds b s → (r = s ↔ Connected united a b)
  findKeeps : ∀ fuel a r u', u.find fuel a = some (r, u') → ∀ b s, u'.Finds b s ↔ u.Finds b s
  acyclic : ∀ a, ¬ Relation.TransGen u.Parent a a
  height : ∀ r n a e, u.d[r]? = some e → u.Below r n a → n ≤ e.rank
  rank : ∀ r e, u.d[r]? = some e → e.parent = r → e.rank ≤ Nat.log 2 {a | u.Finds a r}.ncard

theorem Parent.parentOf_eq {a b : Nat} (h : u.Parent a b) : u.parentOf a = b := by
  rw [parentOf, h.1]
  rfl

theorem Below.leads {r n a : Nat} (h : u.Below r n a) : Leads u.parentOf a n r := by
  induction h with
  | root h =>
    apply Leads.root
    rw [parentOf, h]
    rfl
  | @parent a b n h _ ih =>
    have hparent := h.parentOf_eq
    refine .step ?_ ?_
    · rw [hparent]
      exact h.2.symm
    · rw [hparent]
      exact ih

theorem unionFind_correct (h : Reaches u united) : Correct u united := by
  have hinv := h.inv
  refine ⟨?_, ?_, ?_, ?_, ?_, ?_, ?_⟩
  · intro fuel a ha hfuel
    exact find_returns hinv ha hfuel
  · intro fuel a b ha hb hfuel
    exact unite_returns hinv ha hb hfuel
  · intro a b r s hr hs
    rw [finds_iff hinv] at hr hs
    rw [← hinv.same, same_iff hr.2 hs.2]
  · intro fuel a r u' hfind b s
    have hkept := find_kept hinv hfind
    rw [finds_iff hinv, finds_iff hkept.inv, hkept.size, hkept.roots]
  · intro a ha
    apply hinv.ranked.acyclic a
    exact Relation.TransGen.mono (fun b c hbc => ⟨hbc.parentOf_eq, hbc.2⟩) a a ha
  · intro r n a e he hbelow
    have hle := hbelow.leads.add_rank_le hinv.ranked
    rw [rankOf_eq he] at hle
    omega
  · intro r e he hroot
    have hr := lt_size he
    have htree : {a | u.Finds a r} = tree u.parentOf r := by
      ext a
      change u.Finds a r ↔ RootOf u.parentOf a r
      rw [finds_iff hinv]
      constructor
      · exact fun ha => ha.2
      · exact fun ha => ⟨(hinv.lt_size_iff ha).mp hr, ha⟩
    rw [htree, ← rankOf_eq he]
    exact hinv.weighted.rank_le_log ((parentOf_eq he).trans hroot) (hinv.finite_tree hr)

/-- Three handles, two of them united. -/
theorem unionFind_correct_three :
    Correct ⟨[⟨'a', 2, 0⟩, ⟨'b', 1, 0⟩, ⟨'c', 2, 1⟩]⟩ [(0, 2)] := by
  have hsets : Reaches ((((new : UnionFind Char).makeSet 'a').2.makeSet 'b').2.makeSet 'c').2 [] :=
    .makeSet _ (.makeSet _ (.makeSet _ .new))
  have hunite : ((((new : UnionFind Char).makeSet 'a').2.makeSet 'b').2.makeSet 'c').2.unite 3 0 2 =
      some (.ok (), ⟨[⟨'a', 2, 0⟩, ⟨'b', 1, 0⟩, ⟨'c', 2, 1⟩]⟩) := by
    rfl
  exact unionFind_correct (hsets.unite hunite)

end Sserialize.UnionFind
