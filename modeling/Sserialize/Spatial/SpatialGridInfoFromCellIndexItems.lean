import Sserialize.ItemIndex.ItemIndexFactoryNames
import Sserialize.Spatial.SpatialGeoHierarchyCompactify
import Sserialize.Spatial.SpatialGridInfoFromCellIndex

namespace Sserialize

namespace SpatialGridInfoFromCellIndex

variable {sg : SpatialGrid} {Pixel : Nat → Prop} {ci : CellInfo} {t : Tree}

/-- The pixels from a pixel down to another one, without the first. -/
inductive Path (sg : SpatialGrid) : Nat → List Nat → Nat → Prop where
  | nil {p : Nat} : Path sg p [] p
  | cons {p c q : Nat} {path : List Nat} (hlevel : 0 < sg.level c) (hparent : sg.parent c = .ok p)
      (h : Path sg c path q) : Path sg p (c :: path) q

theorem Path.covers {p q : Nat} {path : List Nat} (h : Path sg p path q) : sg.Covers p q := by
  induction h with
  | nil => exact .refl
  | cons hlevel hparent _ ih => exact (SpatialGrid.Covers.child .refl hlevel hparent).trans ih

theorem Path.eq_nil (hlawful : sg.Lawful Pixel) {p q : Nat} {path : List Nat}
    (h : Path sg p path q) (hpq : p = q) (hq : Pixel q) : path = [] := by
  subst hpq
  cases h with
  | nil => rfl
  | cons hlevel hparent h =>
    have hle := h.covers.level_le hlawful hq
    have hlevel' := (hlawful.level_parent (h.covers.pixel hlawful hq) hlevel hparent).2
    omega

theorem ancestorsLoop_spec (hlawful : sg.Lawful Pixel) {rounds pid q : Nat} {known : List Nat}
    (hpid : Pixel pid) (hlevel : sg.level pid ≤ rounds) (hpath : Path sg pid known q) :
    ∃ path, ancestorsLoop sg rounds pid known = .ok (sg.rootPixelId :: path) ∧
      Path sg sg.rootPixelId path q := by
  induction rounds generalizing pid known with
  | zero =>
    obtain rfl := hlawful.eq_root pid hpid (Nat.le_zero.mp hlevel)
    exact ⟨known, if_pos rfl, hpath⟩
  | succ rounds ih =>
    rw [ancestorsLoop]
    by_cases hroot : pid = sg.rootPixelId
    · subst hroot
      exact ⟨known, if_pos rfl, hpath⟩
    · have hpos : 0 < sg.level pid :=
        Nat.pos_of_ne_zero fun hzero => hroot (hlawful.eq_root pid hpid hzero)
      obtain ⟨ppid, hparent, hppid, hlevel'⟩ := hlawful.parent_ok pid hpid hpos
      rw [if_neg hroot, hparent, ok_bind]
      exact ih hppid (by omega) (.cons hpos hparent hpath)

theorem nodeAt_of_getElem? {i : Nat} {n : Node} (h : t[i]? = some n) : nodeAt t i = .ok n := by
  rw [nodeAt, h]

variable {pid : Nat}

theorem exists_node_of_pids {i : Nat} (h : (t.map Node.pid)[i]? = some pid) :
    ∃ n, t[i]? = some n ∧ n.pid = pid := by
  rw [List.getElem?_map] at h
  exact Option.map_eq_some_iff.mp h

theorem findChild_spec (pid : Nat) {cs : List Nat} {i : Nat}
    (hcs : cs <+: (t.map Node.pid).drop i) :
    ∃ r, findChild t pid cs.length i = .ok r ∧ (pid ∈ cs → r ≠ none) ∧
      ∀ j, r = some j → i ≤ j ∧ j < i + cs.length ∧ ∃ n, t[j]? = some n ∧ n.pid = pid := by
  induction cs generalizing i with
  | nil => exact ⟨none, rfl, fun h => absurd h List.not_mem_nil, fun j hj => by cases hj⟩
  | cons c cs ih =>
    obtain ⟨rest, hrest⟩ := hcs
    have hfirst : (t.map Node.pid)[i]? = some c := by
      rw [← Nat.add_zero i, ← List.getElem?_drop, ← hrest]
      rfl
    obtain ⟨n, hn, rfl⟩ := exists_node_of_pids hfirst
    have hnext : cs <+: (t.map Node.pid).drop (i + 1) := by
      refine ⟨rest, ?_⟩
      rw [← List.tail_drop, ← hrest]
      rfl
    rw [List.length_cons, findChild, nodeAt_of_getElem? hn, ok_bind]
    by_cases hpid : n.pid = pid
    · rw [if_pos hpid]
      refine ⟨some i, rfl, fun _ => Option.some_ne_none i, fun j hj => ?_⟩
      obtain rfl := Option.some.inj hj
      exact ⟨Nat.le_refl _, by omega, n, hn, hpid⟩
    · rw [if_neg hpid]
      obtain ⟨r, hr, hfound, hsome⟩ := ih hnext
      refine ⟨r, hr, fun hmem => hfound ((List.mem_cons.mp hmem).resolve_left (Ne.symm hpid)),
        fun j hj => ?_⟩
      obtain ⟨hlow, hhigh, hnode⟩ := hsome j hj
      exact ⟨by omega, by omega, hnode⟩

/-- A position that is reached from another one through the children. -/
inductive Below (t : Tree) (pos : Nat) : Nat → Prop where
  | refl : Below t pos pos
  | child {q j : Nat} {n : Node} (h : Below t pos q) (hn : t[q]? = some n) (hlow : n.begin ≤ j)
      (hhigh : j < n.end) : Below t pos j

theorem Below.trans {a b c : Nat} (hab : Below t a b) (hbc : Below t b c) : Below t a c := by
  induction hbc with
  | refl => exact hab
  | child _ hn hlow hhigh ih => exact ih.child hn hlow hhigh

theorem Below.cases_child {pos q : Nat} {n : Node} (hn : t[pos]? = some n) (h : Below t pos q) :
    q = pos ∨ ∃ j, n.begin ≤ j ∧ j < n.end ∧ Below t j q := by
  induction h with
  | refl => exact .inl rfl
  | @child q j m _ hm hlow hhigh ih =>
    right
    obtain rfl | ⟨i, hi, hi', hbelow⟩ := ih
    · obtain rfl := Option.some.inj (hn.symm.trans hm)
      exact ⟨j, hlow, hhigh, .refl⟩
    · exact ⟨i, hi, hi', hbelow.child hm hlow hhigh⟩

namespace Built

variable {linked : ParentToChildren}

theorem mem_children (h : Built sg Pixel ci linked t) (hlawful : sg.Lawful Pixel) {p c : Nat} :
    c ∈ linked p ↔ Above sg Pixel ci c ∧ sg.parent c = .ok p := h.linking.mem_iff hlawful

theorem descend_spec (h : Built sg Pixel ci linked t) (hlawful : sg.Lawful Pixel) {pos q : Nat}
    {n : Node} {path : List Nat} (hn : t[pos]? = some n) (hpath : Path sg n.pid path q) :
    ∃ pos' n', descend t pos path = .ok pos' ∧ t[pos']? = some n' ∧ Below t pos pos' ∧
      (Above sg Pixel ci q → n'.pid = q) := by
  induction path generalizing pos n with
  | nil =>
    cases hpath
    exact ⟨pos, n, rfl, hn, .refl, fun _ => rfl⟩
  | cons c path ih =>
    cases hpath with
    | cons hlevel hparent hpath =>
      have hok := h.nodes pos n hn
      have hcount : n.end - n.begin = (linked n.pid).length := by
        rw [hok.end_eq]
        omega
      obtain ⟨r, hr, hfound, hsome⟩ := findChild_spec c hok.children
      rw [descend, nodeAt_of_getElem? hn, ok_bind, hcount, hr, ok_bind]
      cases r with
      | none =>
        refine ⟨pos, n, rfl, hn, .refl, fun habove => ?_⟩
        obtain ⟨x, hx, hcov⟩ := habove.cell
        have hc : Above sg Pixel ci c :=
          ⟨hpath.covers.pixel hlawful habove.pixel, hlevel, x, hx, hpath.covers.trans hcov⟩
        exact absurd rfl (hfound ((h.mem_children hlawful).mpr ⟨hc, hparent⟩))
      | some j =>
        obtain ⟨hlow, hhigh, m, hm, rfl⟩ := hsome j rfl
        obtain ⟨pos', n', hdescend, hn', hbelow, hq⟩ := ih hm hpath
        have hchild : Below t pos j := Below.refl.child hn hlow (by rw [hok.end_eq]; exact hhigh)
        exact ⟨pos', n', hdescend, hn', hchild.trans hbelow, hq⟩

theorem node_spec (h : Built sg Pixel ci linked t) (hlawful : sg.Lawful Pixel) {pid : Nat}
    (hpid : Pixel pid) :
    (HasNode sg Pixel ci pid → ∃ pos n, node sg t pid = .ok (some pos) ∧ t[pos]? = some n ∧
      n.pid = pid ∧ Below t 0 pos) ∧
    (¬ HasNode sg Pixel ci pid → node sg t pid = .ok none) := by
  obtain ⟨path, hancestors, hpath⟩ :
      ∃ path, ancestorsLoop sg (sg.level pid) pid [] = .ok (sg.rootPixelId :: path) ∧
        Path sg sg.rootPixelId path pid :=
    ancestorsLoop_spec hlawful hpid (Nat.le_refl _) .nil
  obtain ⟨root, hroot, hrootpid⟩ := Option.map_eq_some_iff.mp h.root
  rw [← hrootpid] at hpath
  obtain ⟨pos, n, hdescend, hn, hbelow, hfound⟩ := h.descend_spec hlawful hroot hpath
  have hnode : node sg t pid = .ok (if n.pid = pid then some pos else none) := by
    rw [node, hancestors, ok_bind, List.tail_cons, hdescend, ok_bind, nodeAt_of_getElem? hn, ok_bind]
    rfl
  rw [hnode]
  constructor
  · rintro (hroot' | habove)
    · have heq : root.pid = pid := hrootpid.trans hroot'.symm
      obtain rfl := hpath.eq_nil hlawful heq hpid
      obtain rfl := Except.ok.inj hdescend
      obtain rfl := Option.some.inj (hroot.symm.trans hn)
      rw [if_pos heq]
      exact ⟨0, root, rfl, hroot, heq, .refl⟩
    · rw [if_pos (hfound habove)]
      exact ⟨pos, n, rfl, hn, hfound habove, hbelow⟩
  · intro hno
    rw [if_neg]
    rintro rfl
    exact hno (h.pids n (List.mem_of_getElem? hn))

end Built

def LeafCell (sg : SpatialGrid) (ci : CellInfo) (q : Nat) : Prop :=
  q ∈ pixels ci ∧ ∀ q' ∈ pixels ci, sg.Covers q q' → q' = q

def IsUnion (sg : SpatialGrid) (ci : CellInfo) (pid : Nat) (idx : ItemIndex) : Prop :=
  ∀ id, id ∈ idx.ids ↔ ∃ q, LeafCell sg ci q ∧ sg.Covers pid q ∧
    ∃ cellItems, ci.items q = .ok cellItems ∧ id ∈ cellItems.ids

theorem HasNode.cell (hlawful : sg.Lawful Pixel) (hcells : Indexed sg Pixel ci) {p : Nat}
    (h : HasNode sg Pixel ci p) : ∃ q ∈ pixels ci, sg.Covers p q := by
  obtain rfl | h := h
  · obtain ⟨c, hc⟩ := List.exists_mem_of_ne_nil _ hcells.nonempty
    have hq : ci.pixelId c ∈ pixels ci := List.mem_map_of_mem hc
    exact ⟨_, hq, hlawful.covers_root (hcells.pixel _ hq)⟩
  · exact h.cell

namespace Built

variable {linked : ParentToChildren}

theorem exists_child (h : Built sg Pixel ci linked t) (hlawful : sg.Lawful Pixel)
    (hcells : Indexed sg Pixel ci) {p q : Nat} (hq : q ∈ pixels ci) (hcov : sg.Covers p q)
    (hne : p ≠ q) : ∃ c ∈ linked p, sg.Covers c q := by
  obtain ⟨c, hlevel, hparent, hcov'⟩ := hcov.exists_child hne
  have habove : Above sg Pixel ci c :=
    ⟨hcov'.pixel hlawful (hcells.pixel q hq), hlevel, q, hq, hcov'⟩
  exact ⟨c, (h.mem_children hlawful).mpr ⟨habove, hparent⟩, hcov'⟩

theorem leafCell_of_nil (h : Built sg Pixel ci linked t) (hlawful : sg.Lawful Pixel)
    (hcells : Indexed sg Pixel ci) {p : Nat} (hp : HasNode sg Pixel ci p) (hnil : linked p = []) :
    LeafCell sg ci p := by
  have hbelow : ∀ q ∈ pixels ci, sg.Covers p q → q = p := by
    intro q hq hcov
    by_contra hne
    obtain ⟨c, hc, -⟩ := h.exists_child hlawful hcells hq hcov (Ne.symm hne)
    rw [hnil] at hc
    exact List.not_mem_nil hc
  obtain ⟨q, hq, hcov⟩ := hp.cell hlawful hcells
  exact ⟨hbelow q hq hcov ▸ hq, hbelow⟩

theorem leafCell_iff_child (h : Built sg Pixel ci linked t) (hlawful : sg.Lawful Pixel)
    (hcells : Indexed sg Pixel ci) {p q : Nat} (hinner : linked p ≠ []) :
    LeafCell sg ci q ∧ sg.Covers p q ↔ ∃ c ∈ linked p, LeafCell sg ci q ∧ sg.Covers c q := by
  constructor
  · rintro ⟨hleaf, hcov⟩
    have hne : p ≠ q := by
      rintro rfl
      obtain ⟨c, hc⟩ := List.exists_mem_of_ne_nil _ hinner
      obtain ⟨habove, hparent⟩ := (h.mem_children hlawful).mp hc
      obtain ⟨q', hq', hcov'⟩ := habove.cell
      have hpc : sg.Covers p c := .child .refl habove.level hparent
      rw [hleaf.2 q' hq' (hpc.trans hcov')] at hcov'
      have hle := hcov'.level_le hlawful (hcells.pixel p hleaf.1)
      have hlevel := (hlawful.level_parent habove.pixel habove.level hparent).2
      omega
    obtain ⟨c, hc, hcov'⟩ := h.exists_child hlawful hcells hleaf.1 hcov hne
    exact ⟨c, hc, hleaf, hcov'⟩
  · rintro ⟨c, hc, hleaf, hcov⟩
    obtain ⟨habove, hparent⟩ := (h.mem_children hlawful).mp hc
    exact ⟨hleaf, (SpatialGrid.Covers.child .refl habove.level hparent).trans hcov⟩

variable {n : Node} {pos : Nat}

theorem size_ne_zero_iff (h : Built sg Pixel ci linked t) (hn : t[pos]? = some n) :
    n.size ≠ 0 ↔ linked n.pid ≠ [] := by
  have hok := h.nodes pos n hn
  have hsize : n.size = (linked n.pid).length := by
    rw [Node.size, sub32_of_le (by rw [hok.end_eq]; omega) hok.end_lt, hok.end_eq]
    omega
  rw [hsize, ne_eq, List.length_eq_zero_iff]

theorem mem_linked_iff (h : Built sg Pixel ci linked t) (hn : t[pos]? = some n) {c : Nat} :
    c ∈ linked n.pid ↔ ∃ i ∈ List.range' n.begin (n.end - n.begin), ∃ m, t[i]? = some m ∧
      m.pid = c := by
  have hok := h.nodes pos n hn
  obtain ⟨rest, hrest⟩ := hok.children
  have hget : ∀ k, k < (linked n.pid).length →
      (t.map Node.pid)[n.begin + k]? = (linked n.pid)[k]? := by
    intro k hk
    rw [← List.getElem?_drop, ← hrest, List.getElem?_append_left hk]
  have hcount : n.end - n.begin = (linked n.pid).length := by
    rw [hok.end_eq]
    omega
  rw [hcount]
  constructor
  · intro hc
    obtain ⟨k, hk, rfl⟩ := List.mem_iff_getElem.mp hc
    obtain ⟨m, hm, hpid⟩ := exists_node_of_pids ((hget k hk).trans (List.getElem?_eq_getElem hk))
    exact ⟨n.begin + k, List.mem_range'_1.mpr ⟨by omega, by omega⟩, m, hm, hpid⟩
  · rintro ⟨i, hi, m, hm, rfl⟩
    obtain ⟨hlow, hhigh⟩ := List.mem_range'_1.mp hi
    obtain ⟨k, rfl⟩ : ∃ k, i = n.begin + k := ⟨i - n.begin, by omega⟩
    refine List.mem_of_getElem? (i := k) ?_
    rw [← hget k (by omega), List.getElem?_map, hm]
    rfl

theorem exists_nodeAt (h : Built sg Pixel ci linked t) (hn : t[pos]? = some n) {i : Nat}
    (hi : i ∈ List.range' n.begin (n.end - n.begin)) : ∃ m, t[i]? = some m ∧ pos < i := by
  have hok := h.nodes pos n hn
  obtain ⟨hlow, hhigh⟩ := List.mem_range'_1.mp hi
  have hend := hok.end_eq
  have hinner : linked n.pid ≠ [] := by
    intro hnil
    rw [hnil, List.length_nil] at hend
    omega
  have hbehind := hok.behind hinner
  obtain ⟨rest, hrest⟩ := hok.children
  have hlength := congrArg List.length hrest
  rw [List.length_append, List.length_drop, List.length_map] at hlength
  have hlt : i < t.length := by omega
  exact ⟨t[i], List.getElem?_eq_getElem hlt, by omega⟩

theorem isUnion_leaf (h : Built sg Pixel ci linked t) (hlawful : sg.Lawful Pixel)
    (hcells : Indexed sg Pixel ci) (hn : n ∈ t) (hnil : linked n.pid = []) :
    ∃ idx, ci.items n.pid = .ok idx ∧ IsUnion sg ci n.pid idx := by
  have hleaf := h.leafCell_of_nil hlawful hcells (h.pids n hn) hnil
  obtain ⟨idx, hidx⟩ := hcells.items n.pid hleaf.1
  refine ⟨idx, hidx, fun id => ?_⟩
  constructor
  · exact fun hid => ⟨n.pid, hleaf, .refl, idx, hidx, hid⟩
  · rintro ⟨q, hq, hcov, idx', hidx', hid⟩
    rw [hleaf.2 q hq.1 hcov, hidx] at hidx'
    exact (Except.ok.inj hidx').symm ▸ hid

theorem isUnion_uniteAll (h : Built sg Pixel ci linked t) (hlawful : sg.Lawful Pixel)
    (hcells : Indexed sg Pixel ci) (hn : t[pos]? = some n) (hinner : linked n.pid ≠ [])
    {tmp : List ItemIndex}
    (htmp : List.Forall₂ (fun i idx => ∃ m, t[i]? = some m ∧ IsUnion sg ci m.pid idx)
      (List.range' n.begin (n.end - n.begin)) tmp) :
    IsUnion sg ci n.pid (HCQRSpatialGrid.uniteAll tmp) := by
  intro id
  rw [HCQRSpatialGrid.mem_uniteAll]
  constructor
  · rintro ⟨idx, hidx, hid⟩
    obtain ⟨k, hk, rfl⟩ := List.mem_iff_getElem.mp hidx
    have hk' : k < (List.range' n.begin (n.end - n.begin)).length := htmp.length_eq ▸ hk
    obtain ⟨m, hm, hunion⟩ := List.forall₂_iff_get.mp htmp |>.2 k hk' hk
    obtain ⟨q, hleaf, hcov, hitems⟩ := (hunion id).mp hid
    have hmem := (h.mem_linked_iff hn).mpr ⟨_, List.getElem_mem hk', m, hm, rfl⟩
    obtain ⟨hleaf', hcov'⟩ :=
      (h.leafCell_iff_child hlawful hcells hinner).mpr ⟨_, hmem, hleaf, hcov⟩
    exact ⟨q, hleaf', hcov', hitems⟩
  · rintro ⟨q, hleaf, hcov, hitems⟩
    obtain ⟨c, hc, hleaf', hcov'⟩ :=
      (h.leafCell_iff_child hlawful hcells hinner).mp ⟨hleaf, hcov⟩
    obtain ⟨i, hi, m, hm, rfl⟩ := (h.mem_linked_iff hn).mp hc
    obtain ⟨k, hk, rfl⟩ := List.mem_iff_getElem.mp hi
    have hk' : k < tmp.length := htmp.length_eq ▸ hk
    obtain ⟨m', hm', hunion⟩ := List.forall₂_iff_get.mp htmp |>.2 k hk hk'
    obtain rfl := Option.some.inj (hm.symm.trans hm')
    exact ⟨tmp[k], List.getElem_mem hk', (hunion id).mpr ⟨q, hleaf', hcov', hitems⟩⟩

theorem itemsOfNode_spec (h : Built sg Pixel ci linked t) (hlawful : sg.Lawful Pixel)
    (hcells : Indexed sg Pixel ci) {rounds pos : Nat} (hn : t[pos]? = some n)
    (hrounds : t.length ≤ pos + rounds) :
    ∃ idx, itemsOfNode ci t rounds n = .ok idx ∧ IsUnion sg ci n.pid idx := by
  induction rounds generalizing pos n with
  | zero =>
    have hlt : pos < t.length := (List.getElem?_eq_some_iff.mp hn).choose
    omega
  | succ rounds ih =>
    rw [itemsOfNode]
    by_cases hsize : n.size ≠ 0
    · have hinner := (h.size_ne_zero_iff hn).mp hsize
      obtain ⟨tmp, htmp, hall⟩ : ∃ tmp, (List.range' n.begin (n.end - n.begin)).mapM (fun i =>
          nodeAt t i >>= fun child => itemsOfNode ci t rounds child) = .ok tmp ∧
            List.Forall₂ (fun i idx => ∃ m, t[i]? = some m ∧ IsUnion sg ci m.pid idx)
              (List.range' n.begin (n.end - n.begin)) tmp := by
        refine mapM_spec fun i hi => ?_
        obtain ⟨m, hm, hlt⟩ := h.exists_nodeAt hn hi
        obtain ⟨idx, hidx, hunion⟩ := ih hm (by omega)
        exact ⟨idx, by rw [nodeAt_of_getElem? hm, ok_bind, hidx], m, hm, hunion⟩
      rw [if_pos hsize, htmp, ok_bind]
      exact ⟨_, rfl, h.isUnion_uniteAll hlawful hcells hn hinner hall⟩
    · have hnil : linked n.pid = [] := by
        by_contra hinner
        exact hsize ((h.size_ne_zero_iff hn).mpr hinner)
      rw [if_neg hsize]
      exact h.isUnion_leaf hlawful hcells (List.mem_of_getElem? hn) hnil

theorem itemsUncached_spec (h : Built sg Pixel ci linked t) (hlawful : sg.Lawful Pixel)
    (hcells : Indexed sg Pixel ci) {pid : Nat} (hpid : Pixel pid) :
    ∃ idx, itemsUncached sg ci t pid = .ok idx ∧ IsUnion sg ci pid idx := by
  rw [itemsUncached]
  by_cases hnode : HasNode sg Pixel ci pid
  · obtain ⟨pos, n, hfound, hn, rfl, -⟩ := (h.node_spec hlawful hpid).1 hnode
    rw [hfound, ok_bind]
    dsimp only
    rw [nodeAt_of_getElem? hn, ok_bind]
    exact h.itemsOfNode_spec hlawful hcells hn (Nat.le_add_left _ _)
  · rw [(h.node_spec hlawful hpid).2 hnode, ok_bind]
    refine ⟨_, rfl, fun id => iff_of_false List.not_mem_nil ?_⟩
    rintro ⟨q, ⟨hq, -⟩, hcov, -⟩
    apply hnode
    by_cases hroot : pid = sg.rootPixelId
    · exact .inl hroot
    · have hpos : 0 < sg.level pid :=
        Nat.pos_of_ne_zero fun hzero => hroot (hlawful.eq_root pid hpid hzero)
      exact .inr ⟨hpid, hpos, q, hq, hcov⟩

end Built

/-- The caches that calls lead to from the one of the constructor. -/
inductive CacheReaches (sg : SpatialGrid) (ci : CellInfo) (t : Tree) : RandomCache ItemIndex → Prop
  | start (a b x : Nat) : CacheReaches sg ci t ⟨2 ^ 16, [], [], a, b, x⟩
  | items {cache cache' : RandomCache ItemIndex} {pid : Nat} {result : ItemIndex}
      (h : CacheReaches sg ci t cache) (hcall : items sg ci t cache pid = .ok (result, cache')) :
      CacheReaches sg ci t cache'
  | itemCount {cache cache' : RandomCache ItemIndex} {pid count : Nat}
      (h : CacheReaches sg ci t cache) (hcall : itemCount sg ci t cache pid = .ok (count, cache')) :
      CacheReaches sg ci t cache'

structure CacheOk (sg : SpatialGrid) (ci : CellInfo) (t : Tree) (cache : RandomCache ItemIndex) :
    Prop where
  wellFormed : cache.WellFormed
  right : ∀ e ∈ cache.m_kv, itemsUncached sg ci t e.1 = .ok e.2

variable {cache : RandomCache ItemIndex}

theorem CacheOk.items_eq (h : CacheOk sg ci t cache) {result : ItemIndex}
    (hresult : itemsUncached sg ci t pid = .ok result) :
    ∃ cache', items sg ci t cache pid = .ok (result, cache') ∧ CacheOk sg ci t cache' := by
  rw [items]
  cases hfind : cache.find pid with
  | some known =>
    have hknown := h.right _ (RandomCache.mem_of_find hfind)
    obtain rfl := Except.ok.inj (hresult.symm.trans hknown)
    exact ⟨cache, rfl, h⟩
  | none =>
    obtain ⟨cache', hinsert, hwell, hmem⟩ := h.wellFormed.insert_spec pid result
    dsimp only
    rw [hresult, ok_bind, hinsert, ok_bind]
    refine ⟨cache', rfl, hwell, fun e he => ?_⟩
    obtain rfl | he := hmem e he
    · exact hresult
    · exact h.right e he

theorem CacheOk.of_items {cache cache' : RandomCache ItemIndex} (h : CacheOk sg ci t cache)
    {result : ItemIndex} (hcall : items sg ci t cache pid = .ok (result, cache')) :
    CacheOk sg ci t cache' := by
  cases hresult : itemsUncached sg ci t pid with
  | ok computed =>
    obtain ⟨cache'', hcall', hok⟩ := h.items_eq hresult
    obtain ⟨-, rfl⟩ := Prod.mk.inj (Except.ok.inj (hcall.symm.trans hcall'))
    exact hok
  | error fault =>
    rw [items] at hcall
    cases hfind : cache.find pid with
    | some known =>
      rw [h.right _ (RandomCache.mem_of_find hfind)] at hresult
      cases hresult
    | none =>
      rw [hfind, hresult] at hcall
      cases hcall

theorem CacheReaches.ok (h : CacheReaches sg ci t cache) : CacheOk sg ci t cache := by
  induction h with
  | start a b x =>
    have hmax : 1 < 2 ^ 16 := by decide
    exact ⟨⟨hmax, List.nodup_nil, List.nil_subset _⟩, fun e he => absurd he List.not_mem_nil⟩
  | items _ hcall ih => exact ih.of_items hcall
  | itemCount _ hcall ih =>
    obtain ⟨⟨result, cache'⟩, hitems, hcall⟩ := bind_eq_ok hcall
    obtain ⟨-, rfl⟩ := Prod.mk.inj (Except.ok.inj hcall)
    exact ih.of_items hitems

theorem items_of_cacheReaches (h : CacheReaches sg ci t cache) {idx : ItemIndex}
    (hidx : itemsUncached sg ci t pid = .ok idx) :
    (∃ cache', items sg ci t cache pid = .ok (idx, cache')) ∧
      ∃ cache', itemCount sg ci t cache pid = .ok (idx.size, cache') := by
  obtain ⟨cache', hitems, -⟩ := h.ok.items_eq hidx
  refine ⟨⟨cache', hitems⟩, cache', ?_⟩
  rw [itemCount, hitems]
  rfl

end SpatialGridInfoFromCellIndex

namespace SpatialGridInfoFromCellIndex

open ItemIndexFactory

section

variable {DataHashKey : Type} [DecidableEq DataHashKey] (codec : ItemIndexCodec)
  (hashFunc : Bytes → DataHashKey) (sg : SpatialGrid) (ci : CellInfo) (t : Tree)

abbrev IndexState (DataHashKey : Type) := List Nat × ItemIndexFactory DataHashKey

def recordChild
    (recurser : Nat → IndexState DataHashKey → Except Fault (ItemIndex × IndexState DataHashKey))
    (acc : List ItemIndex × IndexState DataHashKey) (i : Nat) :
    Except Fault (List ItemIndex × IndexState DataHashKey) := do
  let (result, s) ← recurser i acc.2
  return (acc.1 ++ [result], s)

/-- `Recurser`. The rounds bound the depth of the recursion. -/
def record : Nat → Nat → IndexState DataHashKey →
    Except Fault (ItemIndex × IndexState DataHashKey)
  | 0, _, _ => .error .undefinedBehaviour
  | rounds + 1, nodePos, s => do
    let node ← nodeAt t nodePos
    let r ← (if node.size ≠ 0 then do
        let tmp ← (List.range' node.begin (node.end - node.begin)).foldlM
          (recordChild (record rounds)) ([], s)
        return (HCQRSpatialGrid.uniteAll tmp.1, tmp.2)
      else do
        let result ← ci.items node.pid
        return (result, s) : Except Fault (ItemIndex × IndexState DataHashKey))
    let (id, idxF) ← r.2.2.addIndex codec hashFunc r.1.ids
    let m_ti ← MMVector.assign r.2.1 nodePos id
    return (r.1, m_ti, idxF)

/-- The constructor. The factory encodes its first index as `T_RLE_DE` in an index file of this size
at this offset. -/
def createIndex (indexStore : Bytes) (offSet growSize : Nat) :
    Except Fault (IndexState DataHashKey) := do
  let (_, idxFactory) ← (ItemIndexFactory.new indexStore offSet 0x10 growSize true true).addIndex
    codec hashFunc []
  let type ← ci.type (ci.pixelId 0)
  let (_, s) ← record codec hashFunc ci t t.length 0 (List.replicate t.length 0,
    { idxFactory with type := type, useDeduplication := true, checkIndex := false })
  return s

def itemsWithIndex (s : IndexState DataHashKey) (pid : Nat) :
    Except Fault (List Nat) := do
  let pos ← node sg t pid
  match pos with
  | some pos => do
    let id ← MMVector.at s.1 pos
    s.2.storeAt codec id
  | none => return []

end

variable {sg : SpatialGrid} {Pixel : Nat → Prop} {ci : CellInfo} {t : Tree}
  {DataHashKey : Type} [DecidableEq DataHashKey] {codec : ItemIndexCodec}
  {hashFunc : Bytes → DataHashKey} {linked : ParentToChildren}

structure Recorded (codec : ItemIndexCodec) (hashFunc : Bytes → DataHashKey) (sg : SpatialGrid)
    (ci : CellInfo) (t : Tree) (type : Nat) (s : IndexState DataHashKey)
    (entries : List Entry) (positions : Nat → Prop) : Prop where
  keeps : Keeps codec hashFunc s.2 entries
  type : s.2.type = type
  length : s.1.length = t.length
  names : ∀ p, positions p → ∃ n id idx, t[p]? = some n ∧ s.1[p]? = some id ∧
    id < entries.length ∧ s.2.storeAt codec id = .ok idx.ids ∧ IsUnion sg ci n.pid idx

structure ReadsBack (codec : ItemIndexCodec) (type : Nat) : Prop where
  single : isMultiple type = false
  reads : ∀ a s ta, codec.create a type = .ok (s, ta) → codec.read s type = .ok a

variable {f : ItemIndexFactory DataHashKey}

omit [DecidableEq DataHashKey] in
theorem keptType_of_single (h : isMultiple f.type = false) (type : Nat) :
    f.keptType type = f.type := by
  rw [keptType, if_neg (by rw [h]; exact Bool.false_ne_true)]

omit [DecidableEq DataHashKey] in
theorem ReadsBack.recovers (h : ReadsBack codec f.type) :
    Recovers codec f where
  reads a s ta ha := by
    rw [keptType_of_single h.single]
    exact h.reads a s ta ha
  type_eq a b s ta tb _ _ := by
    rw [keptType_of_single h.single, keptType_of_single h.single]

variable {entries : List Entry} {s : IndexState DataHashKey}

theorem Recorded.add {type pos : Nat} {positions : Nat → Prop} {n : Node} {idx : ItemIndex}
    (h : Recorded codec hashFunc sg ci t type s entries positions)
    (hhash : Function.Injective hashFunc) (hcodec : ReadsBack codec type) (hn : t[pos]? = some n)
    (hunion : IsUnion sg ci n.pid idx) {id : Nat}
    (hadd : s.2.addIndex codec hashFunc idx.ids = .ok (id, f)) {m_ti : List Nat}
    (hassign : MMVector.assign s.1 pos id = .ok m_ti) :
    ∃ entries', entries <+: entries' ∧
      Recorded codec hashFunc sg ci t type (m_ti, f) entries' fun p => positions p ∨ p = pos := by
  have hcodec' : ReadsBack codec s.2.type := h.type ▸ hcodec
  obtain ⟨entries', hkeeps, hprefix, htype, hid, hread⟩ :=
    h.keeps.addIndex hhash hcodec'.recovers hadd
  have hpos : pos < s.1.length := h.length ▸ (List.getElem?_eq_some_iff.mp hn).choose
  rw [MMVector.assign, if_pos hpos] at hassign
  obtain rfl := Except.ok.inj hassign
  refine ⟨entries', hprefix, hkeeps, htype.trans h.type, ?_, fun p hp => ?_⟩
  · rw [List.length_set]
    exact h.length
  · by_cases heq : pos = p
    · subst heq
      exact ⟨n, id, idx, hn, by rw [List.getElem?_set_self hpos], hid, hread, hunion⟩
    · have hold : positions p := hp.resolve_right (Ne.symm heq)
      obtain ⟨n', id', idx', hn', hid', hlt, hread', hunion'⟩ := h.names p hold
      refine ⟨n', id', idx', hn', ?_, hlt.trans_le hprefix.length_le, ?_, hunion'⟩
      · rw [List.getElem?_set_ne heq]
        exact hid'
      · have hsame : f.storeAt codec id' = s.2.storeAt codec id' :=
          h.keeps.stores.storeAt_extend hkeeps.stores htype hprefix hlt
        exact hsame.trans hread'

variable {type : Nat}

omit [DecidableEq DataHashKey] in
theorem Recorded.mono {positions positions' : Nat → Prop}
    (h : Recorded codec hashFunc sg ci t type s entries positions)
    (hsub : ∀ p, positions' p → positions p) :
    Recorded codec hashFunc sg ci t type s entries positions' :=
  ⟨h.keeps, h.type, h.length, fun p hp => h.names p (hsub p hp)⟩

omit [DecidableEq DataHashKey] in
/-- The loop over the children of a node, for a recursion that records the positions at and below
them. -/
theorem foldlM_recordChild_spec
    {recurser : Nat → IndexState DataHashKey → Except Fault (ItemIndex × IndexState DataHashKey)}
    (hrecurser : ∀ {pos : Nat} {n : Node} {s s' : IndexState DataHashKey} {entries : List Entry}
      {positions : Nat → Prop} {result : ItemIndex}, t[pos]? = some n →
      Recorded codec hashFunc sg ci t type s entries positions →
      recurser pos s = .ok (result, s') → IsUnion sg ci n.pid result ∧
        ∃ entries', Recorded codec hashFunc sg ci t type s' entries'
          fun p => positions p ∨ Below t pos p)
    {xs : List Nat} (hxs : ∀ i ∈ xs, ∃ m, t[i]? = some m)
    {acc acc' : List ItemIndex × IndexState DataHashKey} {entries : List Entry}
    {positions : Nat → Prop} (hs : Recorded codec hashFunc sg ci t type acc.2 entries positions)
    (hfold : xs.foldlM (recordChild recurser) acc = .ok acc') :
    (∃ rs, acc'.1 = acc.1 ++ rs ∧
      List.Forall₂ (fun i idx => ∃ m, t[i]? = some m ∧ IsUnion sg ci m.pid idx) xs rs) ∧
    ∃ entries', Recorded codec hashFunc sg ci t type acc'.2 entries'
      fun p => positions p ∨ ∃ i ∈ xs, Below t i p := by
  induction xs generalizing acc entries positions with
  | nil =>
    cases hfold
    refine ⟨⟨[], (List.append_nil _).symm, .nil⟩, entries, hs.mono ?_⟩
    rintro p (hp | ⟨i, hi, -⟩)
    · exact hp
    · exact absurd hi List.not_mem_nil
  | cons x xs ih =>
    rw [List.foldlM_cons] at hfold
    obtain ⟨acc₁, hfirst, hfold⟩ := bind_eq_ok hfold
    obtain ⟨⟨r, s₁⟩, hrec, hfirst⟩ := bind_eq_ok hfirst
    obtain rfl := Except.ok.inj hfirst
    obtain ⟨m, hm⟩ := hxs x List.mem_cons_self
    obtain ⟨hr, entries₁, hs₁⟩ := hrecurser hm hs hrec
    obtain ⟨⟨rs, hrs, hall⟩, entries₂, hs₂⟩ :=
      ih (fun i hi => hxs i (List.mem_cons_of_mem _ hi)) hs₁ hfold
    refine ⟨⟨r :: rs, ?_, .cons ⟨m, hm, hr⟩ hall⟩, entries₂, hs₂.mono ?_⟩
    · rw [hrs]
      exact List.append_assoc _ _ _
    · rintro p (hp | ⟨i, hi, hbelow⟩)
      · exact .inl (.inl hp)
      · obtain rfl | hi := List.mem_cons.mp hi
        · exact .inl (.inr hbelow)
        · exact .inr ⟨i, hi, hbelow⟩

theorem Built.record_spec (h : Built sg Pixel ci linked t) (hlawful : sg.Lawful Pixel)
    (hcells : Indexed sg Pixel ci) (hhash : Function.Injective hashFunc)
    (hcodec : ReadsBack codec type) {rounds pos : Nat} {n : Node} (hn : t[pos]? = some n)
    {s s' : IndexState DataHashKey} {positions : Nat → Prop} {result : ItemIndex}
    (hs : Recorded codec hashFunc sg ci t type s entries positions)
    (hrecord : record codec hashFunc ci t rounds pos s = .ok (result, s')) :
    IsUnion sg ci n.pid result ∧ ∃ entries', Recorded codec hashFunc sg ci t type s' entries'
      fun p => positions p ∨ Below t pos p := by
  induction rounds generalizing pos n s s' entries positions result with
  | zero => cases hrecord
  | succ rounds ih =>
    rw [record, nodeAt_of_getElem? hn, ok_bind] at hrecord
    obtain ⟨⟨result', s₁⟩, hitems, hrecord⟩ := bind_eq_ok hrecord
    obtain ⟨⟨id, f⟩, hadd, hrecord⟩ := bind_eq_ok hrecord
    obtain ⟨m_ti, hassign, hrecord⟩ := bind_eq_ok hrecord
    obtain ⟨rfl, rfl⟩ := Prod.mk.inj (Except.ok.inj hrecord)
    by_cases hsize : n.size ≠ 0
    · rw [if_pos hsize] at hitems
      obtain ⟨acc', hfold, hitems⟩ := bind_eq_ok hitems
      obtain ⟨rfl, rfl⟩ := Prod.mk.inj (Except.ok.inj hitems)
      obtain ⟨⟨rs, hrs, hall⟩, entries₁, hs₁⟩ := foldlM_recordChild_spec
        (fun hm hs hrec => ih hm hs hrec) (fun i hi => by
          obtain ⟨m, hm, -⟩ := h.exists_nodeAt hn hi
          exact ⟨m, hm⟩) hs hfold
      rw [List.nil_append] at hrs
      have hunion := h.isUnion_uniteAll hlawful hcells hn ((h.size_ne_zero_iff hn).mp hsize)
        (hrs ▸ hall)
      obtain ⟨entries₂, -, hs₂⟩ := hs₁.add hhash hcodec hn hunion hadd hassign
      refine ⟨hunion, entries₂, hs₂.mono ?_⟩
      rintro p (hp | hbelow)
      · exact .inl (.inl hp)
      · obtain rfl | ⟨i, hlow, hhigh, hbelow⟩ := hbelow.cases_child hn
        · exact .inr rfl
        · exact .inl (.inr ⟨i, List.mem_range'_1.mpr ⟨hlow, by omega⟩, hbelow⟩)
    · have hnil : linked n.pid = [] := by
        by_contra hinner
        exact hsize ((h.size_ne_zero_iff hn).mpr hinner)
      obtain ⟨idx, hidx, hunion⟩ := h.isUnion_leaf hlawful hcells (List.mem_of_getElem? hn) hnil
      rw [if_neg hsize, hidx] at hitems
      obtain ⟨rfl, rfl⟩ := Prod.mk.inj (Except.ok.inj hitems)
      obtain ⟨entries₁, -, hs₁⟩ := hs.add hhash hcodec hn hunion hadd hassign
      refine ⟨hunion, entries₁, hs₁.mono ?_⟩
      rintro p (hp | hbelow)
      · exact .inl hp
      · obtain rfl | ⟨i, hlow, hhigh, -⟩ := hbelow.cases_child hn
        · exact .inr rfl
        · have hend := (h.nodes pos n hn).end_eq
          rw [hnil, List.length_nil] at hend
          omega

omit [DecidableEq DataHashKey] in
theorem keeps_setType (h : Stores f entries) (hsingle : isMultiple type = false)
    (hhash : ∀ key id, f.hash key = some id → ∃ e, entries[id]? = some e ∧ hashFunc e.data = key) :
    Keeps codec hashFunc { f with type := type, useDeduplication := true, checkIndex := false }
      entries where
  stores := ⟨h.counter, h.limit, h.dataOffset, h.store, h.room, h.offsets, h.sizes,
    fun hmultiple => absurd (hsingle.symm.trans hmultiple) Bool.false_ne_true⟩
  hash := hhash
  kept e _ a ta _ := by
    rw [keptType_of_single hsingle, keptType_of_single hsingle]

theorem exists_first_entries {indexStore : Bytes} {offSet growSize id : Nat}
    (hroom : offSet + indexStore.length < 2 ^ 64)
    (hadd : (ItemIndexFactory.new indexStore offSet 0x10 growSize true true).addIndex codec hashFunc
      [] = .ok (id, f)) :
    ∃ entries, Stores f entries ∧
      ∀ key id, f.hash key = some id → ∃ e, entries[id]? = some e ∧ hashFunc e.data = key := by
  have hnew : Stores (ItemIndexFactory.new indexStore offSet 0x10 growSize true true :
      ItemIndexFactory DataHashKey) [] := stores_new _ _ _ _ hroom
  obtain ⟨s, type, -, -, hdata⟩ := exists_of_addIndex hadd
  obtain ⟨-, ⟨hknown, -⟩ | ⟨hid, hnext, hhash⟩⟩ := addData_cases hdata
  · cases hknown
  · have hentry : Stores f [⟨[], s, type⟩] ∨ f.idCounter = 0 := by
      obtain ⟨hold, -⟩ | ⟨-, hstores⟩ := hnew.addData hdata
      · exact .inr hold
      · exact .inl hstores
    obtain hstores | hold := hentry
    swap
    · omega
    · refine ⟨_, hstores, fun key known hknown => ?_⟩
      obtain hold | ⟨rfl, hfirst⟩ := hhash key
      · rw [hknown] at hold
        cases hold
      · obtain rfl : id = known := Option.some.inj (hfirst.symm.trans hknown)
        rw [hid]
        exact ⟨_, rfl, rfl⟩

theorem Built.createIndex_spec (h : Built sg Pixel ci linked t) (hlawful : sg.Lawful Pixel)
    (hcells : Indexed sg Pixel ci) (hhash : Function.Injective hashFunc) {indexStore : Bytes}
    {offSet growSize : Nat} (hroom : offSet + indexStore.length < 2 ^ 64)
    (hcodec : ∀ type, ci.type (ci.pixelId 0) = .ok type → ReadsBack codec type)
    (hcreate : createIndex codec hashFunc ci t indexStore offSet growSize = .ok s) :
    ∃ type entries, Recorded codec hashFunc sg ci t type s entries (Below t 0) := by
  obtain ⟨⟨id, f⟩, hadd, hcreate⟩ := bind_eq_ok hcreate
  obtain ⟨type, htype, hcreate⟩ := bind_eq_ok hcreate
  obtain ⟨⟨result, s'⟩, hrecord, hcreate⟩ := bind_eq_ok hcreate
  obtain rfl := Except.ok.inj hcreate
  obtain ⟨entries, hstores, hknown⟩ := exists_first_entries hroom hadd
  obtain ⟨root, hroot, -⟩ := Option.map_eq_some_iff.mp h.root
  have hkeeps : Keeps codec hashFunc
      { f with type := type, useDeduplication := true, checkIndex := false } entries :=
    keeps_setType hstores (hcodec type htype).single hknown
  have hstart : Recorded codec hashFunc sg ci t type (List.replicate t.length 0,
      { f with type := type, useDeduplication := true, checkIndex := false }) entries
        fun _ => False := ⟨hkeeps, rfl, List.length_replicate, fun _ hp => hp.elim⟩
  obtain ⟨-, entries', hs⟩ :=
    h.record_spec hlawful hcells hhash (hcodec type htype) hroot hstart hrecord
  exact ⟨type, entries', hs.mono fun _ hp => .inr hp⟩

theorem IsUnion.eq {pid : Nat} {idx idx' : ItemIndex} (h : IsUnion sg ci pid idx)
    (h' : IsUnion sg ci pid idx') : idx = idx' :=
  ItemIndex.ext_mem fun id => (h id).trans (h' id).symm

omit [DecidableEq DataHashKey] in
theorem Built.itemsWithIndex_eq (h : Built sg Pixel ci linked t) (hlawful : sg.Lawful Pixel)
    (hs : Recorded codec hashFunc sg ci t type s entries (Below t 0)) {pid : Nat}
    (hpid : Pixel pid) {idx : ItemIndex} (hidx : itemsUncached sg ci t pid = .ok idx)
    (hunion : IsUnion sg ci pid idx) : itemsWithIndex codec sg t s pid = .ok idx.ids := by
  rw [itemsWithIndex]
  by_cases hnode : HasNode sg Pixel ci pid
  · obtain ⟨pos, n, hfound, hn, rfl, hbelow⟩ := (h.node_spec hlawful hpid).1 hnode
    obtain ⟨n', id, idx', hn', hid, -, hread, hunion'⟩ := hs.names pos hbelow
    obtain rfl := Option.some.inj (hn.symm.trans hn')
    rw [hfound, ok_bind, hunion.eq hunion']
    dsimp only
    rw [MMVector.at, hid, ok_bind, hread]
  · rw [itemsUncached, (h.node_spec hlawful hpid).2 hnode, ok_bind] at hidx
    obtain rfl := Except.ok.inj hidx
    rw [(h.node_spec hlawful hpid).2 hnode, ok_bind]
    rfl

/-- With and without an index the items of a pixel are those of the indexed cells at and below it
that have no indexed cell below them, in every run of calls. -/
theorem spatialGridInfo_right (hlawful : sg.Lawful Pixel) (hcells : Indexed sg Pixel ci) :
    (∃ enough, ∀ rounds, enough ≤ rounds → ∃ t, createTree sg ci rounds = .ok t) ∧
    ∀ rounds t, createTree sg ci rounds = .ok t → t.length < 2 ^ 32 →
      ∀ pid, Pixel pid → ∃ idx, IsUnion sg ci pid idx ∧
        (∀ cache, CacheReaches sg ci t cache →
          (∃ cache', items sg ci t cache pid = .ok (idx, cache')) ∧
            ∃ cache', itemCount sg ci t cache pid = .ok (idx.size, cache')) ∧
        ∀ (DataHashKey : Type) [DecidableEq DataHashKey] (codec : ItemIndexCodec)
          (hashFunc : Bytes → DataHashKey) (indexStore : Bytes) (offSet growSize : Nat)
          (s : IndexState DataHashKey), Function.Injective hashFunc →
            offSet + indexStore.length < 2 ^ 64 →
            (∀ type, ci.type (ci.pixelId 0) = .ok type → ReadsBack codec type) →
            createIndex codec hashFunc ci t indexStore offSet growSize = .ok s →
            itemsWithIndex codec sg t s pid = .ok idx.ids := by
  refine ⟨hcells.createTree_returns hlawful, fun rounds t hcreate hlength pid hpid => ?_⟩
  obtain ⟨linked, hbuilt⟩ := hcells.built hlawful hcreate hlength
  obtain ⟨idx, hidx, hunion⟩ := hbuilt.itemsUncached_spec hlawful hcells hpid
  refine ⟨idx, hunion, fun cache hcache => items_of_cacheReaches hcache hidx, ?_⟩
  intro DataHashKey _ codec hashFunc indexStore offSet growSize s hhash hroom hcodec hindex
  obtain ⟨type, entries, hs⟩ := hbuilt.createIndex_spec hlawful hcells hhash hroom hcodec hindex
  exact hbuilt.itemsWithIndex_eq hlawful hs hpid hidx hunion

def smallCells (cellPixels : List Nat) : CellInfo where
  hasPixel p := p ∈ cellPixels
  items p :=
    if p ∈ cellPixels then .ok ⟨[p % 100 + 5], List.pairwise_singleton _ _, by
      intro id hid
      rw [List.mem_singleton.mp hid]
      omega⟩
    else .error .outOfBounds
  type p := if p ∈ cellPixels then .ok 0x10 else .error .outOfBounds
  pixelId c := cellPixels.getD c 0
  cells := List.range cellPixels.length

theorem pixels_smallCells (cellPixels : List Nat) : pixels (smallCells cellPixels) = cellPixels := by
  change (List.range cellPixels.length).map (fun c => cellPixels.getD c 0) = cellPixels
  refine List.ext_getElem ?_ fun i hi hi' => ?_
  · rw [List.length_map, List.length_range]
  · rw [List.getElem_map, List.getElem_range, List.getD_eq_getElem _ _ hi']

/-- The encoder of `T_RLE_DE` with the check that `addIndex` can make. -/
def checkedCodec : ItemIndexCodec where
  create idx type := do
    let (s, ta) ← rleDECodec.create idx type
    let read ← rleDECodec.read s type
    if read = idx then .ok (s, ta) else .error .creation
  read := rleDECodec.read

theorem readsBack_checkedCodec : ReadsBack checkedCodec 0x10 where
  single := rfl
  reads a s ta h := by
    obtain ⟨⟨s', ta'⟩, -, h⟩ := bind_eq_ok h
    obtain ⟨read, hread, h⟩ := bind_eq_ok h
    obtain ⟨heq, h⟩ := ok_of_ite h
    obtain ⟨rfl, rfl⟩ := Prod.mk.inj (Except.ok.inj h)
    exact heq ▸ hread

theorem indexed_two : Indexed SpatialGrid.twoChildren (· ≤ 2) (smallCells [1, 2]) where
  pixel q hq := by
    rw [pixels_smallCells] at hq
    revert q
    decide
  level q hq := by
    rw [pixels_smallCells] at hq
    revert q
    decide
  items q hq := by
    rw [pixels_smallCells] at hq
    exact ⟨_, if_pos hq⟩
  nonempty := List.cons_ne_nil _ _

theorem spatialGridInfo_right_two :
    ∃ t s, createTree SpatialGrid.twoChildren (smallCells [1, 2]) 5 = .ok t ∧
      createIndex checkedCodec id (smallCells [1, 2]) t [] 9 1 = .ok s ∧
      ∃ idx, IsUnion SpatialGrid.twoChildren (smallCells [1, 2]) 0 idx ∧
        itemsWithIndex checkedCodec SpatialGrid.twoChildren t s 0 = .ok idx.ids := by
  have htree : createTree SpatialGrid.twoChildren (smallCells [1, 2]) 5 =
      .ok [⟨0, 1, 3⟩, .leaf 2, .leaf 1] := by decide +kernel
  obtain ⟨s, hs⟩ : ∃ s, createIndex checkedCodec (id : Bytes → Bytes) (smallCells [1, 2])
      [⟨0, 1, 3⟩, .leaf 2, .leaf 1] [] 9 1 = .ok s := by
    have hok : (createIndex checkedCodec (id : Bytes → Bytes) (smallCells [1, 2])
        [⟨0, 1, 3⟩, .leaf 2, .leaf 1] [] 9 1).isOk = true := by decide +kernel
    cases hcreate : createIndex checkedCodec (id : Bytes → Bytes) (smallCells [1, 2])
        [⟨0, 1, 3⟩, .leaf 2, .leaf 1] [] 9 1 with
    | ok s => exact ⟨s, rfl⟩
    | error fault =>
      rw [hcreate] at hok
      cases hok
  obtain ⟨-, hall⟩ := spatialGridInfo_right SpatialGrid.lawful_twoChildren indexed_two
  obtain ⟨idx, hunion, -, hindex⟩ := hall 5 _ htree (by decide) 0 (Nat.zero_le 2)
  refine ⟨_, s, htree, hs, idx, hunion,
    hindex Bytes checkedCodec id [] 9 1 s Function.injective_id (by decide) ?_ hs⟩
  intro type htype
  obtain rfl := Except.ok.inj htype
  exact readsBack_checkedCodec

def chain : SpatialGrid where
  rootPixelId := 0
  level p := p
  isAncestor p q := p < q
  index p i := if i = 0 then .ok (p + 1) else .error .outOfBounds
  parent c := if c = 0 then .error .outOfBounds else .ok (c - 1)
  childrenCount _ := 1

theorem parent_succ (p : Nat) : chain.parent (p + 1) = .ok p := rfl

theorem parent_chain {p c : Nat} (h : chain.parent c = .ok p) : c = p + 1 := by
  rw [chain] at h
  dsimp only at h
  split at h
  · cases h
  · obtain rfl := Except.ok.inj h
    omega

theorem covers_chain {p q : Nat} : chain.Covers p q ↔ p ≤ q := by
  constructor
  · intro h
    induction h with
    | refl => exact Nat.le_refl p
    | child _ _ hparent ih => exact ih.trans (parent_chain hparent ▸ Nat.le_succ _)
  · intro h
    induction q, h using Nat.le_induction with
    | base => exact .refl
    | succ q _ ih => exact .child ih (Nat.succ_pos q) (parent_succ q)

theorem lawful_chain : chain.Lawful fun _ => True where
  root := trivial
  level_root := rfl
  eq_root _ _ hlevel := hlevel
  parent_ok c _ hlevel :=
    ⟨c - 1, if_neg (Nat.ne_of_gt hlevel), trivial, (Nat.sub_add_cancel hlevel).symm⟩
  index_ok p _ i hi := by
    obtain rfl := Nat.lt_one_iff.mp hi
    exact ⟨p + 1, rfl, trivial, parent_succ p, rfl⟩
  child_index p c _ _ hparent := ⟨0, Nat.one_pos, congrArg Except.ok (parent_chain hparent).symm⟩
  index_inj _ _ i hi j hj _ := (Nat.lt_one_iff.mp hi).trans (Nat.lt_one_iff.mp hj).symm
  isAncestor_iff p q _ _ := by
    rw [covers_chain, ← Nat.lt_iff_le_and_ne]
    exact decide_eq_true_iff

theorem indexed_chain : Indexed chain (fun _ => True) (smallCells [1, 2]) where
  pixel _ _ := trivial
  level q hq := by
    rw [pixels_smallCells] at hq
    revert q
    decide
  items q hq := by
    rw [pixels_smallCells] at hq
    exact ⟨_, if_pos hq⟩
  nonempty := List.cons_ne_nil _ _

/-- The items of a cell above another one are lost. -/
theorem not_union_of_all_cells :
    ¬ ∀ (sg : SpatialGrid) (Pixel : Nat → Prop) (ci : CellInfo), sg.Lawful Pixel →
      Indexed sg Pixel ci → ∀ rounds t, createTree sg ci rounds = .ok t → t.length < 2 ^ 32 →
        ∀ pid, Pixel pid → ∃ idx, itemsUncached sg ci t pid = .ok idx ∧
          ∀ id, id ∈ idx.ids ↔ ∃ q ∈ pixels ci, sg.Covers pid q ∧
            ∃ cellItems, ci.items q = .ok cellItems ∧ id ∈ cellItems.ids := by
  intro h
  have htree : createTree chain (smallCells [1, 2]) 5 =
      .ok [⟨0, 1, 3⟩, ⟨1, 3, 4⟩, ⟨1, 4, 5⟩, .leaf 2, .leaf 2] := by decide +kernel
  obtain ⟨idx, hidx, hall⟩ :=
    h _ _ _ lawful_chain indexed_chain 5 _ htree (by decide) 1 trivial
  have hids : (itemsUncached chain (smallCells [1, 2])
      [⟨0, 1, 3⟩, ⟨1, 3, 4⟩, ⟨1, 4, 5⟩, .leaf 2, .leaf 2] 1).map IdList.ids = .ok [7] := by
    decide +kernel
  rw [hidx] at hids
  have hitem : 6 ∈ idx.ids := by
    refine (hall 6).mpr ⟨1, ?_, .refl, ⟨[6], _, _⟩, rfl, List.mem_singleton_self 6⟩
    rw [pixels_smallCells]
    exact List.mem_cons_self
  rw [Except.ok.inj hids] at hitem
  revert hitem
  decide

end SpatialGridInfoFromCellIndex

end Sserialize
