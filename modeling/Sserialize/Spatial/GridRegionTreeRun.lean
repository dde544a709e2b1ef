import Sserialize.Spatial.GridRegionTreeFind

namespace Sserialize.GridRegionTree

open Interleaving

/-- The condition on an action in the state before it: the counters and bit fields are large enough,
and the buffer of `m_nodePtr` is still the one whose address was read. -/
def Fine (b : Builder) : Action → Prop
  | .fetchTile => b.ti + 1 < 2 ^ 32
  | .pushNode => b.nodes.length < NullNodePtr
  | .setInternal _ enclosed newGrid =>
    b.leafInfo.length < 2 ^ 30 ∧ enclosed.length < 2 ^ 24 ∧ b.nodeGrids.length < 2 ^ 30 ∧
      b.nodePtr.length + newGrid.tileCount < 2 ^ 32
  | .setLeaf _ enclosed sortedRegions =>
    b.leafInfo.length < 2 ^ 30 ∧ enclosed.length < 2 ^ 24 ∧ sortedRegions.length < 2 ^ 24
  | .storeChild buffer _ _ => buffer = b.buffer
  | _ => True

structure Owners (ι : Type*) where
  node : Nat → Option ι
  slot : Nat → Option ι

variable {ι : Type*} (initial : GeoGrid)

structure Inv (t : Builder × Owners ι) : Prop where
  node_lt : ∀ n i, t.2.node n = some i → n < t.1.nodes.length
  slot_lt : ∀ j i, t.2.slot j = some i → j < t.1.nodePtr.length
  root : t.1.nodes[0]? = some (.internal 0 0 0 0)
  root_free : t.2.node 0 = none
  grid : t.1.nodeGrids[0]? = some initial
  size : initial.tileCount ≤ t.1.nodePtr.length
  taken : ∀ tile < initial.tileCount, tile < t.1.ti → ∃ i, t.2.slot tile = some i
  untaken : ∀ tile < initial.tileCount, t.1.ti ≤ tile →
    t.2.slot tile = none ∧ t.1.nodePtr[tile]? = some NullNodePtr

/-- The nodes with `N` and the child pointers with `S` stay as they are, and the arrays grow. -/
structure Keeps (N S : Nat → Prop) (t t' : Builder × Owners ι) : Prop where
  inv : Inv initial t → Inv initial t'
  node : ∀ n, N n → t'.2.node n = t.2.node n ∧ t'.1.nodes[n]? = t.1.nodes[n]?
  slot : ∀ j, S j → t'.2.slot j = t.2.slot j ∧ t'.1.nodePtr[j]? = t.1.nodePtr[j]?
  nodeGrids : t.1.nodeGrids <+: t'.1.nodeGrids
  leafInfo : t.1.leafInfo <+: t'.1.leafInfo
  nodePtr : t.1.nodePtr.length ≤ t'.1.nodePtr.length
  ti : t.1.ti ≤ t'.1.ti

/-- What a thread relies on: what belongs to it stays as it is, and no tile of the root grid is
given to it. -/
structure Rely (i : ι) (t t' : Builder × Owners ι) : Prop extends
    Keeps initial (fun n => t.2.node n = some i) (fun j => t.2.slot j = some i) t t' where
  rootOwner : Inv initial t → ∀ tile < initial.tileCount, t'.2.slot tile = some i →
    t.2.slot tile = some i

variable {initial} {N N' S S' : Nat → Prop} {t t' t'' : Builder × Owners ι} {i j : ι}

theorem Keeps.refl : Keeps initial N S t t :=
  ⟨id, fun _ _ => ⟨rfl, rfl⟩, fun _ _ => ⟨rfl, rfl⟩, List.prefix_rfl, List.prefix_rfl, le_rfl,
    le_rfl⟩

theorem Keeps.trans (h : Keeps initial N S t t') (h' : Keeps initial N' S' t' t'')
    (hN : ∀ n, N n → N' n) (hS : ∀ j, S j → S' j) : Keeps initial N S t t'' where
  inv hinv := h'.inv (h.inv hinv)
  node n hn := ⟨(h'.node n (hN n hn)).1.trans (h.node n hn).1,
    (h'.node n (hN n hn)).2.trans (h.node n hn).2⟩
  slot j hj := ⟨(h'.slot j (hS j hj)).1.trans (h.slot j hj).1,
    (h'.slot j (hS j hj)).2.trans (h.slot j hj).2⟩
  nodeGrids := h.nodeGrids.trans h'.nodeGrids
  leafInfo := h.leafInfo.trans h'.leafInfo
  nodePtr := h.nodePtr.trans h'.nodePtr
  ti := h.ti.trans h'.ti

theorem Keeps.rely (h : Keeps initial N S t t') (hN : ∀ n, t.2.node n = some i → N n)
    (hS : ∀ j, t.2.slot j = some i → S j)
    (hroot : Inv initial t → ∀ tile < initial.tileCount, t'.2.slot tile = some i →
      t.2.slot tile = some i) : Rely initial i t t' :=
  ⟨(Keeps.refl (t := t)).trans h hN hS, hroot⟩

theorem Rely.refl (i : ι) (t : Builder × Owners ι) : Rely initial i t t :=
  ⟨Keeps.refl, fun _ _ _ h => h⟩

theorem Rely.trans_keeps (h : Rely initial i t t') (h' : Keeps initial N S t' t'')
    (hN : ∀ n, t.2.node n = some i → N n) (hS : ∀ j, t.2.slot j = some i → S j)
    (hroot : Inv initial t' → ∀ tile < initial.tileCount, t''.2.slot tile = some i →
      t'.2.slot tile = some i) : Rely initial i t t'' :=
  ⟨h.toKeeps.trans h' hN hS, fun hinv tile htile howner =>
    h.rootOwner hinv tile htile (hroot (h.inv hinv) tile htile howner)⟩

theorem Rely.trans (h : Rely initial i t t') (h' : Rely initial i t' t'') :
    Rely initial i t t'' :=
  h.trans_keeps h'.toKeeps (fun n hn => (h.node n hn).1.trans hn)
    (fun j hj => (h.slot j hj).1.trans hj) h'.rootOwner

section

variable (initial) (b : Builder) (g : Owners ι) (i)

variable (grow : Nat → Nat → Nat)

variable {i} in
theorem setSlot_keeps {pos : Nat} (val : Nat) (hpos : g.slot pos = some i) :
    Keeps initial (fun _ => True) (fun j => j ≠ pos) (b, g)
      ({ b with nodePtr := b.nodePtr.set pos val }, g) where
  inv hinv :=
    { node_lt := hinv.node_lt
      slot_lt := fun k j hk => by
        change k < (b.nodePtr.set pos val).length
        rw [List.length_set]
        exact hinv.slot_lt k j hk
      root := hinv.root
      root_free := hinv.root_free
      grid := hinv.grid
      size := by
        change _ ≤ (b.nodePtr.set pos val).length
        rw [List.length_set]
        exact hinv.size
      taken := hinv.taken
      untaken := fun tile htile hle => by
        obtain ⟨hnone, hnull⟩ := hinv.untaken tile htile hle
        have hne : pos ≠ tile := by
          rintro rfl
          exact nomatch hpos.symm.trans hnone
        refine ⟨hnone, ?_⟩
        change (b.nodePtr.set pos val)[tile]? = _
        rw [List.getElem?_set_ne hne]
        exact hnull }
  node _ _ := ⟨rfl, rfl⟩
  slot k hk := ⟨rfl, List.getElem?_set_ne (Ne.symm hk)⟩
  nodeGrids := List.prefix_rfl
  leafInfo := List.prefix_rfl
  nodePtr := by
    change _ ≤ (b.nodePtr.set pos val).length
    rw [List.length_set]
  ti := le_rfl

def fetchOwners : Owners ι :=
  ⟨g.node, fun j => if j = b.ti ∧ j < initial.tileCount then some i else g.slot j⟩

theorem fetchTile_keeps : Keeps initial (fun _ => True)
    (fun j => ¬ (j = b.ti ∧ j < initial.tileCount)) (b, g)
    ({ b with ti := b.ti + 1 }, fetchOwners initial i b g) where
  inv hinv :=
    { node_lt := hinv.node_lt
      slot_lt := fun k j hk => by
        by_cases hnew : k = b.ti ∧ k < initial.tileCount
        · exact Nat.lt_of_lt_of_le hnew.2 hinv.size
        · exact hinv.slot_lt k j ((if_neg hnew).symm.trans hk)
      root := hinv.root
      root_free := hinv.root_free
      grid := hinv.grid
      size := hinv.size
      taken := fun tile htile hlt => by
        change tile < b.ti + 1 at hlt
        by_cases heq : tile = b.ti
        · exact ⟨i, if_pos ⟨heq, htile⟩⟩
        · have hlt' : tile < b.ti := by omega
          obtain ⟨j, hj⟩ := hinv.taken tile htile hlt'
          exact ⟨j, (if_neg fun h => heq h.1).trans hj⟩
      untaken := fun tile htile hle => by
        change b.ti + 1 ≤ tile at hle
        have hne : ¬ (tile = b.ti ∧ tile < initial.tileCount) := fun h => by omega
        have hle' : b.ti ≤ tile := by omega
        obtain ⟨hnone, hnull⟩ := hinv.untaken tile htile hle'
        exact ⟨(if_neg hne).trans hnone, hnull⟩ }
  node _ _ := ⟨rfl, rfl⟩
  slot k hk := ⟨if_neg hk, rfl⟩
  nodeGrids := List.prefix_rfl
  leafInfo := List.prefix_rfl
  nodePtr := le_rfl
  ti := Nat.le_succ _

end

section

variable [Rounding] {regions : List GeoRegion} {refiner : GridRefiner} {low low' n pos : Nat} {ids : List Nat}
  {bounds : GeoRect}

/-- A node that belongs to a thread represents a tile; its child pointers are from `low` on. -/
def Built (regions : List GeoRegion) (refiner : GridRefiner) (t : Builder × Owners ι) (i : ι)
    (low n : Nat) (ids : List Nat) (bounds : GeoRect) : Prop :=
  Represents regions refiner t.1 (fun n => t.2.node n = some i)
    (fun j => t.2.slot j = some i ∧ low ≤ j) n ids bounds

theorem Built.keeps (h : Built regions refiner t i low n ids bounds) (hk : Keeps initial N S t t')
    (hN : ∀ n, t.2.node n = some i → N n) (hS : ∀ j, t.2.slot j = some i → low ≤ j → S j) :
    Built regions refiner t' i low n ids bounds :=
  Represents.keeps h
    (fun n hn => ⟨(hk.node n (hN n hn)).1.trans hn, (hk.node n (hN n hn)).2⟩)
    (fun j hj => ⟨⟨(hk.slot j (hS j hj.1 hj.2)).1.trans hj.1, hj.2⟩,
      (hk.slot j (hS j hj.1 hj.2)).2⟩) hk.nodeGrids hk.leafInfo

theorem Built.lower (h : Built regions refiner t i low n ids bounds) (hle : low' ≤ low) :
    Built regions refiner t i low' n ids bounds :=
  Represents.keeps h (fun _ hn => ⟨hn, rfl⟩) (fun _ hj => ⟨⟨hj.1, hle.trans hj.2⟩, rfl⟩)
    List.prefix_rfl List.prefix_rfl

def SlotDone (regions : List GeoRegion) (refiner : GridRefiner) (t : Builder × Owners ι) (i : ι)
    (low pos : Nat) (ids : List Nat) (bounds : GeoRect) : Prop :=
  (ids = [] → t.1.nodePtr[pos]? = some NullNodePtr) ∧
    (ids ≠ [] → ∃ n, t.1.nodePtr[pos]? = some n ∧ n ≠ NullNodePtr ∧
      Built regions refiner t i low n ids bounds)

theorem SlotDone.keeps (h : SlotDone regions refiner t i low pos ids bounds)
    (hk : Keeps initial N S t t') (hN : ∀ n, t.2.node n = some i → N n)
    (hS : ∀ j, t.2.slot j = some i → low ≤ j → S j) (hpos : S pos) :
    SlotDone regions refiner t' i low pos ids bounds := by
  obtain ⟨hnil, hne⟩ := h
  have hsame := (hk.slot pos hpos).2
  refine ⟨fun h => hsame.trans (hnil h), fun h => ?_⟩
  obtain ⟨n, hn, hnull, hbuilt⟩ := hne h
  exact ⟨n, hsame.trans hn, hnull, hbuilt.keeps hk hN hS⟩

theorem SlotDone.rely (h : SlotDone regions refiner t i low pos ids bounds)
    (hr : Rely initial i t t') (hpos : t.2.slot pos = some i) :
    SlotDone regions refiner t' i low pos ids bounds :=
  h.keeps hr.toKeeps (fun _ hn => hn) (fun _ hj _ => hj) hpos

/-- The node of a tile whose new grid has `childPtr`; the child pointers before `k` are done. -/
structure Tiles (regions : List GeoRegion) (refiner : GridRefiner) (i : ι) (n : Nat)
    (ids : List Nat) (bounds : GeoRect) (grid : GeoGrid) (childPtr k : Nat)
    (t : Builder × Owners ι) : Prop where
  node : t.2.node n = some i
  content : ∃ gridPtr valueBegin, t.1.nodes[n]? = some (.internal gridPtr valueBegin
      (getEnclosing regions bounds ids).length childPtr) ∧
    HasIds t.1.leafInfo valueBegin (getEnclosing regions bounds ids) ∧
    t.1.nodeGrids[gridPtr]? = some grid
  slot : ∀ tile < grid.tileCount, t.2.slot (childPtr + tile) = some i
  done : ∀ tile < grid.tileCount, tile < k →
    SlotDone regions refiner t i (childPtr + grid.tileCount) (childPtr + tile)
      (intersecting regions (grid.cellBoundary (grid.selectTile tile))
        (remaining regions bounds ids))
      (grid.cellBoundary (grid.selectTile tile))
  todo : ∀ tile < grid.tileCount, k ≤ tile → t.1.nodePtr[childPtr + tile]? = some NullNodePtr

variable {grid : GeoGrid} {childPtr k : Nat}

theorem Tiles.rely (h : Tiles regions refiner i n ids bounds grid childPtr k t)
    (hr : Rely initial i t t') : Tiles regions refiner i n ids bounds grid childPtr k t' where
  node := (hr.node n h.node).1.trans h.node
  content := by
    obtain ⟨gridPtr, valueBegin, hnode, hids, hgrid⟩ := h.content
    exact ⟨gridPtr, valueBegin, (hr.node n h.node).2.trans hnode, hids.mono hr.leafInfo,
      getElem?_of_extends hr.nodeGrids hgrid⟩
  slot tile htile := (hr.slot _ (h.slot tile htile)).1.trans (h.slot tile htile)
  done tile htile hlt := (h.done tile htile hlt).rely hr (h.slot tile htile)
  todo tile htile hle := (hr.slot _ (h.slot tile htile)).2.trans (h.todo tile htile hle)

theorem Tiles.skip (h : Tiles regions refiner i n ids bounds grid childPtr k t)
    (hnil : intersecting regions (grid.cellBoundary (grid.selectTile k))
      (remaining regions bounds ids) = []) :
    Tiles regions refiner i n ids bounds grid childPtr (k + 1) t where
  node := h.node
  content := h.content
  slot := h.slot
  done tile htile hlt := by
    by_cases heq : tile = k
    · subst heq
      exact ⟨fun _ => h.todo tile htile le_rfl, fun hne => absurd hnil hne⟩
    · exact h.done tile htile (by omega)
  todo tile htile hle := h.todo tile htile (by omega)

theorem Tiles.store {b : Builder} {g : Owners ι} {m : Nat}
    (h : Tiles regions refiner i n ids bounds grid childPtr k (b, g)) (hk : k < grid.tileCount)
    (hinv : Inv initial (b, g)) (hnull : m ≠ NullNodePtr)
    (hne : intersecting regions (grid.cellBoundary (grid.selectTile k))
      (remaining regions bounds ids) ≠ [])
    (hbuilt : Built regions refiner (b, g) i (childPtr + grid.tileCount) m
      (intersecting regions (grid.cellBoundary (grid.selectTile k)) (remaining regions bounds ids))
      (grid.cellBoundary (grid.selectTile k))) :
    Tiles regions refiner i n ids bounds grid childPtr (k + 1)
      ({ b with nodePtr := b.nodePtr.set (childPtr + k) m }, g) := by
  have hkeeps := setSlot_keeps initial b g m (h.slot k hk)
  have hbehind : ∀ j, g.slot j = some i → childPtr + grid.tileCount ≤ j → j ≠ childPtr + k := by
    intro j _ hle
    omega
  refine ⟨h.node, h.content, h.slot, fun tile htile hlt => ?_, fun tile htile hle => ?_⟩
  · by_cases heq : tile = k
    · subst heq
      refine ⟨fun hnil => absurd hnil hne, fun _ => ⟨m, ?_, hnull, ?_⟩⟩
      · exact List.getElem?_set_self (hinv.slot_lt _ _ (h.slot tile htile))
      · exact hbuilt.keeps hkeeps (fun _ _ => trivial) hbehind
    · exact (h.done tile htile (by omega)).keeps hkeeps (fun _ _ => trivial) hbehind (by omega)
  · exact (hkeeps.slot (childPtr + tile) (by omega)).2.trans (h.todo tile htile (by omega))

theorem Tiles.built (h : Tiles regions refiner i n ids bounds grid childPtr grid.tileCount t)
    (hrefiner : refiner bounds (remaining regions bounds ids) = some grid)
    (hlow : low ≤ childPtr) : Built regions refiner t i low n ids bounds := by
  obtain ⟨gridPtr, valueBegin, hnode, hids, hgrid⟩ := h.content
  refine .internal (fun tile => (t.1.nodePtr[childPtr + tile]?).getD 0) h.node hnode hids hrefiner
    hgrid (fun tile htile => ⟨h.slot tile htile, by omega⟩)
    (fun tile htile hnil => (h.done tile htile htile).1 hnil) (fun tile htile hne => ?_)
    (fun tile htile hne => ?_)
  · obtain ⟨m, hm, hnull, -⟩ := (h.done tile htile htile).2 hne
    rw [hm]
    exact ⟨rfl, hnull⟩
  · obtain ⟨m, hm, -, hbuilt⟩ := (h.done tile htile htile).2 hne
    rw [hm]
    exact hbuilt.lower (by omega)

end

theorem inv_start : Inv initial (start initial, (⟨fun _ => none, fun _ => none⟩ : Owners ι)) where
  node_lt _ _ h := nomatch h
  slot_lt _ _ h := nomatch h
  root := rfl
  root_free := rfl
  grid := rfl
  size := List.length_replicate.ge
  taken _ _ h := absurd h (Nat.not_lt_zero _)
  untaken tile htile _ := by
    refine ⟨rfl, ?_⟩
    change (List.replicate initial.tileCount NullNodePtr)[tile]? = _
    rw [List.getElem?_replicate, if_pos htile]

section Rounded

variable [Rounding]

def Post (regions : List GeoRegion) (refiner : GridRefiner) (initial : GeoGrid) (i : ι)
    (t : Builder × Owners ι) : Prop :=
  Inv initial t ∧ initial.tileCount ≤ t.1.ti ∧ ∀ tile < initial.tileCount,
    t.2.slot tile = some i → SlotDone regions refiner t i initial.tileCount tile
      (rootRegions regions initial tile) (rootBounds initial tile)

section

variable (regions : List GeoRegion) (refiner : GridRefiner) (initial : GeoGrid)
  (grow : Nat → Nat → Nat)

end

section

variable {regions : List GeoRegion} {refiner : GridRefiner} {grow : Nat → Nat → Nat}

/-- The tiles of the root grid that belong to a thread are done, but for those with `P`. -/
def TilesDone (regions : List GeoRegion) (refiner : GridRefiner) (initial : GeoGrid) (i : ι)
    (P : Nat → Prop) (t : Builder × Owners ι) : Prop :=
  ∀ tile < initial.tileCount, ¬ P tile → t.2.slot tile = some i →
    SlotDone regions refiner t i initial.tileCount tile (rootRegions regions initial tile)
      (rootBounds initial tile)

theorem TilesDone.rely {P : Nat → Prop} (h : TilesDone regions refiner initial i P t)
    (hinv : Inv initial t) (hr : Rely initial i t t') :
    TilesDone regions refiner initial i P t' := by
  intro tile htile hP hslot
  have hslot' := hr.rootOwner hinv tile htile hslot
  exact (h tile htile hP hslot').rely hr hslot'

theorem TilesDone.fetch {b : Builder} {g : Owners ι}
    (h : TilesDone regions refiner initial i (fun _ => False) (b, g)) :
    TilesDone regions refiner initial i (fun tile => tile = b.ti)
      ({ b with ti := b.ti + 1 }, fetchOwners initial i b g) := by
  intro tile htile hne hslot
  have hold : ¬ (tile = b.ti ∧ tile < initial.tileCount) := fun h => hne h.1
  have hslot' : g.slot tile = some i := (if_neg hold).symm.trans hslot
  refine (h tile htile id hslot').keeps (fetchTile_keeps initial i b g) (fun _ _ => trivial)
    (fun j _ hle hj => ?_) hold
  omega

theorem TilesDone.store {b : Builder} {g : Owners ι} {tile n : Nat}
    (h : TilesDone regions refiner initial i (fun k => k = tile) (b, g)) (hinv : Inv initial (b, g))
    (htile : tile < initial.tileCount) (hslot : g.slot tile = some i) (hnull : n ≠ NullNodePtr)
    (hne : rootRegions regions initial tile ≠ [])
    (hbuilt : Built regions refiner (b, g) i initial.tileCount n (rootRegions regions initial tile)
      (rootBounds initial tile)) :
    TilesDone regions refiner initial i (fun _ => False)
      ({ b with nodePtr := b.nodePtr.set tile n }, g) := by
  intro tile' htile' _ hslot'
  have hkeeps := setSlot_keeps initial b g n hslot
  by_cases heq : tile' = tile
  · subst heq
    refine ⟨fun hnil => absurd hnil hne, fun _ => ⟨n, ?_, hnull, ?_⟩⟩
    · exact List.getElem?_set_self (hinv.slot_lt _ _ hslot)
    · exact hbuilt.keeps hkeeps (fun _ _ => trivial) fun j _ hle => by omega
  · exact (h tile' htile' heq hslot').keeps hkeeps (fun _ _ => trivial)
      (fun j _ hle => by omega) heq

end

/-- `find` outputs the regions that contain a point, once each. -/
def Finds (regions : List GeoRegion) (b : Builder) (p : GeoPoint) : Prop :=
  ∃ visits, ∀ fuel ≥ visits, ∃ out, find regions b p fuel = .ok out ∧ out.Nodup ∧
    ∀ id, id ∈ out ↔ regionContains regions p id = true

end Rounded

/-- The coordinates below are integers that no operation rounds. -/
instance exact : Rounding := ⟨id⟩

end Sserialize.GridRegionTree
