import Mathlib.Data.Rat.Floor
import Mathlib.Tactic.Positivity
import Sserialize.Storage.Bytes

/-!
# `GeoRect` and `GeoGrid`

A rectangle that is cut into tiles. Coordinates are the rational numbers that a `double` stands for;
the results of the operations on them are rounded.
-/

namespace Sserialize

/-- The `double` of an exact result. -/
class Rounding where
  rnd : ℚ → ℚ

open Rounding (rnd)

structure GeoPoint where
  lat : ℚ
  lon : ℚ
  deriving Repr, DecidableEq

structure GeoRect where
  minLat : ℚ
  maxLat : ℚ
  minLon : ℚ
  maxLon : ℚ
  deriving Repr, DecidableEq

namespace GeoRect

def ofBounds (latMin latMax lonMin lonMax : ℚ) : GeoRect :=
  { minLat := if latMin > latMax then latMax else latMin
    maxLat := if latMin > latMax then latMin else latMax
    minLon := if lonMin > lonMax then lonMax else lonMin
    maxLon := if lonMin > lonMax then lonMin else lonMax }

def contains (r : GeoRect) (p : GeoPoint) : Bool :=
  decide (r.minLat ≤ p.lat) && decide (p.lat ≤ r.maxLat) && decide (r.minLon ≤ p.lon) &&
    decide (p.lon ≤ r.maxLon)

theorem contains_iff {r : GeoRect} {p : GeoPoint} :
    r.contains p = true ↔
      r.minLat ≤ p.lat ∧ p.lat ≤ r.maxLat ∧ r.minLon ≤ p.lon ∧ p.lon ≤ r.maxLon := by
  simp only [contains, Bool.and_eq_true, decide_eq_true_eq, and_assoc]

end GeoRect

structure GeoGrid where
  rect : GeoRect
  latcount : Nat
  loncount : Nat
  deriving Repr, DecidableEq

structure GridBin where
  x : Nat
  y : Nat
  tile : Nat
  deriving Repr, DecidableEq

namespace GridBin

def invalid : GridBin := ⟨2 ^ 32 - 1, 2 ^ 32 - 1, 2 ^ 32 - 1⟩

end GridBin

namespace GeoGrid

def tileCount (g : GeoGrid) : Nat := u32 (g.latcount * g.loncount)

def contains (g : GeoGrid) (p : GeoPoint) : Bool := g.rect.contains p

def selectBin (g : GeoGrid) (lat lon : Nat) : Nat := u32 (lon * g.latcount + lat)

def selectTile (g : GeoGrid) (tile : Nat) : GridBin :=
  if tile < u32 (g.latcount * g.loncount) then ⟨tile % g.latcount, tile / g.latcount, tile⟩
  else .invalid

variable [Rounding] (g : GeoGrid)

def latStep : ℚ := rnd (rnd (g.rect.maxLat - g.rect.minLat) / g.latcount)

def lonStep : ℚ := rnd (rnd (g.rect.maxLon - g.rect.minLon) / g.loncount)

def cellBoundary (gridBin : GridBin) : GeoRect :=
  .ofBounds (rnd (g.rect.minLat + rnd (gridBin.x * g.latStep)))
    (rnd (g.rect.minLat + rnd ((gridBin.x + 1) * g.latStep)))
    (rnd (g.rect.minLon + rnd (gridBin.y * g.lonStep)))
    (rnd (g.rect.minLon + rnd ((gridBin.y + 1) * g.lonStep)))

def stepOf (corrected step : ℚ) (count : Nat) : Nat :=
  let x := ⌊rnd (corrected / step)⌋.toNat
  if x = count then count - 1 else x

def select (p : GeoPoint) : GridBin :=
  if g.rect.contains p then
    let x := stepOf (rnd (p.lat - g.rect.minLat)) g.latStep g.latcount
    let y := stepOf (rnd (p.lon - g.rect.minLon)) g.lonStep g.loncount
    ⟨x, y, g.selectBin x y⟩
  else .invalid

/-- The steps are not rounded to zero. -/
structure Valid (g : GeoGrid) : Prop where
  latStep : 0 < g.latStep
  lonStep : 0 < g.lonStep
  latcount : 0 < g.latcount
  count : g.latcount * g.loncount < 2 ^ 32

/-- The selected tile is one of the grid, and its boundary has the point. -/
structure Selects (g : GeoGrid) (p : GeoPoint) : Prop where
  x : (g.select p).x < g.latcount
  y : (g.select p).y < g.loncount
  contains : (g.cellBoundary (g.select p)).contains p = true

variable {g}

theorem Selects.tile {p : GeoPoint} (h : g.Selects p) (hvalid : g.Valid)
    (hp : g.contains p = true) :
    (g.select p).tile < g.tileCount ∧ g.selectTile (g.select p).tile = g.select p := by
  have hx := h.x
  have hy := h.y
  have hselect : g.select p = ⟨(g.select p).x, (g.select p).y,
      g.selectBin (g.select p).x (g.select p).y⟩ := by
    rw [GeoGrid.select, if_pos (show g.rect.contains p = true from hp)]
  generalize (g.select p).x = x at *
  generalize (g.select p).y = y at *
  have htile : y * g.latcount + x < g.latcount * g.loncount := by
    calc y * g.latcount + x < y * g.latcount + g.latcount := Nat.add_lt_add_left hx _
      _ = (y + 1) * g.latcount := (Nat.succ_mul y _).symm
      _ ≤ g.loncount * g.latcount := Nat.mul_le_mul_right _ hy
      _ = g.latcount * g.loncount := Nat.mul_comm _ _
  have hcount : u32 (g.latcount * g.loncount) = g.latcount * g.loncount := u32_of_lt hvalid.count
  have hbin : g.selectBin x y = y * g.latcount + x := u32_of_lt (htile.trans hvalid.count)
  rw [hselect, hbin]
  refine ⟨?_, ?_⟩
  · rwa [tileCount, hcount]
  · rw [selectTile, if_pos (by rwa [hcount]), Nat.mul_add_mod', Nat.mod_eq_of_lt hx, Nat.mul_comm,
      Nat.mul_add_div hvalid.latcount, Nat.div_eq_of_lt hx, Nat.add_zero]

end GeoGrid

end Sserialize
