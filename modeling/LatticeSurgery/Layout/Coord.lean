import LatticeSurgery.Error
import Std.Data.ExtTreeMap

/-! # Coordinates

Places on a rectangular grid, ordered row by row.
-/

namespace LatticeSurgery

/-- A place on the grid. -/
structure Coord where
  row : Nat
  col : Nat
  deriving Repr, DecidableEq

/-- Direction of the side that two neighbours share. -/
inductive Axis where
  /-- Neighbours to the east and west. -/
  | horizontal
  /-- Neighbours to the north and south. -/
  | vertical
  deriving Repr, DecidableEq

namespace Coord

/-- Order by rows, then by columns. -/
abbrev order : Coord → Coord → Ordering := compareLex (compareOn row) (compareOn col)

instance : Ord Coord := ⟨order⟩

instance : Std.TransOrd Coord := inferInstanceAs (Std.TransCmp order)

instance : Std.LawfulEqOrd Coord where
  eq_of_compare {a b} h := by
    obtain ⟨rows, cols⟩ := Ordering.then_eq_eq.mp h
    cases a
    cases b
    exact congr (congrArg Coord.mk (Std.compare_eq_iff_eq.mp rows)) (Std.compare_eq_iff_eq.mp cols)

/-- Difference of two numbers, whichever is larger. -/
def gap (a b : Nat) : Nat := (a - b) + (b - a)

/-- Number of steps between two places, as a 64-bit number. -/
def distance (a b : Coord) : Except Error Nat := addWords (gap a.row b.row) (gap a.col b.col)

/-- Axis of the side shared with a neighbour. -/
def axisTo? (a b : Coord) : Option Axis :=
  match gap a.row b.row, gap a.col b.col with
  | 0, 1 => some .horizontal
  | 1, 0 => some .vertical
  | _, _ => none

/-- The neighbours in coordinate order, each with the axis of the shared side. -/
def neighbours (c : Coord) : List (Coord × Axis) :=
  (if 0 < c.row then [(⟨c.row - 1, c.col⟩, .vertical)] else [])
    ++ (if 0 < c.col then [(⟨c.row, c.col - 1⟩, .horizontal)] else [])
    ++ [(⟨c.row, c.col + 1⟩, .horizontal), (⟨c.row + 1, c.col⟩, .vertical)]

end Coord

end LatticeSurgery
