/-
Cells of the plane and the displacements between them.

A cell is named by its row and its column, both unbounded integers, and a
displacement by how far it moves down and how far it moves right.  Everything that
is listed is listed in reading order: rows from the top, and within a row columns
from the left.  The order is lawful (`compare` answers `eq` only for equal cells), so
sorted containers keyed by cells behave as finite maps.
-/
import Cellular.Word

namespace Cellular

/-- The state of a cell; state 0 is the background. -/
abbrev State := Nat

/-- A cell of the plane. -/
@[ext]
structure Coord where
  row : Int
  col : Int
deriving DecidableEq, Hashable, Inhabited

/-- A displacement, `dy` rows down and `dx` columns right. -/
@[ext]
structure Offset where
  dy : Int
  dx : Int
deriving DecidableEq, Inhabited

/-! ### Moving cells -/

instance : HAdd Coord Offset Coord := ⟨fun c o => ⟨c.row + o.dy, c.col + o.dx⟩⟩

instance : HSub Coord Coord Offset := ⟨fun a b => ⟨a.row - b.row, a.col - b.col⟩⟩

instance : Neg Offset := ⟨fun o => ⟨-o.dy, -o.dx⟩⟩

/-- The cell itself, as a displacement. -/
def Offset.zero : Offset := ⟨0, 0⟩

/-- The number of king's moves that the displacement takes. -/
def Offset.radius (o : Offset) : Nat := max o.dy.natAbs o.dx.natAbs

@[simp] theorem Coord.add_row (c : Coord) (o : Offset) : (c + o).row = c.row + o.dy := rfl

@[simp] theorem Coord.add_col (c : Coord) (o : Offset) : (c + o).col = c.col + o.dx := rfl

@[simp] theorem Coord.sub_dy (a b : Coord) : (a - b).dy = a.row - b.row := rfl

@[simp] theorem Coord.sub_dx (a b : Coord) : (a - b).dx = a.col - b.col := rfl

@[simp] theorem Offset.neg_dy (o : Offset) : (-o).dy = -o.dy := rfl

@[simp] theorem Offset.neg_dx (o : Offset) : (-o).dx = -o.dx := rfl

/-- The calculations of `c + o`. -/
def Coord.addArithmetic (c : Coord) (o : Offset) : List Calculation :=
  [.add c.row o.dy, .add c.col o.dx]

/-- The calculations of `a - b`. -/
def Coord.subArithmetic (a b : Coord) : List Calculation :=
  [.sub a.row b.row, .sub a.col b.col]

/-- The calculations of the sizes of a displacement, of which its radius and its direction are
made. -/
def Offset.absArithmetic (o : Offset) : List Calculation :=
  Calculation.abs o.dy ++ Calculation.abs o.dx

/-! ### Reading order -/

instance : Ord Coord := ⟨compareLex (compareOn Coord.row) (compareOn Coord.col)⟩

instance : Std.TransOrd Coord :=
  inferInstanceAs (Std.TransCmp (compareLex (compareOn Coord.row) (compareOn Coord.col)))

instance : Std.LawfulEqOrd Coord where
  eq_of_compare {a b} h := by
    have h' : compareLex (compareOn Coord.row) (compareOn Coord.col) a b = .eq := h
    simp only [compareLex_eq_eq, compareOn, Std.compare_eq_iff_eq] at h'
    cases a
    cases b
    simp_all

instance : Ord Offset := ⟨compareLex (compareOn Offset.dy) (compareOn Offset.dx)⟩

instance : Std.TransOrd Offset :=
  inferInstanceAs (Std.TransCmp (compareLex (compareOn Offset.dy) (compareOn Offset.dx)))

instance : Std.LawfulEqOrd Offset where
  eq_of_compare {a b} h := by
    have h' : compareLex (compareOn Offset.dy) (compareOn Offset.dx) a b = .eq := h
    simp only [compareLex_eq_eq, compareOn, Std.compare_eq_iff_eq] at h'
    cases a
    cases b
    simp_all

/-- The integers from `lo` up to, but not including, `hi`. -/
def between (lo hi : Int) : List Int :=
  (List.range (hi - lo).toNat).map fun (i : Nat) => lo + (i : Int)

end Cellular
