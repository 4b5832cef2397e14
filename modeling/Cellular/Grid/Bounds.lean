/-
Boxes of cells.

A box is given by its outermost rows and columns, all of which belong to it.
-/
import Cellular.Coord

namespace Cellular

/-- The columns `left` to `right` of the rows `top` to `bottom`. -/
structure Bounds where
  left : Int
  right : Int
  top : Int
  bottom : Int
deriving DecidableEq

namespace Bounds

/-- The box of one cell. -/
def around (c : Coord) : Bounds := ⟨c.col, c.col, c.row, c.row⟩

/-- The smallest box that holds the given one and a cell. -/
def grow (b : Bounds) (c : Coord) : Bounds :=
  ⟨min b.left c.col, max b.right c.col, min b.top c.row, max b.bottom c.row⟩

/-- Is the cell in the box? -/
def contains (b : Bounds) (c : Coord) : Bool :=
  b.top ≤ c.row && c.row ≤ b.bottom && b.left ≤ c.col && c.col ≤ b.right

/-- The number of columns. -/
def width (b : Bounds) : Int := b.right - b.left + 1

/-- The number of rows. -/
def height (b : Bounds) : Int := b.bottom - b.top + 1

/-- Width and height, within words. -/
def sizeInWords (b : Bounds) : Except Calculation (Int × Int) := do
  perform [.sub b.right b.left, .add (b.right - b.left) 1,
    .sub b.bottom b.top, .add (b.bottom - b.top) 1]
  return (b.width, b.height)

/-- The smallest box that holds all the cells of a list. -/
def enclosing? : List Coord → Option Bounds
  | [] => none
  | c :: cs => some (cs.foldl grow (around c))

end Bounds

end Cellular
