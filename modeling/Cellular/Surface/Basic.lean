/-
Surfaces: what the plane looks like to a pattern.

Besides the unbounded plane there are five surfaces cut from a box of cells.  Four of
them glue the sides of the box together, so that a coordinate outside the box names
a cell inside it; the fifth throws away what lies outside.  A side of length zero (or
less) is not glued, so a torus with one such side is a cylinder.

`resolve` finds the cell that a coordinate names and `contains` says which
coordinates are cells.  The two must agree: a coordinate is a cell exactly when it
resolves to itself.
-/
import Cellular.Coord

namespace Cellular

/-- How the sides of a box of cells are joined. -/
inductive Joining where
  /-- Both pairs of sides are joined directly. -/
  | torus
  /-- The left and right sides are joined upside down. -/
  | klein
  /-- Both pairs of sides are joined the wrong way round. -/
  | crossSurface
  /-- Every side reflects what crosses it. -/
  | sphere
  /-- Nothing is joined, and cells outside the box are discarded. -/
  | rectangle
deriving DecidableEq

/-- The plane, or a box of cells with its sides joined in some way. -/
inductive Surface where
  | plane
  | box (joining : Joining) (width height : Int)
deriving DecidableEq

/-! ### One axis at a time -/

namespace Axis

/-- The position in the box that `c` wraps to. -/
def wrap (c size : Int) : Int := if 0 < size then c % size else c

/-- Does `c` lie off the axis? -/
def outside (c size : Int) : Bool := 0 < size && (c < 0 || size ≤ c)

/-- Is `c` an odd number of copies of the box away from the box itself? -/
def crossesOdd (c size : Int) : Bool := 0 < size && c / size % 2 = 1

/-- The position opposite to `c` around the joined axis; position 0 stays. -/
def mirror (c size : Int) : Int := if 0 < size then (size - c % size) % size else c

/-- The position in the box that the sides reflect `c` to. -/
def reflect (c size : Int) : Int :=
  if size ≤ 0 ∨ (0 ≤ c ∧ c < size) then c
  else if c < 0 then (-c - 1) % size
  else size - 1 - c % size

/-- The calculations of `mirror`. -/
def mirrorArithmetic (c size : Int) : List Calculation :=
  if 0 < size then [.sub size (c % size)] else []

/-- The calculations of `reflect`. -/
def reflectArithmetic (c size : Int) : List Calculation :=
  if size ≤ 0 ∨ (0 ≤ c ∧ c < size) then []
  else if c < 0 then [.neg c, .sub (-c) 1]
  else [.sub size 1, .sub (size - 1) (c % size)]

end Axis

namespace Surface

/-- Stands for no cell at all; nothing is born there and edits there are ignored. -/
def nowhere : Coord := ⟨0x7fffffffffffffff, 0x7fffffffffffffff⟩

/-- Width and height of the box, if there is one. -/
def dimensions? : Surface → Option (Int × Int)
  | plane => none
  | box _ width height => some (width, height)

/-- Is the number of cells finite? -/
def isClosed (s : Surface) : Bool :=
  match s.dimensions? with
  | some (width, height) => 0 < width && 0 < height
  | none => false

/-- Does a seam turn a neighbourhood around instead of only moving it? -/
def mirrors : Surface → Bool
  | plane => false
  | box joining _ _ => joining = .klein || joining = .crossSurface || joining = .sphere

/-- The cell that a coordinate names.  The rectangle keeps one row and one column
beyond its sizes. -/
def resolve (s : Surface) (c : Coord) : Coord :=
  match s with
  | plane => c
  | box .torus width height => ⟨Axis.wrap c.row height, Axis.wrap c.col width⟩
  | box .klein width height =>
    let row := if Axis.crossesOdd c.col width then Axis.mirror c.row height else c.row
    ⟨Axis.wrap row height, Axis.wrap c.col width⟩
  | box .crossSurface width height =>
    let row := if Axis.crossesOdd c.col width then Axis.mirror c.row height else c.row
    let col := if Axis.crossesOdd c.row height then Axis.mirror c.col width else c.col
    ⟨Axis.wrap row height, Axis.wrap col width⟩
  | box .sphere width height => ⟨Axis.reflect c.row height, Axis.reflect c.col width⟩
  | box .rectangle width height =>
    if (0 < height ∧ (c.row < 0 ∨ height < c.row)) ∨ (0 < width ∧ (c.col < 0 ∨ width < c.col))
    then nowhere else c

/-- The calculations of `resolve`. -/
def resolveArithmetic (s : Surface) (c : Coord) : List Calculation :=
  match s with
  | plane | box .torus _ _ | box .rectangle _ _ => []
  | box .klein width height =>
    if Axis.crossesOdd c.col width then Axis.mirrorArithmetic c.row height else []
  | box .crossSurface width height =>
    (if Axis.crossesOdd c.col width then Axis.mirrorArithmetic c.row height else []) ++
      if Axis.crossesOdd c.row height then Axis.mirrorArithmetic c.col width else []
  | box .sphere width height =>
    Axis.reflectArithmetic c.row height ++ Axis.reflectArithmetic c.col width

/-- The cell that a coordinate names, found within words. -/
def resolveInWords (s : Surface) (c : Coord) : Except Calculation Coord := do
  perform (s.resolveArithmetic c)
  return s.resolve c

/-- Is the coordinate a cell of the surface? -/
def contains (s : Surface) (c : Coord) : Bool :=
  match s with
  | plane => true
  | box .rectangle width height => resolve (box .rectangle width height) c ≠ nowhere
  | box _ width height => !Axis.outside c.row height && !Axis.outside c.col width

end Surface

end Cellular
