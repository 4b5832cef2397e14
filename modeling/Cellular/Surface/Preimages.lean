/-
The coordinates that resolve to a given cell.

Near a seam one cell is seen under several coordinates.  `preimages` lists those
within a margin around the box, which is what a step needs: a cell reads another
through an offset exactly when the sum of the two is one of the other's preimages.
On a glued box the coordinates come from the copies of the box that the margin
reaches; on a sphere they come from reflecting each axis separately.
-/
import Cellular.Surface.Basic

namespace Cellular

namespace Axis

/-- Does `c` lie within `margin` of the axis? -/
def inWindow (c size margin : Int) : Bool := size ≤ 0 || (-margin ≤ c && c < size + margin)

/-- The copies of the box that meet the window of the given margin, numbered by how
many boxes away they are. -/
def copies (size margin : Int) : List Int :=
  if 0 < size then between (-margin / size) ((size - 1 + margin) / size + 1) else [0]

/-- The position that `c` has in a box that is `k` boxes away across the other axis, where every
crossing mirrors. -/
def flip (c size k : Int) : Int := if k % 2 = 1 then mirror c size else c

/-- The positions of the window that reflect to `c`. -/
def reflections (c size margin : Int) : List Int :=
  if size ≤ 0 then [c]
  else
    let below := -1 - c
    let above := 2 * size - 1 - c
    c :: (between 0 ((below + margin) / size + 1)).map (below - · * size) ++
      (between 0 ((size + margin - 1 - above) / size + 1)).map (above + · * size)

/-! ### Their calculations -/

/-- The calculations of `inWindow`. -/
def windowArithmetic (size margin : Int) : List Calculation :=
  if size ≤ 0 then [] else [.neg margin, .add size margin]

/-- The calculations of `copies`. -/
def copiesArithmetic (size margin : Int) : List Calculation :=
  if 0 < size then [.neg margin, .sub size 1, .add (size - 1) margin] else []

/-- The calculations of `flip`. -/
def flipArithmetic (c size k : Int) : List Calculation :=
  if k % 2 = 1 then mirrorArithmetic c size else []

/-- The calculations of `reflections`: to either side they are followed up to the first that lies
outside of the window. -/
def reflectionsArithmetic (c size margin : Int) : List Calculation :=
  if size ≤ 0 then []
  else
    let below := -1 - c
    let above := 2 * size - 1 - c
    [.sub (-1) c, .neg margin] ++
      (between 0 ((below + margin) / size + 1)).map (fun k => .sub (below - k * size) size) ++
      [.mul 2 size, .sub (2 * size) 1, .sub (2 * size - 1) c, .add size margin] ++
      (between 0 ((size + margin - 1 - above) / size + 1)).map
        fun k => .add (above + k * size) size

/-- Moving a position by `k` boxes. -/
def copyArithmetic (c k size : Int) : List Calculation := [.mul k size, .add c (k * size)]

end Axis

namespace Surface

/-- The cell at the same place of each copy of the box, as far as the margin reaches.  The row
may depend on how many boxes to the right the copy lies, and the column on how many boxes down. -/
def glued (width height margin : Int) (rowAt colAt : Int → Int) : List Coord :=
  (Axis.copies height margin).flatMap fun down =>
    (Axis.copies width margin).map fun right =>
      ⟨rowAt right + down * height, colAt down + right * width⟩

/-- What is gone through for a cell, coordinates far from the box included. -/
def listed (joining : Joining) (width height margin : Int) (c : Coord) : List Coord :=
  match joining with
  | .rectangle => [c]
  | .torus => glued width height margin (fun _ => c.row) (fun _ => c.col)
  | .klein => glued width height margin (Axis.flip c.row height) (fun _ => c.col)
  | .crossSurface => glued width height margin (Axis.flip c.row height) (Axis.flip c.col width)
  | .sphere =>
    (Axis.reflections c.row height margin).flatMap fun row =>
      (Axis.reflections c.col width margin).map fun col => ⟨row, col⟩

/-- The coordinates within `margin` of the box that resolve to the cell `c`. -/
def preimages (s : Surface) (c : Coord) (margin : Int) : List Coord :=
  match s with
  | plane => [c]
  | box joining width height =>
    (listed joining width height margin c).filter fun p =>
      Axis.inWindow p.row height margin && Axis.inWindow p.col width margin

/-! ### Their calculations -/

/-- The calculations of `glued`, with those of the row and of the column of each copy. -/
def gluedArithmetic (width height margin : Int) (rowAt colAt : Int → Int)
    (rowArithmetic colArithmetic : Int → List Calculation) : List Calculation :=
  Axis.copiesArithmetic height margin ++ (Axis.copies height margin).flatMap fun down =>
    Axis.copiesArithmetic width margin ++ (Axis.copies width margin).flatMap fun right =>
      rowArithmetic right ++ colArithmetic down ++
        Axis.copyArithmetic (rowAt right) down height ++
        Axis.copyArithmetic (colAt down) right width

/-- The calculations of `listed`. -/
def listedArithmetic (joining : Joining) (width height margin : Int) (c : Coord) :
    List Calculation :=
  match joining with
  | .rectangle => []
  | .torus =>
    gluedArithmetic width height margin (fun _ => c.row) (fun _ => c.col) (fun _ => [])
      (fun _ => [])
  | .klein =>
    gluedArithmetic width height margin (Axis.flip c.row height) (fun _ => c.col)
      (Axis.flipArithmetic c.row height) (fun _ => [])
  | .crossSurface =>
    gluedArithmetic width height margin (Axis.flip c.row height) (Axis.flip c.col width)
      (Axis.flipArithmetic c.row height) (Axis.flipArithmetic c.col width)
  | .sphere =>
    Axis.reflectionsArithmetic c.row height margin ++ Axis.reflectionsArithmetic c.col width margin

/-- The calculations of `preimages`: a coordinate that lies outside of the window by its row is
given up before its column is looked at. -/
def preimagesArithmetic (s : Surface) (c : Coord) (margin : Int) : List Calculation :=
  match s with
  | plane => []
  | box joining width height =>
    listedArithmetic joining width height margin c ++
      (listed joining width height margin c).flatMap fun p =>
        Axis.windowArithmetic height margin ++
          if Axis.inWindow p.row height margin then Axis.windowArithmetic width margin else []

/-- The preimages, found within words. -/
def preimagesInWords (s : Surface) (c : Coord) (margin : Int) :
    Except Calculation (List Coord) := do
  perform (s.preimagesArithmetic c margin)
  return s.preimages c margin

end Surface

end Cellular
