/-
Sparse grids.

A grid remembers the cells that are not in the background state, ordered as they are
read, and carries the proof that it remembers no others.  What a grid means is the
function `get`, which answers the background state for every cell that is not
remembered; two grids are the same pattern when `get` answers the same everywhere,
which is when they list the same cells.

Beside the cells a grid carries a loose box that writes make larger and removals leave
alone.  It is a hint for display: it may be too large, never too small.
-/
import Std.Data.ExtTreeMap
import Cellular.Grid.Bounds

namespace Cellular

/-- A pattern of finitely many cells on the background. -/
structure Grid where
  /-- The cells that are not background, with their states. -/
  cells : Std.ExtTreeMap Coord State
  /-- A box around every cell written since the grid was empty and new. -/
  box : Option Bounds
  /-- No cell is remembered as background. -/
  live : ∀ c : Coord, cells[c]? ≠ some 0

namespace Grid

/-- The grid without cells. -/
def empty : Grid := ⟨∅, none, by simp⟩

instance : Inhabited Grid := ⟨empty⟩

/-- The state of a cell. -/
def get (g : Grid) (c : Coord) : State := g.cells.getD c 0

/-- Writes a state; writing the background removes the cell. -/
def set (g : Grid) (c : Coord) (s : State) : Grid :=
  if h : s = 0 then
    { g with
      cells := g.cells.erase c
      live := fun d => by
        rw [Std.ExtTreeMap.getElem?_erase]
        split
        · simp
        · exact g.live d }
  else
    { cells := g.cells.insert c s
      box := some (match g.box with
        | some b => b.grow c
        | none => .around c)
      live := fun d => by
        rw [Std.ExtTreeMap.getElem?_insert]
        split
        · simpa using h
        · exact g.live d }

/-- Writes a list of cells, first to last. -/
def extend (g : Grid) (cs : List (Coord × State)) : Grid := cs.foldl (fun g (c, s) => g.set c s) g

/-- The grid of a list of cells; of two states for one cell the later counts. -/
def ofList (cs : List (Coord × State)) : Grid := empty.extend cs

/-- The cells in reading order. -/
def toList (g : Grid) : List (Coord × State) := g.cells.toList

/-- The places of the cells in reading order. -/
def coords (g : Grid) : List Coord := g.cells.keys

/-- The number of cells. -/
def size (g : Grid) : Nat := g.cells.size

/-- Has the grid no cells? -/
def isEmpty (g : Grid) : Bool := g.cells.isEmpty

/-- Are the two grids the same pattern? -/
def sameCells (g h : Grid) : Bool := g.toList = h.toList

/-! ### Boxes -/

/-- The loose box, if there are cells. -/
def bounds (g : Grid) : Option Bounds := if g.isEmpty then none else g.box

/-- The smallest box that holds every cell. -/
def tightBounds (g : Grid) : Option Bounds := Bounds.enclosing? g.coords

/-- Shrinks the loose box to the smallest one. -/
def refreshBounds (g : Grid) : Grid := { g with box := g.tightBounds }

/-! ### Parts and copies -/

/-- The cells inside a box. -/
def restrict (g : Grid) (b : Bounds) : Grid := ofList (g.toList.filter fun (c, _) => b.contains c)

/-- The pattern moved by `o`. -/
def translate (g : Grid) (o : Offset) : Grid := ofList (g.toList.map fun (c, s) => (c + o, s))

/-- The pattern moved by `o`, within words. -/
def translateInWords (g : Grid) (o : Offset) : Except Calculation Grid := do
  perform (g.coords.flatMap (·.addArithmetic o))
  return g.translate o

/-- How many cells are in each of the states below `n`; at least one count is given,
and the background counts nothing. -/
def census (g : Grid) (n : Nat) : List Nat :=
  let states := g.cells.values
  (List.range (max n 1)).map fun s => states.count s

end Grid

end Cellular
