/-
Neighbourhoods.

A neighbourhood is a list of offsets with a weight each.  The order matters: a
transition sees the neighbours in this order.  Offsets of weight zero are left out
where the neighbourhood is given by weights, so that a block of weights keeps only
the cells that count.
-/
import Cellular.Coord

namespace Cellular

/-- The offsets of the neighbours of a cell, with their weights. -/
structure Neighbourhood where
  entries : List (Offset × Int)
deriving DecidableEq

namespace Neighbourhood

/-- The offsets of the neighbours. -/
def offsets (n : Neighbourhood) : List Offset := n.entries.map (·.1)

/-- The weights of the neighbours. -/
def weights (n : Neighbourhood) : List Int := n.entries.map (·.2)

/-- The number of neighbours. -/
def size (n : Neighbourhood) : Nat := n.entries.length

/-- The entries whose weight is not zero. -/
def weighted (entries : List (Offset × Int)) : Neighbourhood := ⟨entries.filter (·.2 ≠ 0)⟩

/-- All offsets with weight one. -/
def ofOffsets (offsets : List Offset) : Neighbourhood := ⟨offsets.map fun o => (o, 1)⟩

/-- The place of the `i`-th weight in a square block whose centre is the cell. -/
def blockOffset (range : Int) (i : Nat) : Offset :=
  let side := 2 * range + 1
  ⟨(i : Int).tdiv side - range, (i : Int).tmod side - range⟩

/-- A square block of weights around the cell, row by row. -/
def ofBlock (range : Int) (block : List Int) : Neighbourhood :=
  weighted (block.zipIdx.map fun (w, i) => (blockOffset range i, w))

/-- All cells that a king reaches in `range` moves. -/
def moore (range : Int) : Neighbourhood :=
  let side := (2 * range + 1).toNat
  ofBlock range ((List.range (side * side)).map fun i => if i = side * side / 2 then 0 else 1)

/-- All cells that a rook reaches in `range` single steps. -/
def vonNeumann (range : Int) : Neighbourhood :=
  let axis : List Int := (List.range (2 * range + 1).toNat).map fun (i : Nat) => (i : Int) - range
  let square := axis.flatMap fun dy => axis.map fun dx => (⟨dy, dx⟩ : Offset)
  ofOffsets (square.filter fun o => o ≠ .zero && o.dy.natAbs + o.dx.natAbs ≤ range)

/-- How far the neighbourhood reaches, in king's moves. -/
def range (n : Neighbourhood) : Nat := (n.offsets.map Offset.radius).foldl max 0

end Neighbourhood

end Cellular
