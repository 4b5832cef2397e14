/-
Random soups.

A soup fills a box with living cells, each with the same probability.  Every soup of a
run has a stream of random decisions of its own, so it does not matter in which order
soups are drawn.  Where the decisions come from is left open: all that is said here holds
whatever they are.
-/
import Cellular.Grid.Basic

namespace Cellular

/-- A source of random decisions. -/
structure RandomSource where
  /-- A place in a stream of decisions. -/
  Stream : Type
  /-- The probability of a decision. -/
  Chance : Type
  /-- The start of the stream of a seed. -/
  ofSeed : UInt64 → Stream
  /-- The probability that a number is, if it is one. -/
  chance? : Float → Option Chance
  /-- The decision at a place, and the place after it. -/
  draw : Chance → Stream → Bool × Stream

namespace Soup

/-- The nearest number from 0 to 1; what is not a number stays so. -/
def clamp (x : Float) : Float := if x < 0 then 0 else if 1 < x then 1 else x

/-- The probability that a cell lives, for a density, which is moved into the range from
0 to 1. -/
def chance? (source : RandomSource) (density : Float) : Option source.Chance :=
  source.chance? (clamp density)

/-- The stream for a soup of a run: the seeds of a run follow each other. -/
def stream (source : RandomSource) (seed : UInt64) (index : Nat) : source.Stream :=
  source.ofSeed (seed + UInt64.ofNat index)

/-- The cells of a box, row by row; a box without columns has no rows either. -/
def cells (width height : Int) : List Coord :=
  if width ≤ 0 then []
  else (between 0 height).flatMap fun row => (between 0 width).map fun col => ⟨row, col⟩

/-- Decides about one cell. -/
def place (source : RandomSource) (chance : source.Chance) (acc : Grid × source.Stream)
    (c : Coord) : Grid × source.Stream :=
  let (alive, stream) := source.draw chance acc.2
  (if alive then acc.1.set c 1 else acc.1, stream)

/-- A soup that fills a box at the origin, and the stream after it. -/
def draw (source : RandomSource) (width height : Int) (chance : source.Chance)
    (stream : source.Stream) : Grid × source.Stream :=
  (cells width height).foldl (place source chance) (.empty, stream)

end Soup

end Cellular
