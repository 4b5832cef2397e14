/-
The hash of a cell.

Each coordinate is folded into a 64-bit word: the word is turned by 26 bits, the
coordinate is mixed in and the result is multiplied by an odd constant.  Both steps
can be undone, and the low bits of the product depend on the low bits of the factors
only, so that neighbours in a row never share a slot of a table.
-/
import Cellular.Coord

namespace Cellular.CoordHash

/-- The odd integer closest to `2 ^ 64` divided by the golden ratio. -/
def multiplier : UInt64 := 0x9e3779b97f4a7c15

/-- Turns a word to the left by 26 bits. -/
def turn (w : UInt64) : UInt64 := (w <<< 26) ||| (w >>> 38)

/-- Folds a coordinate into a word. -/
def fold (w : UInt64) (n : Int) : UInt64 := (turn w ^^^ (Int64.ofInt n).toUInt64) * multiplier

/-- Folds one byte into a word. -/
def foldByte (w : UInt64) (b : UInt8) : UInt64 := (w ^^^ b.toUInt64) * 0x100000001b3

/-- Folds bytes into a word, first to last. -/
def foldBytes (w : UInt64) (bs : List UInt8) : UInt64 := bs.foldl foldByte w

/-- The hash of a cell: its row, then its column. -/
def ofCoord (c : Coord) : UInt64 := fold (fold 0 c.row) c.col

end Cellular.CoordHash
