/-
Neighbourhoods whose patterns are told apart up to turning and reflecting.

Each family lists its cells in a fixed order, and a configuration is the number whose
bit `i` says whether the `i`-th cell is on.  The symmetries of the square permute the
cells of a family; they are kept as tables that say from which cell each cell takes
its state.  Letters name one configuration of each class: a count of cells and a
letter stand for the configuration in the table and all its images.
-/
import Cellular.Coord

namespace Cellular

/-- A set of cells of a family, as a number with one bit for each cell. -/
abbrev Configuration := Nat

namespace Configuration

/-- The configuration whose bits are given, cell 0 first. -/
def ofBits : List Bool → Configuration
  | [] => 0
  | b :: bs => b.toNat + 2 * ofBits bs

/-- The configuration of a text of zeros and ones, cell 0 first. -/
def ofDigits (digits : String) : Configuration := ofBits (digits.toList.map (· = '1'))

/-- The configuration in which cell `i` is as cell `source[i]` is in `c`. -/
def permute (c : Configuration) (source : List Nat) : Configuration := ofBits (source.map c.testBit)

/-- The number of cells that are on, among the first sixteen. -/
def count (c : Configuration) : Nat := (List.range 16).countP c.testBit

end Configuration

/-- The families of cells that have letters for their configurations. -/
inductive Family where
  /-- The eight cells around the centre. -/
  | moore
  /-- The cells at distances one and two in the four straight directions. -/
  | cross
  /-- The eight cells around the centre, with the corners moved out to distance two. -/
  | farCorners
  /-- The eight cells a knight's move away. -/
  | knight
  /-- The cells around the centre and the four straight cells at distance two. -/
  | vonNeumann
deriving DecidableEq

/-- A symmetry group given by a quarter turn and two reflections of the cells. -/
structure Symmetry where
  turn : List Nat
  flip : List Nat
  flop : List Nat

/-- Names of configurations by the number of cells on and a letter. -/
abbrev LetterTable := List (Nat × Char × String)

namespace Family

/-- The cells of the family, in the order of the bits of a configuration. -/
def offsets : Family → List Offset
  | moore => [⟨1, -1⟩, ⟨1, 0⟩, ⟨1, 1⟩, ⟨0, 1⟩, ⟨-1, 1⟩, ⟨-1, 0⟩, ⟨-1, -1⟩, ⟨0, -1⟩]
  | cross => [⟨-1, 0⟩, ⟨0, 1⟩, ⟨1, 0⟩, ⟨0, -1⟩, ⟨-2, 0⟩, ⟨0, 2⟩, ⟨2, 0⟩, ⟨0, -2⟩]
  | farCorners => [⟨2, -2⟩, ⟨1, 0⟩, ⟨2, 2⟩, ⟨0, 1⟩, ⟨-2, 2⟩, ⟨-1, 0⟩, ⟨-2, -2⟩, ⟨0, -1⟩]
  | knight => [⟨-1, -2⟩, ⟨-2, -1⟩, ⟨-2, 1⟩, ⟨-1, 2⟩, ⟨1, 2⟩, ⟨2, 1⟩, ⟨2, -1⟩, ⟨1, -2⟩]
  | vonNeumann =>
    [⟨1, -1⟩, ⟨1, 0⟩, ⟨1, 1⟩, ⟨0, 1⟩, ⟨-1, 1⟩, ⟨-1, 0⟩, ⟨-1, -1⟩, ⟨0, -1⟩,
     ⟨2, 0⟩, ⟨0, 2⟩, ⟨-2, 0⟩, ⟨0, -2⟩]

/-- The number of cells. -/
def cellCount (f : Family) : Nat := f.offsets.length

/-- The symmetries of the family. -/
def symmetry : Family → Symmetry
  | moore | farCorners =>
    { turn := [2, 3, 4, 5, 6, 7, 0, 1]
      flip := [2, 1, 0, 7, 6, 5, 4, 3]
      flop := [6, 5, 4, 3, 2, 1, 0, 7] }
  | cross =>
    { turn := [3, 0, 1, 2, 7, 4, 5, 6]
      flip := [0, 3, 2, 1, 4, 7, 6, 5]
      flop := [2, 1, 0, 3, 6, 5, 4, 7] }
  | knight =>
    { turn := [6, 7, 0, 1, 2, 3, 4, 5]
      flip := [3, 2, 1, 0, 7, 6, 5, 4]
      flop := [7, 6, 5, 4, 3, 2, 1, 0] }
  | vonNeumann =>
    { turn := [2, 3, 4, 5, 6, 7, 0, 1, 9, 10, 11, 8]
      flip := [2, 1, 0, 7, 6, 5, 4, 3, 8, 11, 10, 9]
      flop := [6, 5, 4, 3, 2, 1, 0, 7, 10, 9, 8, 11] }

/-! ### Letters -/

/-- The letters of the ring of eight cells. -/
def ringLetters : LetterTable :=
  [(0, 'a', "00000000"), (1, 'c', "10000000"), (1, 'e', "01000000"), (2, 'c', "10100000"),
   (2, 'e', "01000001"), (2, 'k', "01001000"), (2, 'a', "11000000"), (2, 'i', "01000100"),
   (2, 'n', "10001000"), (3, 'c', "10101000"), (3, 'e', "01010001"), (3, 'k', "01001001"),
   (3, 'a', "11000001"), (3, 'i', "10000011"), (3, 'n', "10100001"), (3, 'y', "10100100"),
   (3, 'q', "10001001"), (3, 'j', "00110100"), (3, 'r', "01100100"), (4, 'c', "10101010"),
   (4, 'e', "01010101"), (4, 'k', "01101001"), (4, 'a', "10000111"), (4, 'i', "10110001"),
   (4, 'n', "10001011"), (4, 'y', "10100110"), (4, 'q', "11001001"), (4, 'j', "00110101"),
   (4, 'r', "01110100"), (4, 't', "11100100"), (4, 'w', "10001101"), (4, 'z', "11001100"),
   (5, 'c', "01010111"), (5, 'e', "10101110"), (5, 'k', "10110110"), (5, 'a', "00111110"),
   (5, 'i', "01111100"), (5, 'n', "01011110"), (5, 'y', "01011011"), (5, 'q', "01110110"),
   (5, 'j', "11001011"), (5, 'r', "10011011"), (6, 'c', "01011111"), (6, 'e', "10111110"),
   (6, 'k', "10110111"), (6, 'a', "00111111"), (6, 'i', "10111011"), (6, 'n', "01110111"),
   (7, 'c', "01111111"), (7, 'e', "10111111"), (8, 'a', "11111111")]

/-- The letters of the cross. -/
def crossLetters : LetterTable :=
  [(0, 'a', "00000000"), (1, 'a', "00001000"), (1, 'c', "10000000"), (2, 'a', "00001100"),
   (2, 'c', "00001010"), (2, 'e', "10001000"), (2, 'h', "01001000"), (2, 'i', "00101000"),
   (2, 'j', "11000000"), (2, 'n', "10100000"), (3, 'a', "00001110"), (3, 'c', "10001100"),
   (3, 'e', "00101100"), (3, 'h', "00011010"), (3, 'i', "10001100"), (3, 'j', "00111000"),
   (3, 'n', "01011000"), (3, 'o', "10011000"), (3, 'p', "11100000"), (4, 'a', "00001111"),
   (4, 'c', "00101110"), (4, 'e', "00011110"), (4, 'h', "10001110"), (4, 'i', "00111100"),
   (4, 'j', "01011100"), (4, 'n', "10011100"), (4, 'o', "11001100"), (4, 'p', "01011010"),
   (4, 'q', "10101010"), (4, 'r', "10011010"), (4, 't', "11011000"), (4, 'u', "01111000"),
   (4, 'v', "10111000"), (4, 'w', "11110000"), (5, 'a', "11110001"), (5, 'c', "01110011"),
   (5, 'e', "11010011"), (5, 'h', "11100101"), (5, 'i', "01110011"), (5, 'j', "11000111"),
   (5, 'n', "10100111"), (5, 'o', "01100111"), (5, 'p', "00011111"), (6, 'a', "11110011"),
   (6, 'c', "11110101"), (6, 'e', "01110111"), (6, 'h', "10110111"), (6, 'i', "11010111"),
   (6, 'j', "00111111"), (6, 'n', "01011111"), (7, 'a', "11110111"), (7, 'c', "01111111"),
   (8, 'a', "11111111")]

/-- The letters of the knight's moves. -/
def knightLetters : LetterTable :=
  [(0, 'a', "00000000"), (1, 'a', "10000000"), (2, 'a', "11000000"), (2, 'c', "10100000"),
   (2, 'e', "10010000"), (2, 'h', "10001000"), (2, 'i', "10000100"), (2, 'j', "10000001"),
   (3, 'a', "11100000"), (3, 'c', "11010000"), (3, 'e', "11001000"), (3, 'h', "10101000"),
   (3, 'i', "10100100"), (3, 'j', "10100001"), (3, 'n', "10010001"), (4, 'a', "11110000"),
   (4, 'c', "11101000"), (4, 'e', "11100100"), (4, 'h', "11100010"), (4, 'i', "11100001"),
   (4, 'j', "11011000"), (4, 'n', "11010100"), (4, 'o', "11010010"), (4, 'p', "11001100"),
   (4, 'q', "10101010"), (4, 'r', "10101001"), (4, 't', "10100101"), (4, 'u', "10110001"),
   (4, 'v', "10011001"), (5, 'a', "00011111"), (5, 'c', "00101111"), (5, 'e', "00110111"),
   (5, 'h', "01010111"), (5, 'i', "01011011"), (5, 'j', "01011110"), (5, 'n', "01101110"),
   (6, 'a', "00111111"), (6, 'c', "01011111"), (6, 'e', "01101111"), (6, 'h', "01110111"),
   (6, 'i', "01111011"), (6, 'j', "01111110"), (7, 'a', "01111111"), (8, 'a', "11111111")]

/-- The letters of the four outer cells of the von Neumann family. -/
def outerLetters : List (Char × String) :=
  [('a', "0000"), ('c', "1000"), ('d', "0100"), ('e', "0010"), ('f', "0001"), ('g', "1100"),
   ('i', "0110"), ('j', "0011"), ('k', "1001"), ('l', "1010"), ('m', "0101"), ('n', "1110"),
   ('o', "0111"), ('p', "1011"), ('q', "1101"), ('r', "1111")]

/-- The letters of the family; those of the von Neumann family name its inner ring. -/
def letters : Family → LetterTable
  | moore | farCorners | vonNeumann => ringLetters
  | cross => crossLetters
  | knight => knightLetters

/-- The configuration that a letter names among those with `count` cells on. -/
def letter? (f : Family) (count : Nat) (letter : Char) : Option Configuration :=
  (f.letters.find? fun (n, l, _) => n = count && l = letter).map fun (_, _, digits) =>
    .ofDigits digits

/-- The configuration of the four outer cells that a letter names. -/
def outer? (letter : Char) : Option Configuration :=
  (outerLetters.find? fun (l, _) => l = letter).map fun (_, digits) =>
    Configuration.ofDigits digits <<< 8

/-! ### Images -/

/-- A configuration and its two reflections. -/
def reflections (f : Family) (c : Configuration) : List Configuration :=
  [c, c.permute f.symmetry.flip, c.permute f.symmetry.flop]

/-- The twelve images of a configuration: each of its four turns with its reflections. -/
def images (f : Family) (c : Configuration) : List Configuration :=
  let turned (c : Configuration) := c.permute f.symmetry.turn
  [c, turned c, turned (turned c), turned (turned (turned c))].flatMap f.reflections

/-- The configurations with `count` cells on, in ascending order. -/
def withCount (f : Family) (count : Nat) : List Configuration :=
  (List.range (1 <<< f.cellCount)).filter fun c => c.count = count

end Family

end Cellular
