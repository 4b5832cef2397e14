/-
Random decisions from a stream of random words.

A decision is made by one random word: it is positive if the word lies below a threshold.
Certainty has no threshold and takes no words.

The stream is the key stream of the ChaCha cipher with twelve rounds: block number `n`
is a function of the key and of `n`, and words are taken from the blocks in order, two
32-bit words at a time with the low half first.  The key is spread from a 64-bit seed
by a linear congruence whose states are permuted before they are used.
-/
import Cellular.Soup.Basic

namespace Cellular

namespace ChaCha

/-- Turns a word to the left. -/
def turn (w amount : UInt32) : UInt32 :=
  (w <<< amount) ||| (w >>> (32 - amount))

/-- One quarter of a round, on four words. -/
def quarter (a b c d : UInt32) : UInt32 × UInt32 × UInt32 × UInt32 :=
  let a := a + b
  let d := turn (d ^^^ a) 16
  let c := c + d
  let b := turn (b ^^^ c) 12
  let a := a + b
  let d := turn (d ^^^ a) 8
  let c := c + d
  let b := turn (b ^^^ c) 7
  (a, b, c, d)

/-- One quarter of a round, on the words at four places of a block. -/
def quarterAt (s : Array UInt32) (place : Nat × Nat × Nat × Nat) : Array UInt32 :=
  let (i, j, k, l) := place
  let (a, b, c, d) := quarter (s.getD i 0) (s.getD j 0) (s.getD k 0) (s.getD l 0)
  (((s.setIfInBounds i a).setIfInBounds j b).setIfInBounds k c).setIfInBounds l d

/-- The places of the quarters of two rounds: the columns, then the diagonals. -/
def places : List (Nat × Nat × Nat × Nat) :=
  [(0, 4, 8, 12), (1, 5, 9, 13), (2, 6, 10, 14), (3, 7, 11, 15),
   (0, 5, 10, 15), (1, 6, 11, 12), (2, 7, 8, 13), (3, 4, 9, 14)]

/-- Two rounds. -/
def doubleRound (s : Array UInt32) : Array UInt32 := places.foldl quarterAt s

/-- The block before the rounds: four constants, the key, the block number and a nonce
of zero. -/
def initial (key : List UInt32) (number : UInt64) : Array UInt32 :=
  (([0x61707865, 0x3320646e, 0x79622d32, 0x6b206574] : List UInt32) ++ key ++
    [number.toUInt32, (number >>> 32).toUInt32, 0, 0]).toArray

/-- A block of sixteen words: twelve rounds, added to the block before them. -/
def block (key : List UInt32) (number : UInt64) : List UInt32 :=
  let start := initial key number
  let mixed := doubleRound (doubleRound (doubleRound (doubleRound (doubleRound
    (doubleRound start)))))
  List.zipWith (· + ·) mixed.toList start.toList

/-- Joins words two by two, the low half first. -/
def pairUp : List UInt32 → List UInt64
  | low :: high :: r => (low.toUInt64 ||| (high.toUInt64 <<< 32)) :: pairUp r
  | _ => []

/-- The next state of the congruence that spreads a seed. -/
def advance (state : UInt64) : UInt64 := state * 6364136223846793005 + 11634580027462260723

/-- The word that a state of the congruence gives. -/
def permuted (state : UInt64) : UInt32 :=
  let mixed := (((state >>> 18) ^^^ state) >>> 27).toUInt32
  let amount := (state >>> 59).toUInt32
  (mixed >>> amount) ||| (mixed <<< (32 - amount))

/-- The first words that a seed is spread to. -/
def spread (state : UInt64) : Nat → List UInt32
  | 0 => []
  | n + 1 =>
    let state := advance state
    permuted state :: spread state n

/-- The key of a seed. -/
def key (seed : UInt64) : List UInt32 := spread seed 8

end ChaCha

/-- A place in the stream of a key. -/
structure Generator where
  key : List UInt32
  /-- The number of the next block. -/
  number : UInt64
  /-- The words of the block before it that are left. -/
  rest : List UInt64

namespace Generator

/-- The start of the stream of a seed. -/
def ofSeed (seed : UInt64) : Generator := ⟨ChaCha.key seed, 0, []⟩

/-- The next word, and the place after it. -/
def next (g : Generator) : UInt64 × Generator :=
  match g.rest with
  | w :: r => (w, { g with rest := r })
  | [] =>
    let words := ChaCha.pairUp (ChaCha.block g.key g.number)
    (words.headD 0, { g with number := g.number + 1, rest := words.tail })

end Generator

/-- The probability of a decision. -/
inductive Density where
  | certain
  /-- The decision is positive if its word is smaller. -/
  | below (threshold : UInt64)
deriving DecidableEq

namespace Density

/-- The probability that a number from 0 to 1 is. -/
def ofFloat? (x : Float) : Option Density :=
  if 0 ≤ x ∧ x < 1 then some (below (x * 18446744073709551616).toUInt64)
  else if x == 1 then some certain
  else none

/-- Makes a decision. -/
def draw (d : Density) (g : Generator) : Bool × Generator :=
  match d with
  | certain => (true, g)
  | below threshold =>
    let (word, g) := g.next
    (word < threshold, g)

end Density

/-- Decisions from the streams of the cipher. -/
def RandomSource.chaCha : RandomSource where
  Stream := Generator
  Chance := Density
  ofSeed := Generator.ofSeed
  chance? := Density.ofFloat?
  draw := Density.draw

end Cellular
