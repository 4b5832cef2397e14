/-
The shortest decimal that identifies a binary number.

A finite 64-bit number is `m * 2 ^ q` for naturals `m`.  The decimals that read back
to it fill the interval between the middles to its two neighbours, ends included
exactly when `m` is even; below a power of two the lower neighbour is only half as far
away.  Grids of powers of ten are tried from the coarsest on.  If any point of a grid
lies in the interval then one of the two around the number does, so only those are
looked at, and the first grid with a hit gives the fewest digits.  Of two hits the
nearer counts, and of two equally near ones the upper.

The search ends: on the grid `10 ^ q`, or on that of the ones if `q` is not negative,
the number is itself a grid point.

Numbers are written without exponents, however long that makes them, and whole numbers
without a point.
-/
namespace Cellular.Decimal

/-- A finite number that is not negative: `m * 2 ^ q`. -/
structure Binary where
  m : Nat
  q : Int
  /-- The neighbour below is half as far away as the neighbour above. -/
  narrow : Bool

/-- The number without its sign that the bits of a finite number encode. -/
def Binary.ofBits (bits : UInt64) : Binary :=
  let exponent : Nat := (bits >>> 52).toNat % 0x800
  let fraction := bits.toNat % (1 <<< 52)
  if exponent = 0 then ⟨fraction, -1074, false⟩
  else ⟨(1 <<< 52) + fraction, (exponent : Int) - 1075, fraction = 0 && 1 < exponent⟩

/-- The digits and the exponent of a decimal, `digits * 10 ^ exponent`. -/
structure Digits where
  digits : Nat
  exponent : Int
deriving DecidableEq

namespace Binary

/-- Factors `a` and `b` such that `c` points of the grid `10 ^ k` and `n` quarters of
the unit of `x` compare like `c * a` and `n * b`. -/
def scale (x : Binary) (k : Int) : Nat × Nat :=
  (Nat.pow 10 k.toNat <<< (2 - x.q).toNat, Nat.pow 10 (-k).toNat <<< (x.q - 2).toNat)

/-- Does `c * 10 ^ k` read back to `x`? -/
def readsBack (x : Binary) (k : Int) (c : Nat) : Bool :=
  let (a, b) := x.scale k
  let low := (4 * x.m - if x.narrow then 1 else 2) * b
  let high := (4 * x.m + 2) * b
  (low < c * a && c * a < high) || (x.m % 2 = 0 && (low = c * a || c * a = high))

/-- The grid point at or below `x`. -/
def floorOn (x : Binary) (k : Int) : Nat :=
  let (a, b) := x.scale k
  4 * x.m * b / a

/-- The point of the grid `10 ^ k` that stands for `x`, if one around it reads back. -/
def pick? (x : Binary) (k : Int) : Option Nat :=
  let (a, b) := x.scale k
  let c := x.floorOn k
  match x.readsBack k c, x.readsBack k (c + 1) with
  | true, true => some (if 8 * x.m * b < (2 * c + 1) * a then c else c + 1)
  | true, false => some c
  | false, true => some (c + 1)
  | false, false => none

/-- Tries grids from `10 ^ k` down, and takes the point below `x` on the last one. -/
def search (x : Binary) (k : Int) : Nat → Digits
  | 0 => ⟨x.floorOn k, k⟩
  | steps + 1 =>
    match x.pick? k with
    | some c => ⟨c, k⟩
    | none => x.search (k - 1) steps

/-- The shortest decimal that reads back to `x`. -/
def shortest (x : Binary) : Digits :=
  let top : Int := (Nat.toDigits 10 (x.floorOn 0)).length
  x.search top (top - min x.q 0).toNat

end Binary

/-- A decimal without exponent. -/
def Digits.text (d : Digits) : List Char :=
  let ds := Nat.toDigits 10 d.digits
  let places := (-d.exponent).toNat
  if places = 0 then ds ++ List.replicate d.exponent.toNat '0'
  else if places < ds.length then
    ds.take (ds.length - places) ++ '.' :: ds.drop (ds.length - places)
  else ['0', '.'] ++ List.replicate (places - ds.length) '0' ++ ds

/-- A number as text. -/
def text (x : Float) : String :=
  if x.isNaN then "NaN"
  else
    let bits := x.toBits
    let sign := if bits >>> 63 = 1 then "-" else ""
    let b := Binary.ofBits bits
    let magnitude :=
      if x.isInf then "inf"
      else if b.m = 0 then "0"
      else String.ofList b.shortest.text
    sign ++ magnitude

end Cellular.Decimal
