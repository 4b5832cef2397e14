/-
Reading a decimal number.

A number has digits before or after its point or both, with an optional sign before
and an optional exponent of ten after them.  The words `inf`, `infinity` and `nan` are
numbers too, in any case.  The value is rounded once, to the nearest 64-bit number.
-/
import Cellular.Text.Split
import Cellular.Text.Number

namespace Cellular.Decimal

/-- The sign of a text, and the text after it. -/
def signed (cs : List Char) : Bool × List Char :=
  match cs with
  | '-' :: r => (true, r)
  | '+' :: r => (false, r)
  | _ => (false, cs)

/-- Reads the exponent after the letter `e`. -/
def exponent? (cs : List Char) : Option Int :=
  let (negative, digits) := signed cs
  (Text.digits? digits).map fun n => if negative then -(n : Int) else n

/-- The number `m * 10 ^ e`.  Exponents that overflow or vanish are not computed. -/
def scaled (m : Nat) (e : Int) : Float :=
  let size := e + (Nat.toDigits 10 m).length
  if m = 0 ∨ size < -400 then 0
  else if 400 < size then Float.ofScientific 1 false 400
  else Float.ofScientific m (e < 0) e.natAbs

/-- Reads a number without sign. -/
def magnitude? (cs : List Char) : Option Float := do
  let (mantissa, e) ← match cs.span fun c => c ≠ 'e' && c ≠ 'E' with
    | (mantissa, []) => some (mantissa, 0)
    | (mantissa, _ :: r) => (exponent? r).map fun e => (mantissa, e)
  let (whole, fraction) := (Text.cutAt '.' mantissa).getD (mantissa, [])
  let m ← Text.digits? (whole ++ fraction)
  return scaled m (e - fraction.length)

/-- Reads a number. -/
def float? (text : String) : Option Float :=
  let (negative, rest) := signed text.toList
  let value := match String.ofList (Text.lower rest) with
    | "inf" | "infinity" => some (1.0 / 0.0)
    | "nan" => some (0.0 / 0.0)
    | _ => magnitude? rest
  value.map fun x => if negative then -x else x

end Cellular.Decimal
