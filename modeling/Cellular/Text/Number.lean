/-
Integers written in decimal.

A number is one or more digits 0 to 9 after an optional sign; leading zeros are
allowed and blanks are not.  An unsigned number takes `+` but no `-`.  Every reader
is told how many bits the number may use and refuses what does not fit.
-/
namespace Cellular.Text

/-- The value of a digit 0 to 9. -/
def digitValue (c : Char) : Nat := c.toNat - '0'.toNat

/-- The number that the digits write. -/
def digitsValue (cs : List Char) : Nat := cs.foldl (fun n c => 10 * n + digitValue c) 0

/-- The value of a text of one or more digits. -/
def digits? (cs : List Char) : Option Nat :=
  if !cs.isEmpty && cs.all Char.isDigit then some (digitsValue cs) else none

/-- A number from 0 to `2 ^ bits - 1`. -/
def unsigned? (bits : Nat) (cs : List Char) : Option Nat :=
  let body := match cs with
    | '+' :: r => r
    | _ => cs
  (digits? body).filter (· < 1 <<< bits)

/-- A number from `-2 ^ (bits - 1)` to `2 ^ (bits - 1) - 1`. -/
def signed? (bits : Nat) (cs : List Char) : Option Int :=
  let value := match cs with
    | '-' :: r => (digits? r).map fun n => -(n : Int)
    | '+' :: r => (digits? r).map Int.ofNat
    | _ => (digits? cs).map Int.ofNat
  let bound : Nat := 1 <<< (bits - 1)
  value.filter fun v => -(bound : Int) ≤ v && v < bound

end Cellular.Text
