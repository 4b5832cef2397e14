/-
Colours of states.

A palette has one colour for each state.  A rule without one gets black and white for
two states, and otherwise black followed by a ramp from red to yellow.
-/
import Cellular.Text.Split
import Cellular.Text.Number

namespace Cellular

/-- A colour by its red, green and blue parts, each below 256. -/
structure Colour where
  red : Nat
  green : Nat
  blue : Nat
deriving DecidableEq

namespace Palette

/-- The colours of a rule that declares none. -/
def default (nStates : Nat) : List Colour :=
  if nStates ≤ 2 then [⟨0, 0, 0⟩, ⟨255, 255, 255⟩].take (max nStates 1)
  else
    let step := 255 / (nStates - 2)
    ⟨0, 0, 0⟩ :: (List.range (nStates - 1)).map fun s => ⟨255, min (step * s) 255, 0⟩

/-- The text between the first `(` and the last `)`, the whole text if there is no
`(`, and nothing if the brackets do not match. -/
def body? (cs : List Char) : Option (List Char) :=
  match Text.cutAt '(' cs with
  | none => some cs
  | some (_, after) => (Text.cutAt ')' after.reverse).map fun (_, before) => before.reverse

/-- Reads a colour: three numbers separated by commas, alone or in brackets after an
index. -/
def entry? (cs : List Char) : Option Colour := do
  match ← ((Text.pieces ',' (← body? cs)).map Text.trim).mapM (Text.unsigned? 8) with
  | [red, green, blue] => some ⟨red, green, blue⟩
  | _ => none

end Palette

end Cellular
