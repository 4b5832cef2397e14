/-
Surface specifiers.

A surface is written as one letter for the way its sides are joined, followed by its
width and height; a square box names its side once, and the plane is written `#`.
Reading is more generous than writing: blanks around the text, small letters, plus
signs, leading zeros, the height of a square and the word `infinite` are all accepted.
-/
import Cellular.Surface.Basic
import Cellular.Text.Split
import Cellular.Text.Number

namespace Cellular

/-- The letter that stands for the joining. -/
def Joining.symbol : Joining → Char
  | .torus => 'T'
  | .klein => 'K'
  | .crossSurface => 'C'
  | .sphere => 'S'
  | .rectangle => 'P'

/-- The joining that a letter of either case stands for. -/
def Joining.ofSymbol? (c : Char) : Option Joining :=
  match c.toUpper with
  | 'T' => some .torus
  | 'K' => some .klein
  | 'C' => some .crossSurface
  | 'S' => some .sphere
  | 'P' => some .rectangle
  | _ => none

/-- A text that specifies no surface. -/
structure SpecifierError where
  text : String
deriving DecidableEq

/-- The wording of the error. -/
def SpecifierError.message (e : SpecifierError) : String :=
  s!"invalid boundary specifier `{e.text}`"

namespace Surface

/-- The specifier of a surface. -/
def specifier : Surface → String
  | plane => "#"
  | box joining width height =>
    if width = height then s!"{joining.symbol}{width}"
    else s!"{joining.symbol}{width},{height}"

/-- Reads the sizes that follow the letter. -/
def sizes? (cs : List Char) : Option (Int × Int) := do
  let (width, height) ← match Text.cutAt ',' cs with
    | some (w, h) => pure (← Text.signed? 64 (Text.trim w), ← Text.signed? 64 (Text.trim h))
    | none => pure (← Text.signed? 64 cs, ← Text.signed? 64 cs)
  if 0 ≤ width ∧ 0 ≤ height then some (width, height) else none

/-- Reads a specifier. -/
def ofSpecifier (text : String) : Except SpecifierError Surface :=
  let cs := Text.trim text.toList
  let refused := Except.error ⟨String.ofList cs⟩
  if cs = ['#'] ∨ Text.sameIgnoringCase cs "infinite".toList then .ok plane
  else match cs with
    | [] => refused
    | letter :: rest =>
      match sizes? rest, Joining.ofSymbol? letter with
      | some (width, height), some joining => .ok (box joining width height)
      | _, _ => refused

end Surface

end Cellular
