/-
The sections of a rule text.

A rule text is a sequence of lines, each a label with a value or a line that belongs
to the section above it: rows of weights under `Neighbourhood`, colours under
`Colour Palette`.  Blank lines are passed over, and so are lines that start with `#`
unless they stand in a neighbourhood, where a line of `#` or `-` alone starts the next
block.  A label ends the section above it; when a label is repeated the last value
counts, except that every `Neighbourhood` starts another block.

Reading is one pass over the lines (`Sections.line` takes one of them), so what a
section means depends on the lines above it only through the section it stands in.
-/
import Cellular.Rule.Error

namespace Cellular

/-- The section that a line without a label belongs to. -/
inductive OpenSection where
  | header
  | neighbourhood
  | palette
deriving DecidableEq

/-- What the lines of a rule text have said so far. -/
structure Sections where
  name : Option String := none
  range : Option Nat := none
  /-- The rows of each neighbourhood block. -/
  blocks : List (List (List Int)) := []
  stateWeights : Option (List (List Int)) := none
  space : Option RuleSpace := none
  rulestrings : Option (List (List Char)) := none
  conditions : Option ConditionKind := none
  palette : Option (List Colour) := none
  tiling : Option (List Char) := none
  current : OpenSection := .header

namespace Sections

/-- Is the line a delimiter between blocks? -/
def isDelimiter (line : List Char) : Bool :=
  !line.isEmpty && line.all fun c => c = '#' || c = '-'

/-- The integers of a list separated by commas. -/
def integers (number : Nat) (cs : List Char) : Except RuleError (List Int) :=
  ((Text.pieces ',' cs).map Text.trim).mapM fun item =>
    match Text.signed? 64 item with
    | some n => .ok n
    | none => .error (.malformed number (.notInteger (String.ofList item)))

/-- Adds a row to the last block. -/
def addRow (blocks : List (List (List Int))) (row : List Int) : List (List (List Int)) :=
  match blocks with
  | [] => []
  | [b] => [b ++ [row]]
  | b :: bs => b :: addRow bs row

/-- Reads the value of a range. -/
def rangeValue (number : Nat) (value : List Char) : Except RuleError Nat :=
  match Text.signed? 64 value with
  | some r =>
    if 0 ≤ r ∧ r ≤ maxRange then .ok r.toNat
    else .error (.malformed number (.badRange (String.ofList value)))
  | none => .error (.malformed number (.badRange (String.ofList value)))

/-- Takes a label, in small letters and without blanks, and its value. -/
def label (s : Sections) (number : Nat) (written key value : List Char) :
    Except RuleError Sections := do
  let s := { s with current := .header }
  match String.ofList key with
  | "name" => return { s with name := some (String.ofList value) }
  | "neighbourhoodrange" | "neighborhoodrange" =>
    return { s with range := some (← rangeValue number value) }
  | "neighbourhood" | "neighborhood" =>
    return { s with blocks := s.blocks ++ [[]], current := .neighbourhood }
  | "stateweights" =>
    return { s with stateWeights := some (← (Text.pieces '|' value).mapM (integers number)) }
  | "rulespace" => return { s with space := some (← RuleSpace.ofName value) }
  | "rulestring" =>
    return { s with rulestrings := some ((Text.pieces '|' value).map Text.trim) }
  | "b/sconditions" | "bsconditions" =>
    return { s with conditions := some (← ConditionKind.ofName value) }
  | "tiling" => return { s with tiling := some value }
  | "colourpalette" | "colorpalette" =>
    if value.isEmpty then return { s with palette := some [], current := .palette }
    else if Text.sameIgnoringCase value "none".toList then return { s with palette := none }
    else throw (.paletteEntry (String.ofList value))
  | _ => throw (.malformed number (.unknownSection (String.ofList written)))

/-- Takes a line without a label. -/
def continuation (s : Sections) (number : Nat) (line : List Char) : Except RuleError Sections := do
  match s.current with
  | .header => throw (.malformed number (.labelExpected (String.ofList line)))
  | .neighbourhood =>
    if isDelimiter line then return { s with blocks := s.blocks ++ [[]] }
    else return { s with blocks := addRow s.blocks (← integers number line) }
  | .palette =>
    if Text.sameIgnoringCase line "none".toList then
      return { s with palette := none, current := .header }
    else
      let colour ← Palette.entry line
      return { s with palette := s.palette.map (· ++ [colour]) }

/-- Is the line passed over? -/
def isSkipped (current : OpenSection) (line : List Char) : Bool :=
  line.isEmpty || (current ≠ .neighbourhood && line.head? = some '#')

/-- Takes one trimmed line. -/
def line (s : Sections) (number : Nat) (line : List Char) : Except RuleError Sections :=
  if isSkipped s.current line then .ok s
  else match Text.cutAt ':' line with
    | some (key, value) =>
      s.label number key (Text.lower (key.filter (!Text.isBlank ·))) (Text.trim value)
    | none => s.continuation number line

/-- Reads the sections of a text; blocks without rows are dropped. -/
def ofText (text : String) : Except RuleError Sections := do
  let s ← (Text.numberedLines text).foldlM
    (fun (s : Sections) (number, l) => s.line number l) ({} : Sections)
  return { s with blocks := s.blocks.filter (!·.isEmpty) }

end Sections

end Cellular
