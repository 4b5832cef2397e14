/-
Reading run-length encoded patterns.

The first line that is neither blank nor a comment gives the width and the height of a
box and may name a rule.  The rest is a sequence of symbols, each with an optional
count before it, up to an exclamation mark; `b` and `o` stand for background and state
1 as well.  Blanks, line ends and comments may come between any two characters.

The reader keeps a pen, which no run may move out of the box: every run is checked
before it is written.  Counts and positions stop growing at the largest 64-bit
integer.  In a box as wide as that the check lets every run pass, and the pen gives up
where it would leave the box.
-/
import Cellular.Grid.Basic
import Cellular.Pattern.Error
import Cellular.Pattern.Encode
import Cellular.Text.Number
import Cellular.Text.Split

namespace Cellular

/-- A pattern as read, with the top left corner of its box at the origin. -/
structure Pattern where
  grid : Grid
  width : Nat
  height : Nat
  /-- The rule that the text names. -/
  rule : Option String

namespace Pattern

/-! ### The header -/

/-- What the first line says. -/
structure Header where
  width : Nat
  height : Nat
  rule : Option String

/-- The value of a part of the header, if the part has the given key. -/
def headerValue? (key : String) (part : List Char) : Option (List Char) := do
  let (k, v) ← Text.cutAt '=' part
  if Text.sameIgnoringCase (Text.trim k) key.toList then some (Text.trim v) else none

/-- Reads a size of the box. -/
def headerSize? (key : String) (part : List Char) : Option Nat := do
  let n ← Text.signed? 64 (← headerValue? key part)
  if 0 ≤ n then some n.toNat else none

/-- Reads the part of the header that names a rule. -/
def headerRule? (part : List Char) : Option String :=
  (headerValue? "rule" part).map fun v => String.ofList v

/-- Reads the header: width, height and perhaps a rule, separated by commas. -/
def Header.ofLine? (line : List Char) : Option Header := do
  let (first, rest) ← Text.cutAt ',' line
  match Text.cutAt ',' rest with
  | none => return ⟨← headerSize? "x" first, ← headerSize? "y" rest, none⟩
  | some (second, third) =>
    return ⟨← headerSize? "x" first, ← headerSize? "y" second, some (← headerRule? third)⟩

/-! ### The body -/

/-- The largest count and position, that of a signed 64-bit number. -/
def limit : Nat := 0x7fffffffffffffff

/-- Where the reader stands, what it has read of a count, and the cells so far. -/
structure Pen where
  row : Nat
  col : Nat
  count : Nat
  grid : Grid

/-- The pen before the first symbol. -/
def Pen.start : Pen := ⟨0, 0, 0, .empty⟩

/-- How often the next symbol is repeated. -/
def Pen.run (p : Pen) : Nat := max p.count 1

/-- The column after the next run. -/
def Pen.nextCol (p : Pen) : Nat := min (p.col + p.run) limit

/-- The row after a run of row ends. -/
def Pen.nextRow (p : Pen) : Nat := min (p.row + p.run) limit

/-- The state of a letter. -/
def letterState? (c : Char) : Option State :=
  if c = 'o' then some 1
  else if 'A' ≤ c ∧ c ≤ 'Y' then some (c.toNat - 64)
  else none

/-- Writes a run of cells. -/
def Pen.write (p : Pen) (s : State) : Pen :=
  { row := p.row
    col := p.col + p.run
    count := 0
    grid := (List.range p.run).foldl
      (fun g (i : Nat) => g.set ⟨p.row, (p.col : Int) + (i : Int)⟩ s) p.grid }

/-- Takes one character of the body.  A cell is written before the pen moves on, so a run is
given up at the step that leads past the largest position. -/
def Pen.take (h : Header) (nStates : Nat) (p : Pen) (c : Char) (line : Nat) :
    Except PatternError Pen :=
  let outside := Except.error (PatternError.outsideHeader h.width h.height line)
  if c.isDigit then .ok { p with count := min (10 * p.count + Text.digitValue c) limit }
  else if c = '.' ∨ c = 'b' then
    if h.width < p.nextCol then outside else .ok { p with col := p.nextCol, count := 0 }
  else if c = '$' then
    if h.height < p.nextRow then outside else .ok { p with row := p.nextRow, col := 0, count := 0 }
  else if Text.isBlank c then .ok p
  else match letterState? c with
    | none => .error (.unexpected c line)
    | some s =>
      if nStates ≤ s then .error (.stateOutOfRange s nStates h.rule)
      else if h.height ≤ p.row ∨ h.width < p.nextCol then outside
      else if limit < p.col + p.run then .error (.overflow (.add limit 1))
      else .ok (p.write s)

/-- The characters of the lines up to the exclamation mark, with their line numbers. -/
def bodyChars (lines : List (Nat × List Char)) : List (Nat × Char) :=
  (lines.flatMap fun (number, line) => line.map (number, ·)).takeWhile (·.2 ≠ '!')

/-- Is the line neither blank nor a comment? -/
def isContent (line : List Char) : Bool := !line.isEmpty && line.head? ≠ some '#'

/-- Reads a pattern for a rule with the given number of states. -/
def decode (text : String) (nStates : Nat) : Except PatternError Pattern :=
  match (Text.numberedLines text).filter fun (_, line) => isContent line with
  | [] => .error .missingHeader
  | (_, first) :: lines =>
    if first.head? ≠ some 'x' ∧ first.head? ≠ some 'X' then .error .missingHeader
    else match Header.ofLine? first with
      | none => .error (.invalidHeader (String.ofList first))
      | some h => do
        let pen ← (bodyChars lines).foldlM (fun (p : Pen) (line, c) => p.take h nStates c line)
          .start
        return ⟨pen.grid, h.width, h.height, h.rule⟩

end Pattern

end Cellular
