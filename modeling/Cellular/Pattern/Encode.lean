/-
Writing patterns as run-length encoded text.

A pattern is written row by row: a point for background, the letters `A` to `Y` for
the states 1 to 25 and `$` for the end of a row.  Background at the end of a row is
left out.  Equal symbols in a row are written once after their number, also where a
run goes on over the ends of rows.  Lines are broken between two runs before they grow
past seventy characters, and an exclamation mark ends the text.
-/
import Cellular.Grid.Basic
import Cellular.Pattern.Error

namespace Cellular

/-- The columns from `left` up to `right` of the rows from `top` up to `bottom`,
without the last ones. -/
structure Window where
  left : Int
  top : Int
  right : Int
  bottom : Int

/-- The window that a box of cells fills. -/
def Bounds.window (b : Bounds) : Window := ⟨b.left, b.top, b.right + 1, b.bottom + 1⟩

namespace Pattern

/-- The highest state that has a letter. -/
def maxState : Nat := 25

/-- The longest line of text. -/
def lineWidth : Nat := 70

/-- The symbol of a state, if it has one. -/
def symbol? (s : State) : Option Char :=
  if s = 0 then some '.' else if s ≤ maxState then some (Char.ofNat (64 + s)) else none

/-- The symbol of a cell. -/
def cellSymbol (g : Grid) (row col : Int) : Except PatternError Char :=
  match symbol? (g.get ⟨row, col⟩) with
  | some c => .ok c
  | none => .error (.noLetter (g.get ⟨row, col⟩) row col)

/-- A row without the background at its end. -/
def trimRow (symbols : List Char) : List Char := (symbols.reverse.dropWhile (· = '.')).reverse

/-- The symbols of one row of a window, with the end of the row. -/
def rowSymbols (g : Grid) (w : Window) (row : Int) : Except PatternError (List Char) := do
  return trimRow (← (between w.left w.right).mapM (cellSymbol g row)) ++ ['$']

/-- The symbols of a window. -/
def symbols (g : Grid) (w : Window) : Except PatternError (List Char) := do
  return (← (between w.top w.bottom).mapM (rowSymbols g w)).flatten

/-- The runs of equal symbols, with their lengths. -/
def runs (cs : List Char) : List (Nat × Char) :=
  cs.foldr (fun c acc => match acc with
    | (n, d) :: r => if c = d then (n + 1, d) :: r else (1, c) :: acc
    | [] => [(1, c)]) []

/-- A run as text; the number one is not written. -/
def token (run : Nat × Char) : String :=
  if 1 < run.1 then s!"{run.1}{run.2}" else String.singleton run.2

/-- Adds a run to a text whose last line has `used` characters. -/
def place (acc : String × Nat) (token : String) : String × Nat :=
  let (text, used) := acc
  if lineWidth < used + token.length then (text ++ "\n" ++ token, token.length)
  else (text ++ token, used + token.length)

/-- The text of a list of symbols. -/
def body (cs : List Char) : String := (((runs cs).map token).foldl place ("", 0)).1 ++ "!\n"

/-- The first line of a pattern. -/
def header (w : Window) (ruleName : String) : String :=
  s!"x = {w.right - w.left}, y = {w.bottom - w.top}, rule = {ruleName}\n"

/-- Writes the cells of a window. -/
def encode (g : Grid) (w : Window) (ruleName : String) : Except PatternError String := do
  return header w ruleName ++ body (← symbols g w)

/-- Writes a grid, in the smallest window that holds it. -/
def encodeGrid (g : Grid) (ruleName : String) : Except PatternError String :=
  encode g ((g.tightBounds.map Bounds.window).getD ⟨0, 0, 0, 0⟩) ruleName

/-! ### Within words -/

/-- The calculations of `header`. -/
def headerArithmetic (w : Window) : List Calculation :=
  [.sub w.right w.left, .sub w.bottom w.top]

/-- The calculations of the window of the smallest box that holds a grid. -/
def windowArithmetic (g : Grid) : List Calculation :=
  match g.tightBounds with
  | some b => [.add b.right 1, .add b.bottom 1]
  | none => []

/-- Writes the cells of a window whose sizes are words. -/
def encodeInWords (g : Grid) (w : Window) (ruleName : String) : Except PatternError String := do
  (perform (headerArithmetic w)).mapError .overflow
  encode g w ruleName

/-- Writes a grid whose window has sizes that are words. -/
def encodeGridInWords (g : Grid) (ruleName : String) : Except PatternError String := do
  (perform (windowArithmetic g)).mapError .overflow
  encodeInWords g ((g.tightBounds.map Bounds.window).getD ⟨0, 0, 0, 0⟩) ruleName

end Pattern

end Cellular
