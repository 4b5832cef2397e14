/-
What can be wrong with a pattern that is read or written.
-/
import Cellular.Word

namespace Cellular

/-- Why a text is no pattern, or a pattern cannot be written. -/
inductive PatternError where
  | missingHeader
  | invalidHeader (line : String)
  | unexpected (c : Char) (line : Nat)
  /-- The rule at hand lacks the state; the text may name the rule that it is meant
  for. -/
  | stateOutOfRange (state nStates : Nat) (rule : Option String)
  | outsideHeader (width height line : Nat)
  /-- There are letters for the states up to 25 only. -/
  | noLetter (state : Nat) (row col : Int)
  /-- No fault of the pattern: a position or a size leaves its word. -/
  | overflow (c : Calculation)
deriving DecidableEq

/-- The wording of the error. -/
def PatternError.message : PatternError → String
  | missingHeader => "missing `x = .., y = ..` header line"
  | invalidHeader line => s!"invalid header `{line}`"
  | unexpected c line => s!"unexpected character `{c}` on line {line}"
  | stateOutOfRange state nStates rule =>
    let hint := match rule with
      | some name => s!" (pattern was saved under rule `{name}`)"
      | none => ""
    s!"state {state} is outside the {nStates} states of the loaded rule{hint}"
  | outsideHeader width height line =>
    s!"line {line}: pattern runs past its declared {width}x{height} box"
  | noLetter state row col =>
    s!"state {state} at ({row}, {col}) has no RLE letter; only states 1..=25 can be encoded"
  | overflow c => c.message

end Cellular
