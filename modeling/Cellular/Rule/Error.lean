/-
What can be wrong with the text of a rule.

Each cause is a value, and its wording is in one place.  The readers at the end name
what they refuse: a name without the blanks around it, a colour as it stands.
-/
import Cellular.Rule.Rulestring
import Cellular.Rule.Palette

namespace Cellular

/-- Why one line of a rule text is not understood. -/
inductive LineError where
  | notInteger (text : String)
  | badRange (text : String)
  | unknownSection (label : String)
  | labelExpected (text : String)
deriving DecidableEq

/-- The largest range that a rule may have. -/
def maxRange : Nat := 64

/-- The wording of the error. -/
def LineError.message : LineError → String
  | notInteger text => s!"`{text}` is not an integer"
  | badRange text => s!"bad range `{text}`, expected 0..={maxRange}"
  | unknownSection label => s!"unknown section `{label}`"
  | labelExpected text => s!"expected `Label: value`, found `{text}`"

/-- The sections that a rule cannot do without. -/
inductive RequiredSection where
  | rulespace
  | stateWeights
  | rulestring
  | range
  | neighbourhood
deriving DecidableEq

/-- The label of a section. -/
def RequiredSection.label : RequiredSection → String
  | rulespace => "Rulespace"
  | stateWeights => "State Weights"
  | rulestring => "Rulestring"
  | range => "Neighbourhood Range"
  | neighbourhood => "Neighbourhood"

/-- Why a text describes no rule. -/
inductive RuleError where
  | malformed (line : Nat) (cause : LineError)
  | missingSection (which : RequiredSection)
  | blockRows (block found expected : Nat)
  | blockColumns (block row found expected : Nat)
  | stateWeightLength (phase found expected : Nat)
  | stateCount (n : Nat)
  | unknownRulespace (text : String)
  | unknownConditions (text : String)
  | incompatible (conditions : ConditionKind) (space : RuleSpace)
  | weightOverflow (phase : Nat)
  | unsupportedTiling (text : String)
  | rulestring (text : String) (cause : RulestringError)
  | paletteLength (expected found : Nat)
  | paletteEntry (text : String)
deriving DecidableEq

/-- The wording of the error. -/
def RuleError.message : RuleError → String
  | malformed line cause => s!"line {line}: {cause.message}"
  | missingSection which => s!"missing `{which.label}` section"
  | blockRows block found expected =>
    s!"neighbourhood block {block} has {found} rows, expected {expected}"
  | blockColumns block row found expected =>
    s!"neighbourhood block {block}, row {row}: found {found} weights, expected {expected}"
  | stateWeightLength phase found expected =>
    s!"state weights for phase {phase} have {found} entries, expected {expected}"
  | stateCount n => s!"rule declares {n} states; supported range is 2..=256"
  | unknownRulespace text => s!"unknown rulespace `{text}`"
  | unknownConditions text => s!"unknown B/S conditions `{text}`"
  | incompatible conditions space =>
    s!"B/S conditions `{conditions.name}` cannot be combined with rulespace `{space.name}`"
  | weightOverflow phase => s!"weights for phase {phase} can sum past the integer range"
  | unsupportedTiling text => s!"unsupported tiling `{text}`"
  | rulestring text cause => s!"rulestring `{text}`: {cause.message}"
  | paletteLength expected found =>
    s!"colour palette has {found} entries but the rule has {expected} states"
  | paletteEntry text => s!"invalid colour palette entry `{text}`"

/-- The rule space of a name. -/
def RuleSpace.ofName (cs : List Char) : Except RuleError RuleSpace :=
  match ofName? cs with
  | some space => .ok space
  | none => .error (.unknownRulespace (String.ofList (Text.trim cs)))

/-- The kind of conditions of a name. -/
def ConditionKind.ofName (cs : List Char) : Except RuleError ConditionKind :=
  match ofName? cs with
  | some kind => .ok kind
  | none => .error (.unknownConditions (String.ofList (Text.trim cs)))

/-- Reads a colour. -/
def Palette.entry (cs : List Char) : Except RuleError Colour :=
  match entry? cs with
  | some colour => .ok colour
  | none => .error (.paletteEntry (String.ofList cs))

end Cellular
