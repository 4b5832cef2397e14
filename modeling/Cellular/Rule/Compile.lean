/-
From sections to a rule.

The phases of a rule are as many as its longest list: of neighbourhood blocks, of
state weights or of rulestrings.  Shorter lists start over, so that each phase has a
block, state weights and a rulestring of its own.  Isotropic conditions replace the
blocks by the cells of their family.

The checks come in a fixed order, and the first that fails is reported.  One of them
bounds the weights: the sum of all weights of a phase, each as large as the states
allow, must fit a signed 64-bit number.
-/
import Cellular.Rule.Basic
import Cellular.Rule.Sections

namespace Cellular

namespace Sections

/-- Reports a section that is missing. -/
def required {α : Type} (which : RequiredSection) (o : Option α) : Except RuleError α :=
  match o with
  | some a => .ok a
  | none => .error (.missingSection which)

/-- Fails unless the condition holds. -/
def check (condition : Bool) (e : RuleError) : Except RuleError Unit :=
  if condition then .ok () else .error e

/-- The neighbourhood of a block of weights, which must be a square of the range. -/
def blockNeighbourhood (range number : Nat) (rows : List (List Int)) :
    Except RuleError Neighbourhood := do
  let side := 2 * range + 1
  check (rows.length = side) (.blockRows number rows.length side)
  (rows.zipIdx 1).forM fun (row, i) =>
    check (row.length = side) (.blockColumns number i row.length side)
  return .ofBlock range rows.flatten

/-- Does every weighted sum of a phase fit a signed 64-bit number?  Two of the
families weigh states by one, so no state weighs less here. -/
def weightsFit (n : Neighbourhood) (stateWeights : List Int) : Bool :=
  let largest := (stateWeights.map Int.natAbs).foldl max 1
  n.weights.foldl (fun sum w => sum + w.natAbs * largest) 0 ≤ 0x7fffffffffffffff

/-- The first `count` elements of a list that starts over at its end. -/
def cycled {α : Type} (xs : List α) (count : Nat) : List α :=
  (List.range count).filterMap (cyclic xs)

/-- What makes one phase: its neighbourhood, its state weights and its rulestring. -/
structure Phase where
  neighbourhood : Neighbourhood
  stateWeights : List Int
  rulestring : List Char

/-- The weights that the conditions of a phase look at. -/
def Phase.weights (p : Phase) : PhaseWeights := ⟨p.neighbourhood.weights, p.stateWeights.toArray⟩

/-- Names the rulestring that is not accepted. -/
def Phase.read {α : Type} (p : Phase) (f : List Char → Except RulestringError α) :
    Except RuleError α :=
  (f p.rulestring).mapError (.rulestring (String.ofList p.rulestring))

/-- The transition of a rule from its phases. -/
def transition (space : RuleSpace) (kind : ConditionKind) (nStates : Nat) (phases : List Phase) :
    Except RuleError Transition :=
  let ageing (regenerating : Bool) : Except RuleError Transition := do
    return .generations nStates (← phases.mapM fun p =>
      p.read (Rulestring.generations kind nStates regenerating p.weights))
  match space with
  | .outerTotalistic => do
    return .outerTotalistic (← phases.mapM fun p => do
      let (birth, survival) ← p.read (Rulestring.outerTotalistic kind)
      return { weights := p.weights, birth, survival })
  | .bsfkl => do
    check (nStates = 3) (.stateCount nStates)
    return .bsfkl (← phases.mapM fun p => p.read (Rulestring.bsfkl p.neighbourhood.weights))
  | .extendedGenerations => ageing false
  | .regeneratingGenerations => ageing true
  | .custom => .error (.unknownRulespace space.name)

/-- The neighbourhoods that the sections describe. -/
def neighbourhoods (s : Sections) (kind : ConditionKind) : Except RuleError (List Neighbourhood) :=
  match kind with
  | .isotropic family => .ok [.ofOffsets family.offsets]
  | _ => do
    let range ← required .range s.range
    check (!s.blocks.isEmpty) (.missingSection .neighbourhood)
    (s.blocks.zipIdx 1).mapM fun (rows, number) => blockNeighbourhood range number rows

/-- The kind of conditions; a BSFKL rule has no choice. -/
def conditionKind (s : Sections) (space : RuleSpace) : Except RuleError ConditionKind :=
  match s.conditions with
  | none => .ok .weighted
  | some kind =>
    if space = .bsfkl ∧ kind ≠ .weighted then .error (.incompatible kind space) else .ok kind

/-- The number of states, which every phase of the state weights must agree on. -/
def stateCount (stateWeights : List (List Int)) : Except RuleError Nat := do
  let nStates := (stateWeights.headD []).length
  check (2 ≤ nStates && nStates ≤ 256) (.stateCount nStates)
  (stateWeights.zipIdx 1).forM fun (weights, phase) =>
    check (weights.length = nStates) (.stateWeightLength phase weights.length nStates)
  return nStates

/-- Only square cells are supported. -/
def checkTiling (s : Sections) : Except RuleError Unit :=
  match s.tiling with
  | none => .ok ()
  | some tiling =>
    check (Text.sameIgnoringCase tiling "square".toList) (.unsupportedTiling (String.ofList tiling))

/-- A palette has a colour for each state. -/
def checkPalette (s : Sections) (nStates : Nat) : Except RuleError Unit :=
  match s.palette with
  | none => .ok ()
  | some colours =>
    check (colours.length = nStates) (.paletteLength nStates colours.length)

/-- The number of phases, by the longest list. -/
def period (s : Sections) (parsed : List Neighbourhood) (stateWeights : List (List Int))
    (rulestrings : List (List Char)) : Nat :=
  max (max parsed.length s.blocks.length) (max stateWeights.length rulestrings.length)

/-- So many phases, from lists that start over at their ends. -/
def phases (period : Nat) (parsed : List Neighbourhood) (stateWeights : List (List Int))
    (rulestrings : List (List Char)) : List Phase :=
  ((cycled parsed period).zip ((cycled stateWeights period).zip (cycled rulestrings period))).map
    fun (n, w, r) => { neighbourhood := n, stateWeights := w, rulestring := r }

/-- Names the first phase whose weights are too large. -/
def checkWeights (phases : List Phase) : Except RuleError Unit :=
  (phases.zipIdx 1).forM fun (p, i) =>
    check (weightsFit p.neighbourhood p.stateWeights) (.weightOverflow i)

/-- Builds the rule that the sections describe. -/
def compile (s : Sections) : Except RuleError Rule := do
  s.checkTiling
  let space ← required .rulespace s.space
  let stateWeights ← required .stateWeights s.stateWeights
  let rulestrings ← required .rulestring s.rulestrings
  let nStates ← stateCount stateWeights
  let kind ← s.conditionKind space
  let parsed ← s.neighbourhoods kind
  let period := s.period parsed stateWeights rulestrings
  let phases := phases period parsed stateWeights rulestrings
  checkWeights phases
  let transition ← transition space kind nStates phases
  s.checkPalette nStates
  if h : cycled parsed period = [] then .error (.missingSection .neighbourhood)
  else return {
    name := s.name.getD "Untitled"
    nStates
    neighbourhoods := cycled parsed period
    stateWeights := cycled stateWeights period
    space
    conditions := kind
    transition
    palette := s.palette
    neighbourhoods_ne := h }

end Sections

/-- Reads a rule. -/
def Rule.ofText (text : String) : Except RuleError Rule := do (← Sections.ofText text).compile

end Cellular
