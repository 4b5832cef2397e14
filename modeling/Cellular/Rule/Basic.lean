/-
Rules.

A rule is a list of phases that alternate from one generation to the next, each with
a neighbourhood and the weights of the states, together with a transition.  It never
changes once it is built.  The reach of a rule is kept beside the phases because
every step needs it: it holds each offset and its opposite, over all phases, and the
cell itself, so a cell that changes can only affect cells within the reach.
-/
import Std.Data.ExtTreeSet
import Cellular.Neighbourhood
import Cellular.Rule.Transition
import Cellular.Rule.Palette
import Cellular.Rule.Error

namespace Cellular

/-- The offsets that a changed cell can influence, in reading order. -/
def reachOf (neighbourhoods : List Neighbourhood) : List Offset :=
  let offsets := neighbourhoods.flatMap fun n => n.offsets.flatMap fun o => [o, -o]
  (Std.ExtTreeSet.ofList (.zero :: offsets) compare).toList

/-- A cellular automaton rule. -/
structure Rule where
  name : String
  nStates : Nat
  /-- The neighbourhood of each phase. -/
  neighbourhoods : List Neighbourhood
  /-- The weights of the states in each phase. -/
  stateWeights : List (List Int)
  space : RuleSpace
  conditions : ConditionKind
  transition : Transition
  palette : Option (List Colour)
  /-- The offsets that a changed cell can influence. -/
  reach : List Offset := reachOf neighbourhoods
  reach_eq : reach = reachOf neighbourhoods := by rfl
  /-- There is at least one phase. -/
  neighbourhoods_ne : neighbourhoods ≠ []

namespace Rule

/-- The number of phases. -/
def period (r : Rule) : Nat := r.neighbourhoods.length

/-- The phase of a generation. -/
def phase (r : Rule) (generation : Nat) : Nat := generation % r.period

/-- The neighbourhood of a phase, counting on from the first after the last. -/
def neighbourhood (r : Rule) (phase : Nat) : Neighbourhood :=
  (cyclic r.neighbourhoods phase).getD ⟨[]⟩

/-- The offsets of a phase. -/
def offsets (r : Rule) (phase : Nat) : List Offset := (r.neighbourhood phase).offsets

/-- The weights of the states in a phase. -/
def stateWeightsAt (r : Rule) (phase : Nat) : List Int := (cyclic r.stateWeights phase).getD []

/-- How far a changed cell can have influence, in king's moves. -/
def margin (r : Rule) : Nat := (r.reach.map Offset.radius).foldl max 0

/-- The next state of a cell from its neighbours' states and its own. -/
def next (r : Rule) (phase : Nat) (neighbours : List State) (current : State) : State :=
  r.transition.next phase neighbours current

/-- The colours of the states: the palette, or else the default one. -/
def colours (r : Rule) : List Colour := r.palette.getD (Palette.default r.nStates)

/-- A rule whose transition is a function; each phase has a neighbourhood, and every
state but the background weighs one. -/
def custom (name : String) (nStates : Nat) (neighbourhoods : List Neighbourhood)
    (f : Nat → List State → State → State) : Except RuleError Rule :=
  if nStates < 2 ∨ 256 < nStates then .error (.stateCount nStates)
  else if h : neighbourhoods = [] then .error (.missingSection .neighbourhood)
  else .ok {
    name, nStates, neighbourhoods
    stateWeights := neighbourhoods.map fun _ =>
      (List.range nStates).map fun s => if s = 0 then 0 else 1
    space := .custom
    conditions := .weighted
    transition := .function f
    palette := none
    neighbourhoods_ne := h }

/-- The Game of Life: a dead cell with three living neighbours is born, and a living
cell with two or three survives. -/
def life : Rule where
  name := "Conway's Game of Life"
  nStates := 2
  neighbourhoods := [.moore 1]
  stateWeights := [[0, 1]]
  space := .outerTotalistic
  conditions := .weighted
  transition := .outerTotalistic [{
    weights := ⟨(Neighbourhood.moore 1).weights, #[0, 1]⟩
    birth := .totals .weighted (.ofList [(3 : Int)])
    survival := .totals .weighted (.ofList [(2 : Int), 3]) }]
  palette := none
  neighbourhoods_ne := by simp

end Rule

end Cellular
