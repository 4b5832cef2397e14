/-
Birth and survival conditions.

A condition looks at the states of the neighbours in one of three ways: it adds up
their weights, it counts those that weigh anything, or it asks for the exact
configuration of those that weigh anything.  The weight of a neighbour is the weight
of its place times the weight of its state; a state past the end of the list of state
weights weighs nothing.
-/
import Cellular.Isotropic.Transitions

namespace Cellular

/-- A finite set of integers. -/
abbrev IntSet := Std.ExtTreeSet Int

/-- The sum over the places of the weight of the place times the value of the state
there; places without a state count nothing. -/
def sumAt (value : State → Int) : (neighbours : List State) → (weights : List Int) → Int
  | s :: neighbours, w :: weights => w * value s + sumAt value neighbours weights
  | _, _ => 0

/-- The weights of the places of a neighbourhood and of the states. -/
structure PhaseWeights where
  weights : List Int
  stateWeights : Array Int

namespace PhaseWeights

/-- The weight of a state. -/
def stateWeight (w : PhaseWeights) (s : State) : Int := w.stateWeights.getD s 0

/-- The sum of the weights of the neighbours. -/
def weightedSum (w : PhaseWeights) (neighbours : List State) : Int :=
  sumAt w.stateWeight neighbours w.weights

/-- Does a neighbour in this state weigh anything? -/
def counts (w : PhaseWeights) (s : State) : Bool := w.stateWeight s ≠ 0

/-- The number of neighbours that weigh anything. -/
def rawCount (w : PhaseWeights) (neighbours : List State) : Nat := neighbours.countP w.counts

/-- The configuration of the neighbours that weigh anything. -/
def configuration (w : PhaseWeights) (neighbours : List State) : Configuration :=
  .ofBits (neighbours.map w.counts)

end PhaseWeights

/-- How the neighbours are reduced to a number. -/
inductive Tally where
  | weighted
  | raw
deriving DecidableEq

/-- The number that a condition looks up. -/
def Tally.of (t : Tally) (w : PhaseWeights) (neighbours : List State) : Int :=
  match t with
  | weighted => w.weightedSum neighbours
  | raw => w.rawCount neighbours

/-- When a cell is born or survives. -/
inductive Condition where
  /-- The tally is one of the numbers. -/
  | totals (tally : Tally) (values : IntSet)
  /-- The configuration is one of these. -/
  | configurations (set : ConfigurationSet)

/-- Do the neighbours meet the condition? -/
def Condition.holds (c : Condition) (w : PhaseWeights) (neighbours : List State) : Bool :=
  match c with
  | totals tally values => values.contains (tally.of w neighbours)
  | configurations set => set.contains (w.configuration neighbours)

end Cellular
