/-
Transitions: the next state of a cell.

Three families of rules are described by sets of numbers or configurations.  In the
outer totalistic family a cell is dead or alive.  In the BSFKL family a living cell
that does not survive turns destructive and stays so until enough living neighbours
clear it.  In the Generations families a cell that does not survive ages through the
higher states until it is background again; active states survive like state 1, and
regeneration lets an inactive state step back or hold.  A transition may also be any
function at all.

Each phase of an alternating rule has its own table; a phase past the last table
starts over at the first.
-/
import Cellular.Rule.Condition

namespace Cellular

/-- One phase of an outer totalistic rule. -/
structure LifePhase where
  weights : PhaseWeights
  birth : Condition
  survival : Condition

/-- The next state under an outer totalistic rule; every state but 1 counts as dead. -/
def LifePhase.next (p : LifePhase) (neighbours : List State) (current : State) : State :=
  let condition := if current = 1 then p.survival else p.birth
  (condition.holds p.weights neighbours).toNat

/-- One phase of a BSFKL rule. -/
structure BsfklPhase where
  weights : List Int
  birth : IntSet
  survival : IntSet
  forcing : IntSet
  killing : IntSet
  living : IntSet

/-- The weights of the places whose neighbour is in the given state, added up. -/
def BsfklPhase.sum (p : BsfklPhase) (s : State) (neighbours : List State) : Int :=
  sumAt (fun n => if n = s then 1 else 0) neighbours p.weights

/-- The next state under a BSFKL rule. -/
def BsfklPhase.next (p : BsfklPhase) (neighbours : List State) (current : State) : State :=
  let living := p.sum 1 neighbours
  let destructive := p.sum 2 neighbours
  match current with
  | 1 => if p.killing.contains destructive then 0 else if p.survival.contains living then 1 else 2
  | 2 => if p.living.contains living then 0 else 2
  | _ => if p.forcing.contains destructive && p.birth.contains living then 1 else 0

/-- One phase of a Generations rule. -/
structure AgeingPhase where
  weights : PhaseWeights
  birth : Condition
  survival : Condition
  /-- The states that survive like state 1. -/
  active : List Bool
  /-- When an inactive state from 2 on steps back by one. -/
  regenBirth : Option Condition
  /-- When an inactive state from 2 on does not age. -/
  regenSurvival : Option Condition

/-- The state after `current` on the way to the background. -/
def age (nStates : Nat) (current : State) : State := (current + 1) % nStates

/-- Does an optional condition hold? -/
def regenerates (c : Option Condition) (w : PhaseWeights) (neighbours : List State) : Bool :=
  c.any fun c => c.holds w neighbours

/-- The next state under a Generations rule. -/
def AgeingPhase.next (p : AgeingPhase) (nStates : Nat) (neighbours : List State)
    (current : State) : State :=
  if current = 0 then (p.birth.holds p.weights neighbours).toNat
  else if p.active.getD current false then
    if p.survival.holds p.weights neighbours then current else age nStates current
  else if 2 ≤ current && regenerates p.regenBirth p.weights neighbours then current - 1
  else if 2 ≤ current && regenerates p.regenSurvival p.weights neighbours then current
  else age nStates current

/-- How a rule finds the next state of a cell. -/
inductive Transition where
  | outerTotalistic (phases : List LifePhase)
  | bsfkl (phases : List BsfklPhase)
  | generations (nStates : Nat) (phases : List AgeingPhase)
  | function (f : Nat → List State → State → State)

/-- The table for a phase, counting on from the first after the last. -/
def cyclic {α : Type} (tables : List α) (phase : Nat) : Option α := tables[phase % tables.length]?

/-- The next state of a cell from its neighbours' states and its own. -/
def Transition.next (t : Transition) (phase : Nat) (neighbours : List State) (current : State) :
    State :=
  match t with
  | outerTotalistic phases => ((cyclic phases phase).map (·.next neighbours current)).getD current
  | bsfkl phases => ((cyclic phases phase).map (·.next neighbours current)).getD current
  | generations nStates phases =>
    ((cyclic phases phase).map (·.next nStates neighbours current)).getD current
  | function f => f phase neighbours current

end Cellular
