/-
A pattern under way.

A simulation owns a grid, the cells that were active last and the number of the
generation.  Editing a cell marks it as active, so that a step after an edit sees it;
an edit that names no cell of the surface is ignored.
-/
import Cellular.Evolution.Step

namespace Cellular

/-- A pattern that evolves under a rule on a surface. -/
structure Simulation where
  rule : Rule
  surface : Surface
  stepper : Stepper
  grid : Grid
  active : ActiveSet
  generation : Nat

namespace Simulation

/-- A simulation that starts from a grid at the given generation, which selects the
first phase. -/
def start (rule : Rule) (surface : Surface) (grid : Grid) (generation : Nat) : Simulation :=
  { rule, surface, grid, generation, stepper := .fresh, active := .ofGrid grid }

/-- The number of live cells. -/
def population (s : Simulation) : Nat := s.grid.size

/-- Writes the state of the cell that a coordinate names. -/
def setCell (s : Simulation) (c : Coord) (state : State) : Simulation :=
  let c := s.surface.resolve c
  if c = Surface.nowhere then s
  else
    let active := if s.grid.get c = state then s.active else s.active ++ [c]
    { s with grid := s.grid.set c state, active }

/-- Advances by one generation. -/
def step : Simulation → Simulation
  | { rule, surface, stepper, grid, active, generation } =>
    let (stepper, grid, active) := stepper.step rule surface generation grid active
    { rule, surface, stepper, grid, active, generation := generation + 1 }

/-- Advances by `n` generations. -/
def stepN (s : Simulation) : Nat → Simulation
  | 0 => s
  | n + 1 => s.step.stepN n

/-- The populations now and in each of the next `n` generations after those of `past`
(latest first), and the simulation after them. -/
def recordFrom (past : List Nat) (s : Simulation) : Nat → List Nat × Simulation
  | 0 => ((s.population :: past).reverse, s)
  | n + 1 => recordFrom (s.population :: past) s.step n

/-- The populations now and in each of the next `n` generations, and the simulation
after them. -/
def record (s : Simulation) (n : Nat) : List Nat × Simulation := recordFrom [] s n

/-! ### Within words -/

/-- Writes the state of a cell, which is found within words. -/
def setCellInWords (s : Simulation) (c : Coord) (state : State) :
    Except Calculation Simulation := do
  perform (s.surface.resolveArithmetic c)
  return s.setCell c state

/-- The calculations of `step`. -/
def stepArithmetic (s : Simulation) : List Calculation :=
  s.stepper.stepArithmetic s.rule s.surface s.generation s.grid s.active ++ [.next s.generation]

/-- Advances by one generation, within words. -/
def stepInWords (s : Simulation) : Except Calculation Simulation := do
  perform s.stepArithmetic
  return s.step

/-- Advances by `n` generations, within words. -/
def stepNInWords (s : Simulation) : Nat → Except Calculation Simulation
  | 0 => .ok s
  | n + 1 => do (← s.stepInWords).stepNInWords n

/-- Records populations as `recordFrom` does, within words. -/
def recordFromInWords (past : List Nat) (s : Simulation) :
    Nat → Except Calculation (List Nat × Simulation)
  | 0 => .ok ((s.population :: past).reverse, s)
  | n + 1 => do recordFromInWords (s.population :: past) (← s.stepInWords) n

/-- Records populations as `record` does, within words. -/
def recordInWords (s : Simulation) (n : Nat) : Except Calculation (List Nat × Simulation) :=
  recordFromInWords [] s n

end Simulation

end Cellular
