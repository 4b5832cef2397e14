/-
One generation.

A cell can change only if a cell within the reach of the rule changed in the
generation before, so a step looks at the cells around the active ones and at no
others.  An alternating rule is the exception: its cells can change although nothing
near them did, so every live cell counts as active as well.

Where a seam mirrors the surface, a cell sees another through a reflected offset.  The
cells that an active cell may affect then lie around each of the coordinates that
resolve to it.

All candidates are evaluated on the old grid before any of them is written.
-/
import Cellular.CoordSet
import Cellular.Grid.Basic
import Cellular.Surface.Preimages
import Cellular.Rule.Basic

namespace Cellular

/-- The cells that changed last or were edited since, in any order and with
repetitions. -/
abbrev ActiveSet := List Coord

/-- Every live cell, for the first step of a pattern. -/
def ActiveSet.ofGrid (g : Grid) : ActiveSet := g.coords

/-- The cells around which a step looks for changes. -/
def Rule.seeds (r : Rule) (g : Grid) (active : ActiveSet) : List Coord :=
  if 1 < r.period then active ++ g.coords else active

/-- The calculations of the cells that `c` sees through offsets. -/
def Surface.sightArithmetic (s : Surface) (offsets : List Offset) (c : Coord) :
    List Calculation :=
  offsets.flatMap fun o => c.addArithmetic o ++ s.resolveArithmetic (c + o)

/-- What one step leaves for the next to reuse: the table of the candidates and the
buffers, as the step has filled them. -/
structure Stepper where
  candidates : CoordSet
  /-- The states around the candidate that was visited last. -/
  neighbours : Array State
  /-- The cells that change, with their new states. -/
  changes : Array (Coord × State)
  /-- The coordinates that resolve to the cell of the last seed. -/
  preimages : Array Coord

namespace Stepper

/-- A stepper that has not been used. -/
def fresh : Stepper := ⟨.empty, #[], #[], #[]⟩

/-- Empties a buffer and fills it again; its memory is kept. -/
def refill {α : Type} (buffer : Array α) (xs : List α) : Array α := buffer.shrink 0 ++ xs

/-- Adds the cells that a change of `c` may affect to the candidates. -/
def seed (r : Rule) (s : Surface) : Stepper → Coord → Stepper
  | ⟨candidates, neighbours, changes, preimages⟩, c =>
    if s.mirrors then
      let preimages := refill preimages (s.preimages (s.resolve c) r.margin)
      let affected := preimages.toList.flatMap fun p =>
        (r.reach.map fun o => p + o).filter s.contains
      ⟨candidates.insertAll affected, neighbours, changes, preimages⟩
    else
      let affected := (r.reach.map fun o => s.resolve (c + o)).filter (· ≠ Surface.nowhere)
      ⟨candidates.insertAll affected, neighbours, changes, preimages⟩

/-- Gathers the cells that may change. -/
def gather (t : Stepper) (r : Rule) (s : Surface) (seeds : List Coord) : Stepper :=
  seeds.foldl (seed r s)
    { t with candidates := t.candidates.clear.reserve (seeds.length * r.reach.length) }

/-- Finds the next state of a candidate and notes it down if it is another. -/
def visit (r : Rule) (s : Surface) (phase : Nat) (offsets : List Offset) (g : Grid) :
    Stepper → Coord → Stepper
  | ⟨candidates, neighbours, changes, preimages⟩, c =>
    let neighbours := refill neighbours (offsets.map fun o => g.get (s.resolve (c + o)))
    let current := g.get c
    let next := r.next phase neighbours.toList current
    ⟨candidates, neighbours, if next = current then changes else changes.push (c, next), preimages⟩

/-- Finds the new states of the candidates that change. -/
def evaluate (t : Stepper) (r : Rule) (s : Surface) (phase : Nat) (g : Grid) : Stepper :=
  t.candidates.toList.foldl (visit r s phase (r.offsets phase) g)
    { t with changes := t.changes.shrink 0 }

/-- Advances a grid by one generation; answers the new grid and the cells that
changed. -/
-- Irreducible, so that comparing two steppers field by field never runs the loops.
@[irreducible]
def step (t : Stepper) (r : Rule) (s : Surface) (generation : Nat) (g : Grid)
    (active : ActiveSet) : Stepper × Grid × ActiveSet :=
  let t := (t.gather r s (r.seeds g active)).evaluate r s (r.phase generation) g
  let changes := t.changes.toList
  (t, g.extend changes, changes.map (·.1))

/-! ### Within words -/

/-- The calculations of `seed`. -/
def seedArithmetic (r : Rule) (s : Surface) (c : Coord) : List Calculation :=
  if s.mirrors then
    s.resolveArithmetic c ++ s.preimagesArithmetic (s.resolve c) r.margin ++
      (s.preimages (s.resolve c) r.margin).flatMap fun p => r.reach.flatMap p.addArithmetic
  else s.sightArithmetic r.reach c

/-- The calculations of `step`: of how far the rule reaches, of the candidates around each seed,
and of what each candidate sees. -/
def stepArithmetic (t : Stepper) (r : Rule) (s : Surface) (generation : Nat) (g : Grid)
    (active : ActiveSet) : List Calculation :=
  let seeds := r.seeds g active
  r.reach.flatMap Offset.absArithmetic ++ seeds.flatMap (seedArithmetic r s) ++
    (t.gather r s seeds).candidates.toList.flatMap
      (s.sightArithmetic (r.offsets (r.phase generation)))

/-- Advances a grid by one generation, within words. -/
def stepInWords (t : Stepper) (r : Rule) (s : Surface) (generation : Nat) (g : Grid)
    (active : ActiveSet) : Except Calculation (Stepper × Grid × ActiveSet) := do
  perform (t.stepArithmetic r s generation g active)
  return t.step r s generation g active

end Stepper

/-- Advances a grid by one generation without anything to reuse. -/
def Rule.step (r : Rule) (s : Surface) (generation : Nat) (g : Grid) (active : ActiveSet) :
    Grid × ActiveSet :=
  (Stepper.fresh.step r s generation g active).2

/-- Likewise, within words. -/
def Rule.stepInWords (r : Rule) (s : Surface) (generation : Nat) (g : Grid)
    (active : ActiveSet) : Except Calculation (Grid × ActiveSet) := do
  return (← Stepper.fresh.stepInWords r s generation g active).2

end Cellular
