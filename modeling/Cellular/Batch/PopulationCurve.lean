/-
Mean populations of many soups.

The populations of the soups are added up generation by generation, and each total is
divided by the number of soups.  Addition of lists fills the shorter one up with
zeros, so totals do not depend on the order or the grouping in which they are added.
-/
import Cellular.Evolution.Simulation
import Cellular.Batch.Config
import Cellular.Decimal.Shortest

namespace Cellular

/-- A table with one line for each generation. -/
def populationTable (values : List String) : String :=
  values.zipIdx.foldl (fun text (value, generation) => text ++ s!"{generation},{value}\n")
    "Generations,Population\n"

namespace PopulationCurve

/-- The most populations that one list can hold. -/
def maxLength : Nat := 0xfffffffffffffff

/-- Adds populations generation by generation. -/
def add : List Nat → List Nat → List Nat
  | [], bs => bs
  | as, [] => as
  | a :: as, b :: bs => (a + b) :: add as bs

/-- The populations of the first `generations` generations of a soup. -/
def ofSoup (rule : Rule) (surface : Surface) (soup : Grid) (generations : Nat) : List Nat :=
  ((Simulation.start rule surface soup 0).record (generations - 1)).1.take generations

end PopulationCurve

/-- The result of a run: the total populations of a number of soups. -/
structure PopulationReport where
  soups : Nat
  seed : UInt64
  totals : List Nat

namespace PopulationReport

/-- The mean population in each generation. -/
def means (r : PopulationReport) : List Float :=
  r.totals.map fun total => Float.ofNat total / Float.ofNat r.soups

/-- The mean populations as a table. -/
def table (r : PopulationReport) : String := populationTable (r.means.map Decimal.text)

/-- Runs the soups of the given settings. -/
def run (source : RandomSource) (rule : Rule) (s : Settings) :
    Except BatchError PopulationReport := do
  let chance ← s.probability source
  if PopulationCurve.maxLength < s.generations then throw .tooLong
  let surface := s.surface.getD .plane
  let curve (index : Nat) : List Nat :=
    let soup := (Soup.draw source s.soupSize s.soupSize chance (Soup.stream source s.seed index)).1
    PopulationCurve.ofSoup rule surface soup s.generations
  return {
    soups := s.soups
    seed := s.seed
    totals := (List.range s.soups).foldl (fun total i => PopulationCurve.add total (curve i)) [] }

end PopulationReport

end Cellular
