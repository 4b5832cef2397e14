/-
Periodic backgrounds.

A soup that fills a closed surface is stepped until a grid comes back; grids are told
apart by a fingerprint of their cells.  If that takes more than one generation, the cycle
is an agar.  Agars are told apart by their period and the smallest rotation of the
populations in one cycle, and the first soup that reaches each of them is recorded.
-/
import Std.Data.HashMap
import Cellular.Evolution.Simulation
import Cellular.Batch.Config
import Cellular.Batch.Rotation
import Cellular.Pattern.Encode

namespace Cellular

/-- How a soup ended. -/
inductive SoupOutcome where
  /-- The grid of generation `prePeriod + period` is that of `prePeriod`; the
  populations are those of the generations between. -/
  | periodic (prePeriod period : Nat) (populations : List Nat) (pattern predecessor : Grid)
  /-- No grid came back up to the last generation. -/
  | unresolved

namespace SoupOutcome

section

variable {κ : Type} [BEq κ] [Hashable κ]

/-- Steps on until the fingerprint of the cells is one of those seen, each of which is kept
with its generation, or until no step is left. -/
def search (fingerprint : List (Coord × State) → κ) (seen : Std.HashMap κ Nat)
    (populations : Array Nat) (predecessor : Grid) (s : Simulation) (left : Nat) : SoupOutcome :=
  let print := fingerprint s.grid.toList
  match seen[print]?, left with
  | some first, _ =>
    .periodic first (s.generation - first) (populations.toList.drop first) s.grid predecessor
  | none, 0 => .unresolved
  | none, left + 1 =>
    search fingerprint (seen.insert print s.generation) (populations.push s.population) s.grid
      s.step left

/-- Steps a soup until a fingerprint comes back or `cap` generations have passed. -/
def ofSoupBy (fingerprint : List (Coord × State) → κ) (rule : Rule) (surface : Surface)
    (soup : Grid) (cap : Nat) : SoupOutcome :=
  search fingerprint ∅ #[] .empty (.start rule surface soup 0) cap

end

end SoupOutcome

/-- An agar and the soup that found it. -/
structure AgarRecord where
  soupIndex : Nat
  prePeriod : Nat
  period : Nat
  /-- The smallest rotation of the populations of one cycle. -/
  signature : List Nat
  /-- The grid that came back. -/
  pattern : String
  /-- The grid before it. -/
  predecessor : String

/-- The result of an agar search. -/
structure AgarReport where
  soups : Nat
  seed : UInt64
  /-- The first soup that reached each agar, in the order of the soups. -/
  records : List AgarRecord
  /-- The number of soups that ended in a cycle of each period. -/
  counts : Std.ExtTreeMap Nat Nat
  unresolved : Nat

/-- An `s` unless there is exactly one. -/
def pluralSuffix (n : Nat) : String := if n = 1 then "" else "s"

/-- A record in words. -/
def AgarRecord.text (r : AgarRecord) : String :=
  s!"Period {r.period} (soup {r.soupIndex}, settled after {r.prePeriod} generations)\n" ++
    r.pattern ++ r.predecessor ++ "====================\n"

namespace AgarReport

/-- The records, the number of soups for each period, and their total. -/
def summary (r : AgarReport) : String :=
  let records := String.join (r.records.map AgarRecord.text)
  let counts := r.counts.toList.map fun (period, n) =>
    s!"{n} period {period} agar{pluralSuffix n}\n"
  let total := r.counts.toList.foldl (fun sum (_, n) => sum + n) 0
  records ++ String.join counts ++ s!"{total} agar{pluralSuffix total} found in total\n"

/-- The report before the first soup. -/
def start (soups : Nat) (seed : UInt64) : AgarReport := ⟨soups, seed, [], ∅, 0⟩

/-- Is an agar with this period and signature on record? -/
def isKnown (r : AgarReport) (period : Nat) (signature : List Nat) : Bool :=
  r.records.any fun record => record.period = period && record.signature = signature

/-- Takes the outcome of the next soup into account. -/
def add (ruleName : String) (window : Window) (r : AgarReport) (soupIndex : Nat)
    (outcome : SoupOutcome) : Except BatchError AgarReport :=
  match outcome with
  | .unresolved => .ok { r with unresolved := r.unresolved + 1 }
  | .periodic prePeriod period populations pattern predecessor =>
    if period ≤ 1 then .ok r
    else
      let r := { r with counts := r.counts.insert period (r.counts.getD period 0 + 1) }
      let signature := Cycle.canonical populations
      if r.isKnown period signature then .ok r
      else do
        let written (g : Grid) := (Pattern.encode g window ruleName).mapError BatchError.pattern
        let record : AgarRecord := {
          soupIndex, prePeriod, period, signature
          pattern := ← written pattern
          predecessor := ← written predecessor }
        return { r with records := r.records ++ [record] }

/-- The report on a list of outcomes. -/
def ofOutcomes (ruleName : String) (window : Window) (soups : Nat) (seed : UInt64)
    (outcomes : List SoupOutcome) : Except BatchError AgarReport :=
  outcomes.zipIdx.foldlM (fun r (outcome, i) => r.add ruleName window i outcome)
    (start soups seed)

/-- Searches the soups of the given settings; the surface must be closed. -/
def run {κ : Type} [BEq κ] [Hashable κ] (source : RandomSource)
    (fingerprint : List (Coord × State) → κ) (rule : Rule) (s : Settings) :
    Except BatchError AgarReport := do
  let surface := s.surface.getD (.box .torus s.soupSize s.soupSize)
  match surface.isClosed, surface.dimensions? with
  | true, some (width, height) =>
    let chance ← s.probability source
    let outcome (index : Nat) : SoupOutcome :=
      let soup := (Soup.draw source width height chance (Soup.stream source s.seed index)).1
      .ofSoupBy fingerprint rule surface soup s.cap
    ofOutcomes rule.name ⟨0, 0, width, height⟩ s.soups s.seed ((List.range s.soups).map outcome)
  | _, _ => throw .openSurface

end AgarReport

end Cellular
