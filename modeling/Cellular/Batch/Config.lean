/-
The configuration of a run over many soups.

Every setting is optional; what is not set falls back to a default.  Resolving a
configuration fills in the defaults and refuses sizes and counts that make no sense,
in a fixed order.
-/
import Cellular.Surface.Specifier
import Cellular.Pattern.Error
import Cellular.Soup.Basic

namespace Cellular

/-- A setting that must be positive. -/
inductive PositiveSetting where
  | soups
  | soupSize
  | generations
  | cap
deriving DecidableEq

/-- The setting in words. -/
def PositiveSetting.label : PositiveSetting → String
  | soups => "soup count"
  | soupSize => "soup size"
  | generations => "generation count"
  | cap => "generation cap"

/-- The longest side of a soup and of a closed surface. -/
def maxSoupSize : Int := 4096

/-- Why a run cannot be set up or finished. -/
inductive BatchError where
  | openSurface
  | nonPositive (setting : PositiveSetting)
  | tooLarge
  | pattern (cause : PatternError)
  /-- The density is not a number. -/
  | noDensity
  /-- There are more generations than populations can be listed. -/
  | tooLong
deriving DecidableEq

/-- The wording of the error. -/
def BatchError.message : BatchError → String
  | openSurface => "agar search needs a closed topology with both dimensions set"
  | nonPositive setting => s!"{setting.label} must be positive"
  | tooLarge => s!"soup size exceeds the limit of {maxSoupSize}"
  | pattern cause => cause.message
  | noDensity => "p=NaN is outside range [0.0, 1.0]"
  | tooLong => "capacity overflow"

/-- The settings that were made. -/
structure BatchConfig where
  threadCount : Option Nat := none
  maxThreads : Option Nat := none
  seed : Option UInt64 := none
  soupSize : Option Int := none
  density : Option Float := none
  soups : Option Nat := none
  generations : Option Nat := none
  cap : Option Nat := none
  surface : Option Surface := none

namespace BatchConfig

/-- At least one thread. -/
def withThreadCount (c : BatchConfig) (n : Nat) : BatchConfig :=
  { c with threadCount := some (max n 1) }

/-- At least one thread. -/
def withMaxThreads (c : BatchConfig) (n : Nat) : BatchConfig :=
  { c with maxThreads := some (max n 1) }

/-- The density is moved into the range from 0 to 1. -/
def withDensity (c : BatchConfig) (x : Float) : BatchConfig :=
  { c with density := some (Soup.clamp x) }

end BatchConfig

/-- A configuration with every default filled in. -/
structure Settings where
  seed : UInt64
  soupSize : Int
  density : Float
  soups : Nat
  generations : Nat
  cap : Nat
  surface : Option Surface

/-- The longest side of a surface, 0 if it has no sides. -/
def Surface.longestSide (s : Surface) : Int :=
  match s.dimensions? with
  | some (width, height) => max width height
  | none => 0

/-- Fills in the defaults; `freshSeed` is the seed of a run that names none. -/
def BatchConfig.resolve (c : BatchConfig) (freshSeed : UInt64) : Except BatchError Settings :=
  let s : Settings := {
    seed := c.seed.getD freshSeed
    soupSize := c.soupSize.getD 16
    density := Soup.clamp (c.density.getD 0.5)
    soups := c.soups.getD 100
    generations := c.generations.getD 1000
    cap := c.cap.getD 10000
    surface := c.surface }
  if s.soups = 0 then .error (.nonPositive .soups)
  else if s.soupSize ≤ 0 then .error (.nonPositive .soupSize)
  else if maxSoupSize < s.soupSize ∨ maxSoupSize < (s.surface.map Surface.longestSide).getD 0 then
    .error .tooLarge
  else if s.generations = 0 then .error (.nonPositive .generations)
  else if s.cap = 0 then .error (.nonPositive .cap)
  else .ok s

/-- The density of a run as a probability. -/
def Settings.probability (source : RandomSource) (s : Settings) :
    Except BatchError source.Chance :=
  match Soup.chance? source s.density with
  | some d => .ok d
  | none => .error .noDensity

end Cellular
