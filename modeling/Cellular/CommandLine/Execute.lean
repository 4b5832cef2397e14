/-
What the program does.

Each verb loads a rule and, where it needs one, a pattern, and prints a text or writes
it to a file.  Whatever goes wrong on the way ends the program with one line on the
error output; arguments that are not understood end it with the usage text.
-/
import Cellular.CommandLine.Arguments
import Cellular.CommandLine.Files
import Cellular.Rule.Compile
import Cellular.Pattern.Decode
import Cellular.Batch.PopulationCurve
import Cellular.Batch.Agar

namespace Cellular.CommandLine

/-- How the program ended. -/
inductive Ending where
  | success
  /-- A failure, described on the error output. -/
  | failure (message : String)
  /-- The program gave up where it stood. -/
  | breakdown (message : String)
deriving DecidableEq

/-- What the program printed and how it ended. -/
structure Outcome where
  stdout : String
  ending : Ending

/-- The exit code. -/
def Ending.code : Ending → Nat
  | success => 0
  | failure _ => 1
  | breakdown _ => 101

/-- The text on the error output. -/
def Ending.stderr : Ending → String
  | success => ""
  | failure message => s!"error: {message}\n"
  | breakdown message => message ++ "\n"

/-- A text to be printed, and a text for a file or for the end of the output. -/
structure Product where
  printed : String
  result : String
  path : Option String

/-- The result of a run: the last grid, and the populations of every generation. -/
def evolve (rule : Rule) (surface : Surface) (grid : Grid) (gens : Nat) :
    Except PatternError (String × List Nat) := do
  let (populations, last) := (Simulation.start rule surface grid 0).record gens
  return (← Pattern.encodeGrid last.grid rule.name, populations)

/-- The result of a run, found within words. -/
def evolveInWords (rule : Rule) (surface : Surface) (grid : Grid) (gens : Nat) :
    Except PatternError (String × List Nat) := do
  let (populations, last) ←
    ((Simulation.start rule surface grid 0).recordInWords gens).mapError .overflow
  return (← Pattern.encodeGridInWords last.grid rule.name, populations)

/-- How an error of a pattern ends the program. -/
def patternEnding (e : PatternError) : Ending :=
  match e with
  | .overflow _ => .breakdown e.message
  | _ => .failure e.message

/-- Reads the pattern for a rule. -/
def loadPattern (rule : Rule) (text : String) : Except Ending Grid :=
  match Pattern.decode text rule.nStates with
  | .ok pattern => .ok pattern.grid
  | .error e => .error (patternEnding e)

/-- How an error of a batch run ends the program. -/
def batchEnding (e : BatchError) : Ending :=
  match e with
  | .noDensity | .tooLong => .breakdown e.message
  | _ => .failure e.message

/-- The configuration of a batch run. -/
def batchConfig (f : Flags) : BatchConfig :=
  { f.config with
    generations := f.gens.or f.config.generations
    surface := f.surface.or f.config.surface }

/-- Runs the soups that the flags ask for. -/
def batch (f : Flags) (freshSeed : UInt64)
    (run : Settings → Except BatchError String) : Except Ending Product := do
  let text ← ((batchConfig f).resolve freshSeed >>= run).mapError batchEnding
  return { printed := "", result := text, path := f.out }

/-- What a verb makes of a rule and the text of a pattern.  In a search for agars the cells
of a grid are their own fingerprint. -/
def produce (random : RandomSource) (a : Arguments) (freshSeed : UInt64) (rule : Rule)
    (pattern : String) : Except Ending Product :=
  let surface := a.flags.surface.getD .plane
  match a.verb with
  | .run => do
    let gens := a.flags.gens.getD 100
    let grid ← loadPattern rule pattern
    if PopulationCurve.maxLength < gens + 1 then throw (.breakdown BatchError.tooLong.message)
    else match evolveInWords rule surface grid gens with
      | .error e => throw (patternEnding e)
      | .ok (text, populations) =>
        return {
          printed := text
          result := populationTable (populations.map toString)
          path := a.flags.csv }
  | .identify => do
    let grid ← loadPattern rule pattern
    let verdict ← (identifyInWords rule surface a.flags.kind 0 (fun _ => false) grid).mapError
      fun c => .breakdown c.message
    return { printed := "", result := verdict.text ++ "\n", path := none }
  | .geneascopy =>
    batch a.flags freshSeed fun s => (PopulationReport.run random rule s).map (·.table)
  | .agar => batch a.flags freshSeed fun s => (AgarReport.run random id rule s).map (·.summary)

section

variable {m : Type → Type} [Monad m]

/-- Reads a file. -/
def readFile (files : FileAccess m) (path : String) : m (Except Ending String) := do
  return (← files.read path).mapError fun e => .failure s!"cannot read {path}: {e.message}"

/-- Prints a product or writes it to its file. -/
def deliver (files : FileAccess m) (p : Product) : m Outcome := do
  match p.path with
  | none => return ⟨p.printed ++ p.result, .success⟩
  | some path =>
    match ← files.write path p.result with
    | .ok _ => return ⟨p.printed, .success⟩
    | .error e => return ⟨p.printed, .failure s!"cannot write {path}: {e.message}"⟩

/-- Does what the arguments say. -/
def execute (files : FileAccess m) (random : RandomSource) (freshSeed : UInt64) (a : Arguments) :
    m Outcome := do
  match ← readFile files a.rulePath with
  | .error e => return ⟨"", e⟩
  | .ok ruleText =>
    match Rule.ofText ruleText with
    | .error e => return ⟨"", .failure e.message⟩
    | .ok rule =>
      let pattern ← if a.verb.paths = 2 then readFile files a.patternPath else pure (.ok "")
      match pattern >>= produce random a freshSeed rule with
      | .error e => return ⟨"", e⟩
      | .ok product => deliver files product

/-- Runs the program on its arguments. -/
def program (files : FileAccess m) (random : RandomSource) (freshSeed : UInt64)
    (words : List String) : m Outcome :=
  match Arguments.read words with
  | .error e => return ⟨"", .breakdown e.message⟩
  | .ok a => execute files random freshSeed a

end

end Cellular.CommandLine
