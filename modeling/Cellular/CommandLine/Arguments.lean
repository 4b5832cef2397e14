/-
The arguments of the command line.

A command is followed by the paths it needs and then by flags, each with a value.
Every flag is understood with every command, and one that a command has no use for is
checked and then ignored.  Arguments that make no sense end the program with a message
and the usage text.
-/
import Cellular.Identification
import Cellular.Batch.Config
import Cellular.Decimal.Read

namespace Cellular.CommandLine

/-- What the program accepts. -/
def usage : String := "usage:
  sparse-life run <rule> <rle> [--gens N] [--bounds SPEC] [--csv FILE]
  sparse-life identify <rule> <rle> [--kind any|osc|gun|replicator] [--bounds SPEC]
  sparse-life geneascopy <rule> [--soups N] [--gens N] [--size N] [--density P] [--threads N] [--max-threads N] [--seed S] [--out FILE]
  sparse-life agar <rule> --bounds SPEC [--soups N] [--cap N] [--density P] [--threads N] [--max-threads N] [--seed S]"

/-- What to do with a rule. -/
inductive Verb where
  | run
  | identify
  | geneascopy
  | agar
deriving DecidableEq

namespace Verb

/-- The verbs with their names. -/
def names : List (String × Verb) :=
  [("run", run), ("identify", identify), ("geneascopy", geneascopy), ("agar", agar)]

/-- The number of paths that follow the verb. -/
def paths : Verb → Nat
  | run | identify => 2
  | geneascopy | agar => 1

end Verb

/-- Why the arguments are not understood. -/
inductive UsageError where
  | noVerb
  | unknownVerb (word : String)
  | missingPaths (word : String) (count : Nat)
  | missingValue (flag : String)
  | invalidValue (flag value : String)
  | unknownArgument (word : String)
deriving DecidableEq

/-- The wording of the error. -/
def UsageError.message : UsageError → String
  | noVerb => usage
  | unknownVerb word => s!"unknown command: {word}\n{usage}"
  | missingPaths word count => s!"{word} requires {count} path argument(s)\n{usage}"
  | missingValue flag => s!"{flag} requires a value\n{usage}"
  | invalidValue flag value => s!"{flag} got an invalid value: {value}\n{usage}"
  | unknownArgument word => s!"unknown argument: {word}\n{usage}"

/-- The values of the flags. -/
structure Flags where
  gens : Option Nat := none
  csv : Option String := none
  out : Option String := none
  kind : PatternKind := .any
  surface : Option Surface := none
  config : BatchConfig := {}

namespace Flags

/-- Reads a number of 64 bits without sign. -/
def natural? (value : String) : Option Nat := Text.unsigned? 64 value.toList

/-- Sets a flag; answers nothing if the value is not valid for it. -/
def set? (f : Flags) (flag value : String) : Option (Option Flags) :=
  match flag with
  | "--gens" => some ((natural? value).map fun n => { f with gens := some n })
  | "--csv" => some (some { f with csv := some value })
  | "--out" => some (some { f with out := some value })
  | "--kind" => some ((PatternKind.ofName value).toOption.map fun k => { f with kind := k })
  | "--bounds" =>
    some ((Surface.ofSpecifier value).toOption.map fun s => { f with surface := some s })
  | "--soups" =>
    some ((natural? value).map fun n => { f with config := { f.config with soups := some n } })
  | "--size" =>
    some ((Text.signed? 64 value.toList).map fun n =>
      { f with config := { f.config with soupSize := some n } })
  | "--density" =>
    some ((Decimal.float? value).map fun x => { f with config := f.config.withDensity x })
  | "--cap" =>
    some ((natural? value).map fun n => { f with config := { f.config with cap := some n } })
  | "--threads" =>
    some ((natural? value).map fun n => { f with config := f.config.withThreadCount n })
  | "--max-threads" =>
    some ((natural? value).map fun n => { f with config := f.config.withMaxThreads n })
  | "--seed" =>
    some ((natural? value).map fun n =>
      { f with config := { f.config with seed := some (UInt64.ofNat n) } })
  | _ => none

/-- Is the word a flag at all? -/
def isFlag (word : String) : Bool := ((({} : Flags).set? word "").isSome)

/-- Reads flags with their values. -/
def read (f : Flags) : List String → Except UsageError Flags
  | [] => .ok f
  | [flag] => .error (if isFlag flag then .missingValue flag else .unknownArgument flag)
  | flag :: value :: r =>
    match f.set? flag value with
    | none => .error (.unknownArgument flag)
    | some none => .error (.invalidValue flag value)
    | some (some f) => f.read r

end Flags

/-- Arguments that are understood. -/
structure Arguments where
  verb : Verb
  rulePath : String
  /-- The path of the pattern; empty for the verbs that need none. -/
  patternPath : String
  flags : Flags

/-- Reads the arguments of the program. -/
def Arguments.read (words : List String) : Except UsageError Arguments :=
  match words with
  | [] => .error .noVerb
  | word :: rest =>
    match Verb.names.lookup word with
    | none => .error (.unknownVerb word)
    | some verb =>
      let paths := rest.take verb.paths
      if paths.length < verb.paths ∨ paths.any (·.startsWith "--") then
        .error (.missingPaths word verb.paths)
      else do
        let flags ← ({} : Flags).read (rest.drop verb.paths)
        return { verb, rulePath := paths.getD 0 "", patternPath := paths.getD 1 "", flags }

end Cellular.CommandLine
