/-
The program: reads the arguments and the files of the machine, prints, and exits.
-/
import Cellular.CommandLine.Execute
import Cellular.Soup.ChaCha

namespace Cellular.CommandLine

/-- What a failure of the machine means. -/
def failureOf (e : IO.Error) : FileError :=
  match e with
  | .noFileOrDirectory .. => .notFound
  | .inappropriateType _ code _ => if code = 21 then .isFolder else .notFolder
  | e => .other (toString e)

/-- The files of the machine. -/
def machine : FileAccess IO where
  read path := do
    try return .ok (← IO.FS.readFile path)
    catch e => return .error (failureOf e)
  write path text := do
    try
      IO.FS.writeFile path text
      return .ok ()
    catch e => return .error (failureOf e)

end Cellular.CommandLine

open Cellular.CommandLine

/-- Runs the program on the machine. -/
def main (args : List String) : IO UInt32 := do
  let bytes ← IO.getRandomBytes 8
  let freshSeed := bytes.toList.foldl (fun (w : UInt64) b => (w <<< 8) ||| b.toUInt64) 0
  let outcome ← program machine .chaCha freshSeed args
  IO.print outcome.stdout
  IO.eprint outcome.ending.stderr
  return UInt32.ofNat outcome.ending.code
