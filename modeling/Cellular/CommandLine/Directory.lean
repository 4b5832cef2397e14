/-
A directory as a value.

A directory lists its files by name, and the name of a file in a folder has the steps
to it, separated by slashes.  Folders are there only for the files in them.

A path is walked step by step.  Empty steps and `.` stay in place and `..` goes back;
every other step but the last must name a folder.  Of the folders above the directory
nothing is known but that they are there, so no name is found in them.
-/
import Cellular.CommandLine.Files
import Cellular.Text.Split

namespace Cellular.CommandLine

/-- Files by name, in the order in which they were written. -/
structure Directory where
  files : List (String × String)

/-- One step of a path. -/
abbrev Step := List Char

/-- A folder that a path has come to. -/
inductive Place where
  /-- A folder of the directory, by the steps to it; without steps the directory. -/
  | folder (path : List Step)
  /-- A folder above the directory. -/
  | above
deriving DecidableEq

/-- What a path names. -/
inductive Target where
  /-- A folder, because the path ends in a step that stays or goes back. -/
  | folder
  /-- A name in a folder that is there; `slash` if a slash follows it. -/
  | entry (path : List Step) (slash : Bool)
deriving DecidableEq

/-- The most bytes in a step. -/
def maxStep : Nat := 255

/-- The most bytes in a path. -/
def maxPath : Nat := 4095

/-- Does the step stay or go back, rather than name anything? -/
def isDots (step : Step) : Bool := step = ['.'] || step = ['.', '.']

/-- Does the step have more bytes than it may? -/
def isTooLong (step : Step) : Bool := maxStep < (String.ofList step).utf8ByteSize

/-- The folder before the last step. -/
def Place.back : Place → Place
  | folder [] => above
  | folder path => folder path.dropLast
  | above => above

namespace Directory

/-- The name of the file that the steps lead to. -/
def fileName (path : List Step) : String := String.ofList (List.intercalate ['/'] path)

/-- The text of the file that the steps lead to. -/
def text? (d : Directory) (path : List Step) : Option String := d.files.lookup (fileName path)

/-- Do the steps, at least one, lead to a folder? -/
def isFolder (d : Directory) (path : List Step) : Bool :=
  d.files.any fun (file, _) => (path.flatMap (· ++ ['/'])).isPrefixOf file.toList

/-- Takes a step that must lead to a folder. -/
def enter (d : Directory) (place : Place) (step : Step) : Except FileError Place :=
  if step = ['.'] then .ok place
  else if step = ['.', '.'] then .ok place.back
  else if isTooLong step then .error .nameTooLong
  else match place with
    | .above => .error .notFound
    | .folder path =>
      if d.isFolder (path ++ [step]) then .ok (.folder (path ++ [step]))
      else if (d.text? (path ++ [step])).isSome then .error .notFolder
      else .error .notFound

/-- Walks a path up to its last step. -/
def locate (d : Directory) (path : String) : Except FileError Target :=
  let cs := path.toList
  let steps := (Text.pieces '/' cs).filter (!·.isEmpty)
  let start : Place := if cs.head? = some '/' then .above else .folder []
  if cs.isEmpty then .error .notFound
  else if maxPath < path.utf8ByteSize then .error .nameTooLong
  else match steps.getLast? with
    | none => .ok .folder
    | some last => do
      let place ← steps.dropLast.foldlM d.enter start
      if isDots last then return .folder
      else if isTooLong last then throw .nameTooLong
      else match place with
        | .above => throw .notFound
        | .folder before => return .entry (before ++ [last]) (cs.getLast? = some '/')

/-- The text of a file; what a slash follows must be a folder. -/
def read (d : Directory) (path : String) : Except FileError String := do
  match ← d.locate path with
  | .folder => throw .isFolder
  | .entry steps slash =>
    if d.isFolder steps then throw .isFolder
    else match d.text? steps with
      | some text => if slash then throw .notFolder else return text
      | none => throw .notFound

/-- Puts a text into a file, which is made if need be. -/
def write (d : Directory) (path text : String) : Except FileError Directory := do
  match ← d.locate path with
  | .folder => throw .isFolder
  | .entry steps slash =>
    if slash || d.isFolder steps then throw .isFolder
    else return ⟨d.files.filter (fun (file, _) => file ≠ fileName steps) ++
      [(fileName steps, text)]⟩

/-- The files that are not in `before` with the same text. -/
def changesSince (d before : Directory) : List (String × String) :=
  d.files.filter fun (file, text) => before.files.lookup file ≠ some text

/-- Reading and writing of a directory that is carried along. -/
def access : FileAccess (StateM Directory) where
  read path := do return (← get).read path
  write path text := do
    match (← get).write path text with
    | .ok d => set d; return .ok ()
    | .error e => return .error e

end Directory

end Cellular.CommandLine
