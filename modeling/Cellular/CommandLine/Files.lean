/-
Reading and writing of files.

The program reads and writes files by their paths.  It does so through `FileAccess`, so
that the same program runs on the files of a machine and on a directory that is a
plain value.
-/
namespace Cellular.CommandLine

/-- Why a file cannot be read or written. -/
inductive FileError where
  | notFound
  | notFolder
  | isFolder
  | nameTooLong
  /-- Anything else, in words. -/
  | other (text : String)
deriving DecidableEq

/-- The wording of the error. -/
def FileError.message : FileError → String
  | notFound => "No such file or directory (os error 2)"
  | notFolder => "Not a directory (os error 20)"
  | isFolder => "Is a directory (os error 21)"
  | nameTooLong => "File name too long (os error 36)"
  | other text => text

/-- Reading and writing of files. -/
structure FileAccess (m : Type → Type) where
  read : String → m (Except FileError String)
  write : String → String → m (Except FileError Unit)

end Cellular.CommandLine
