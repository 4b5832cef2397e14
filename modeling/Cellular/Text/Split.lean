/-
Cutting text at separators.

`pieces` cuts at every occurrence of a character and so returns one piece more than
there are separators; `cutAt` cuts once, at the first occurrence; `beforeWord` looks
for a word instead of a character.  Lines are the pieces between line feeds, numbered
from one and without the blanks at their ends, so a carriage return never matters.
-/
import Cellular.Text.Blank

namespace Cellular.Text

/-- The pieces between the occurrences of `sep`. -/
def pieces (sep : Char) (cs : List Char) : List (List Char) :=
  cs.foldr (fun c acc =>
    if c = sep then [] :: acc
    else match acc with
      | [] => [[c]]
      | p :: ps => (c :: p) :: ps) [[]]

@[simp] theorem pieces_nil (sep : Char) : pieces sep [] = [[]] := rfl

theorem pieces_ne_nil (sep : Char) (cs : List Char) : pieces sep cs ≠ [] := by
  cases cs with
  | nil => simp
  | cons c r =>
    simp only [pieces, List.foldr_cons]
    split
    · simp
    · split <;> simp

/-- The text before and the text after the first `sep`. -/
def cutAt (sep : Char) (cs : List Char) : Option (List Char × List Char) :=
  match cs.span (· ≠ sep) with
  | (_, []) => none
  | (before, _ :: after) => some (before, after)

/-- The text before the first occurrence of `word`, and the text from there on. -/
def beforeWord (word : List Char) : List Char → Option (List Char × List Char)
  | [] => if word.isEmpty then some ([], []) else none
  | c :: r =>
    if word.isPrefixOf (c :: r) then some ([], c :: r)
    else (beforeWord word r).map fun (before, rest) => (c :: before, rest)

/-- The lines of a text, trimmed and numbered from one. -/
def numberedLines (text : String) : List (Nat × List Char) :=
  ((pieces '\n' text.toList).zipIdx 1).map fun (line, number) => (number, trim line)

/-- The text in lower case; only the letters A to Z change. -/
def lower (cs : List Char) : List Char := cs.map Char.toLower

/-- Do the two texts differ at most in the case of the letters A to Z? -/
def sameIgnoringCase (a b : List Char) : Bool := lower a = lower b

/-- The letters A to Z and a to z and the digits of a name, in lower case. -/
def plainName (cs : List Char) : List Char := lower (cs.filter Char.isAlphanum)

end Cellular.Text
