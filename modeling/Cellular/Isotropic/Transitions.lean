/-
Sets of configurations written with letters.

A specification is a sequence of groups.  A group is a count of cells that are on,
an optional minus sign, and letters: without letters it stands for every
configuration with that count, with letters for the named configurations and their
images, and after a minus sign for the others with that count.

The families of eight cells share one grammar, in which a digit starts a group and
commas and blanks mean nothing.  The von Neumann family separates its groups by
commas and names a configuration by a pair of letters: one for the inner ring and
one for the outer four cells, where `x` stands for every inner ring with the right
count.
-/
import Std.Data.ExtTreeSet
import Cellular.Isotropic.Family
import Cellular.Text.Split
import Cellular.Text.Number

namespace Cellular

/-- A finite set of configurations. -/
abbrev ConfigurationSet := Std.ExtTreeSet Configuration

/-- Why a text is no specification of configurations. -/
inductive TransitionError where
  | noTransition (count : Nat) (letter : Char)
  | countTooLarge (count : Nat)
  | strayDash
  | letterBeforeCount (letter : Char)
  | unexpected (c : Char)
  | countMissing (group : String)
  | unpairedLetter (group : String)
  | unknownOuter (letter : Char)
  | impossiblePair (inner outer : Char) (total : Nat)
  | noInner (count : Nat) (letter : Char)
deriving DecidableEq

/-- The wording of the error. -/
def TransitionError.message : TransitionError → String
  | noTransition count letter => s!"no transition `{count}{letter}` in this neighbourhood"
  | countTooLarge count => s!"count {count} exceeds the neighbourhood size"
  | strayDash => "`-` must directly follow a neighbour count"
  | letterBeforeCount letter => s!"letter `{letter}` before any neighbour count"
  | unexpected c => s!"unexpected character `{c}`"
  | countMissing group => s!"group `{group}` must start with a neighbour count"
  | unpairedLetter group => s!"group `{group}` needs inner/outer letter pairs"
  | unknownOuter letter => s!"unknown outer-ring letter `{letter}`"
  | impossiblePair inner outer total => s!"pair `{inner}{outer}` cannot total {total}"
  | noInner count letter => s!"no transition `{count}{letter}` in the inner ring"

/-- The configurations of a group that names some of those with a count. -/
def Family.chosen (f : Family) (count : Nat) (negated : Bool) (named : List Configuration) :
    List Configuration :=
  if negated then
    let listed : ConfigurationSet := .ofList named
    (f.withCount count).filter fun c => !listed.contains c
  else named

/-! ### Families of eight cells -/

namespace Ring

/-- A group as read so far. -/
structure Group where
  count : Nat
  negated : Bool
  letters : List Char

/-- The configurations that a letter of a group stands for. -/
def named (f : Family) (count : Nat) (letter : Char) : Except TransitionError (List Configuration) :=
  match f.letter? count letter with
  | some c => .ok (f.images c)
  | none => .error (.noTransition count letter)

/-- The configurations that a group stands for. -/
def Group.expand (f : Family) (g : Group) : Except TransitionError (List Configuration) :=
  if g.letters.isEmpty then .ok (f.withCount g.count)
  else do
    let all ← g.letters.mapM (named f g.count)
    return f.chosen g.count g.negated all.flatten

/-- Adds the configurations of the last group, if there is one. -/
def close (f : Family) (g : Option Group) (acc : ConfigurationSet) :
    Except TransitionError ConfigurationSet :=
  match g with
  | none => .ok acc
  | some g => do return acc.insertMany (← g.expand f)

/-- Reads the rest of a specification after the group `g` and the set `acc` of those
before it. -/
def read (f : Family) : List Char → Option Group → ConfigurationSet →
    Except TransitionError ConfigurationSet
  | [], g, acc => close f g acc
  | c :: cs, g, acc =>
    if c = ',' ∨ Text.isBlank c then read f cs g acc
    else if c.isDigit then
      let count := Text.digitValue c
      if f.cellCount < count then .error (.countTooLarge count)
      else do read f cs (some ⟨count, false, []⟩) (← close f g acc)
    else if c = '-' then
      match g with
      | some ⟨count, false, []⟩ => read f cs (some ⟨count, true, []⟩) acc
      | _ => .error .strayDash
    else if c.isLower then
      match g with
      | some g => read f cs (some { g with letters := g.letters ++ [c] }) acc
      | none => .error (.letterBeforeCount c)
    else .error (.unexpected c)

end Ring

/-! ### The von Neumann family -/

namespace Pairs

/-- The pairs of neighbouring letters, or nothing if one is left over. -/
def pairs? : List Char → Option (List (Char × Char))
  | [] => some []
  | [_] => none
  | inner :: outer :: r => (pairs? r).map ((inner, outer) :: ·)

/-- The configurations that a pair of letters of a group stands for. -/
def named (total : Nat) (inner outer : Char) : Except TransitionError (List Configuration) :=
  match Family.outer? outer with
  | none => .error (.unknownOuter outer)
  | some ring =>
    let count := total - ring.count
    if total < ring.count ∨ 8 < count then .error (.impossiblePair inner outer total)
    else if inner = 'x' then
      .ok ((Family.moore.withCount count).flatMap fun c => Family.vonNeumann.images (c ||| ring))
    else match Family.moore.letter? count inner with
      | some c => .ok (Family.vonNeumann.images (c ||| ring))
      | none => .error (.noInner count inner)

/-- The configurations that a group stands for. -/
def expand (group : List Char) : Except TransitionError (List Configuration) :=
  match Text.unsigned? 32 (group.takeWhile Char.isDigit) with
  | none => .error (.countMissing (String.ofList group))
  | some total =>
    if 12 < total then .error (.countTooLarge total)
    else
      let rest := group.dropWhile Char.isDigit
      let negated := rest.head? = some '-'
      let rest := if negated then rest.tail else rest
      if rest.isEmpty then .ok (Family.vonNeumann.withCount total)
      else match pairs? rest with
        | none => .error (.unpairedLetter (String.ofList group))
        | some ps => do
          let all ← ps.mapM fun (inner, outer) => named total inner outer
          return Family.vonNeumann.chosen total negated all.flatten

/-- The groups of a specification. -/
def groups (cs : List Char) : List (List Char) :=
  ((Text.pieces ',' cs).map Text.trim).filter (!·.isEmpty)

/-- Reads a specification. -/
def read (cs : List Char) : Except TransitionError ConfigurationSet :=
  (groups cs).foldlM (fun acc group => do return acc.insertMany (← expand group)) ∅

end Pairs

/-- The set of configurations that a specification stands for. -/
def Family.transitions (f : Family) (cs : List Char) : Except TransitionError ConfigurationSet :=
  match f with
  | .vonNeumann => Pairs.read cs
  | _ => Ring.read f cs none ∅

end Cellular
