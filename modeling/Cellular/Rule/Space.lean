/-
Rule spaces and kinds of conditions, by name.

Names are read without regard to case, blanks and punctuation: only letters and
digits count.  Each kind has a name of its own, which reads back to it.
-/
import Cellular.Isotropic.Family
import Cellular.Text.Split

namespace Cellular

/-- The family of transitions that a rule belongs to. -/
inductive RuleSpace where
  | outerTotalistic
  | bsfkl
  | extendedGenerations
  | regeneratingGenerations
  | custom
deriving DecidableEq

namespace RuleSpace

/-- The name of a rule space. -/
def name : RuleSpace → String
  | outerTotalistic => "Outer Totalistic"
  | bsfkl => "BSFKL"
  | extendedGenerations => "Extended Generations"
  | regeneratingGenerations => "Regenerating Generations"
  | custom => "Custom"

/-- The names that are read, in plain form. -/
def names : List (String × RuleSpace) :=
  [("outertotalistic", outerTotalistic), ("bsfkl", bsfkl),
   ("extendedgenerations", extendedGenerations), ("generations", extendedGenerations),
   ("regeneratinggenerations", regeneratingGenerations),
   ("regenerating", regeneratingGenerations)]

/-- The rule space of a name. -/
def ofName? (cs : List Char) : Option RuleSpace := names.lookup (String.ofList (Text.plainName cs))

end RuleSpace

/-- What a condition on the neighbours looks at. -/
inductive ConditionKind where
  | weighted
  | raw
  | isotropic (family : Family)
deriving DecidableEq

namespace ConditionKind

/-- The name of a kind of conditions. -/
def name : ConditionKind → String
  | weighted => "Outer Totalistic"
  | raw => "Raw"
  | isotropic .moore => "Isotropic Non-Totalistic"
  | isotropic .cross => "Range 2 Cross"
  | isotropic .farCorners => "Range 2 Far Corners"
  | isotropic .knight => "Range 2 Knight"
  | isotropic .vonNeumann => "Range 2 Von Neumann"

/-- The names that are read, in plain form. -/
def names : List (String × ConditionKind) :=
  [("outertotalistic", weighted), ("weighted", weighted), ("raw", raw), ("totalistic", raw),
   ("isotropicnontotalistic", isotropic .moore), ("hensel", isotropic .moore),
   ("range2cross", isotropic .cross), ("range2farcorners", isotropic .farCorners),
   ("range2knight", isotropic .knight), ("range2vonneumann", isotropic .vonNeumann)]

/-- The kind of conditions of a name. -/
def ofName? (cs : List Char) : Option ConditionKind :=
  names.lookup (String.ofList (Text.plainName cs))

end ConditionKind

end Cellular
