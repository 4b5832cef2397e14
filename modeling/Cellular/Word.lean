/-
Numbers in machine words.

Positions, sizes and displacements are unbounded integers here.  The program keeps each of them
in a signed word of 64 bits and the number of a generation in an unsigned one, and it gives up at
the first result that does not fit.  So a function that calculates with them has a companion that
lists its calculations in the order in which they are made, and the program performs these before
it takes the value of the function: what is called `f` here has its calculations in
`fArithmetic`, and `fInWords` answers what the program answers.
-/
namespace Cellular

/-- The number is a signed 64-bit number. -/
def InWord (n : Int) : Prop := -0x8000000000000000 ≤ n ∧ n < 0x8000000000000000

instance (n : Int) : Decidable (InWord n) := inferInstanceAs (Decidable (_ ∧ _))

/-- A calculation whose result is kept in a word. -/
inductive Calculation where
  | add (a b : Int)
  | sub (a b : Int)
  | mul (a b : Int)
  | neg (a : Int)
  /-- Counting on from `n`, in an unsigned word. -/
  | next (n : Nat)
deriving DecidableEq

namespace Calculation

/-- Does the result fit into its word? -/
def Fits : Calculation → Prop
  | add a b => InWord (a + b)
  | sub a b => InWord (a - b)
  | mul a b => InWord (a * b)
  | neg a => InWord (-a)
  | next n => n + 1 < 0x10000000000000000

instance : (c : Calculation) → Decidable c.Fits
  | add .. | sub .. | mul .. | neg _ => inferInstanceAs (Decidable (InWord _))
  | next _ => inferInstanceAs (Decidable (_ < _))

/-- What the program says when the result does not fit. -/
def message : Calculation → String
  | add .. | next _ => "attempt to add with overflow"
  | sub .. => "attempt to subtract with overflow"
  | mul .. => "attempt to multiply with overflow"
  | neg _ => "attempt to negate with overflow"

/-- The calculation of the size of a number. -/
def abs (n : Int) : List Calculation := if n < 0 then [neg n] else []

end Calculation

/-- Do the results of all calculations fit? -/
def AllFit (cs : List Calculation) : Prop := ∀ c ∈ cs, c.Fits

instance (cs : List Calculation) : Decidable (AllFit cs) :=
  inferInstanceAs (Decidable (∀ c ∈ cs, _))

/-- Performs calculations one after the other, up to the first that does not fit. -/
def perform : List Calculation → Except Calculation Unit
  | [] => .ok ()
  | c :: cs => if c.Fits then perform cs else .error c

end Cellular
