/-
The canonical rotation of a cycle.

A cycle observed from any of its phases gives a rotation of the same sequence.  The
smallest rotation in lexicographic order does not depend on the phase, so it can stand
for the cycle.
-/
namespace Cellular.Cycle

/-- The sequence that starts at the `i`-th element and goes on at the front. -/
def rotation {α : Type} (xs : List α) (i : Nat) : List α := xs.drop i ++ xs.take i

/-- The smaller of two sequences; the first if neither is smaller. -/
def smaller {α : Type} [DecidableEq α] [LT α] [DecidableLT α] (a b : List α) : List α :=
  if b < a then b else a

/-- The smallest rotation of a sequence. -/
def canonical {α : Type} [DecidableEq α] [LT α] [DecidableLT α] (xs : List α) : List α :=
  (List.range xs.length).foldl (fun best i => smaller best (rotation xs i)) xs

end Cellular.Cycle
