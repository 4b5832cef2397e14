/-
Rulestrings.

A rulestring has one field for each set of a rule.  In the letter form every field
follows its key (`b3s2,3`); in the slash form the fields are separated by slashes,
and survival comes before birth except in the BSFKL space (`2,3/3`).  A rulestring
with a slash anywhere is read in the slash form.

Fields that hold numbers are lists separated by commas.  The states that survive in
a Generations rule are given by run lengths: so many active states, so many inactive
ones and so on, from state 1.
-/
import Cellular.Rule.Transition
import Cellular.Rule.Space

namespace Cellular

/-- Why a rulestring is not accepted. -/
inductive RulestringError where
  | keyExpected (key : String) (found : String)
  | fieldCount (least most found : Nat)
  | notInteger (text : String)
  | notRunLength (text : String)
  | runTotal (covered nStates : Nat)
  | transitions (cause : TransitionError)
deriving DecidableEq

/-- The wording of the error. -/
def RulestringError.message : RulestringError → String
  | keyExpected key found => s!"expected `{key}` at `{found}`"
  | fieldCount least most found =>
    let count := if least = most then s!"{least}" else s!"{least} to {most}"
    s!"expected {count} `/`-separated fields, found {found}"
  | notInteger text => s!"`{text}` is not an integer"
  | notRunLength text => s!"`{text}` is not a run length"
  | runTotal covered nStates => s!"state runs cover {covered} states, rule has {nStates}"
  | transitions cause => cause.message

namespace Rulestring

/-! ### Fields -/

/-- The text after each key in the letter form; keys past the first `required` ones
may be left out at the end, and the last key takes all the text that is left. -/
def letterFields : (required : Nat) → (keys : List String) → (rest : List Char) →
    Except RulestringError (List (List Char))
  | _, [], _ => .ok []
  | required, key :: keys, rest =>
    if rest.isEmpty ∧ required = 0 then .ok ((key :: keys).map fun _ => [])
    else if !key.toList.isPrefixOf rest then .error (.keyExpected key (String.ofList rest))
    else do
      let body := rest.drop key.length
      let (field, rest) := match keys with
        | [] => (body, [])
        | next :: _ => (Text.beforeWord next.toList body).getD (body, [])
      return field :: (← letterFields (required - 1) keys rest)

/-- The fields of the slash form, in the order in which they are written. -/
def slashFields (least most : Nat) (cs : List Char) : Except RulestringError (List (List Char)) :=
  let parts := (Text.pieces '/' cs).map Text.trim
  if parts.length < least ∨ most < parts.length then
    .error (.fieldCount least most parts.length)
  else .ok (parts ++ List.replicate (most - parts.length) [])

/-- The fields of a rulestring in the order of its keys; `order` turns the fields of
the slash form into that order. -/
def fields (keys : List String) (required : Nat)
    (order : List (List Char) → List (List Char)) (cs : List Char) :
    Except RulestringError (List (List Char)) :=
  if cs.contains '/' then (slashFields required keys.length cs).map order
  else letterFields required keys (Text.lower cs)

/-- Puts the first two fields in the opposite order. -/
def swapFirst {α : Type} : List α → List α
  | a :: b :: r => b :: a :: r
  | r => r

/-! ### The contents of a field -/

/-- One integer of a list. -/
def integer (cs : List Char) : Except RulestringError Int :=
  match Text.signed? 64 cs with
  | some n => .ok n
  | none => .error (.notInteger (String.ofList cs))

/-- Integers separated by commas; empty places are passed over. -/
def intSet (cs : List Char) : Except RulestringError IntSet := do
  let items := ((Text.pieces ',' cs).map Text.trim).filter (!·.isEmpty)
  return .ofList (← items.mapM integer)

/-- The condition that a field describes. -/
def condition (kind : ConditionKind) (cs : List Char) : Except RulestringError Condition :=
  match kind with
  | .weighted => (intSet cs).map (.totals .weighted)
  | .raw => (intSet cs).map (.totals .raw)
  | .isotropic family => ((family.transitions cs).mapError .transitions).map .configurations

/-- The regeneration condition that a field describes; an empty field describes none. -/
def regeneration (kind : ConditionKind) (cs : List Char) :
    Except RulestringError (Option Condition) := do
  let values ← intSet cs
  let tally : Tally := if kind = .raw then .raw else .weighted
  return if values.isEmpty then none else some (.totals tally values)

/-- One run length. -/
def runLength (cs : List Char) : Except RulestringError Nat :=
  match Text.unsigned? 64 cs with
  | some n => .ok n
  | none => .error (.notRunLength (String.ofList cs))

/-- The mask of runs that are on and off in turn. -/
def mask : Bool → List Nat → List Bool
  | _, [] => []
  | on, n :: ns => List.replicate n on ++ mask (!on) ns

/-- Which states are active, from run lengths separated by dashes; state 0 never is.  The runs are
added up before any mask is made, and only a mask of the right length is: a program that makes the
mask first refuses the same texts, but needs room for it, however long the runs are. -/
def activity (nStates : Nat) (cs : List Char) : Except RulestringError (List Bool) := do
  let runs ← ((Text.pieces '-' cs).map Text.trim).mapM runLength
  let covered := runs.foldl (· + ·) 1
  if covered = nStates then return false :: mask true runs
  else throw (.runTotal covered nStates)

/-! ### Whole rulestrings -/

/-- Birth and survival of an outer totalistic rule. -/
def outerTotalistic (kind : ConditionKind) (cs : List Char) :
    Except RulestringError (Condition × Condition) := do
  let fs ← fields ["b", "s"] 2 swapFirst cs
  return (← condition kind (fs.getD 0 []), ← condition kind (fs.getD 1 []))

/-- One phase of a BSFKL rule. -/
def bsfkl (weights : List Int) (cs : List Char) : Except RulestringError BsfklPhase := do
  let fs ← fields ["b", "s", "f", "k", "l"] 5 id cs
  return {
    weights
    birth := ← intSet (fs.getD 0 [])
    survival := ← intSet (fs.getD 1 [])
    forcing := ← intSet (fs.getD 2 [])
    killing := ← intSet (fs.getD 3 [])
    living := ← intSet (fs.getD 4 []) }

/-- One phase of a Generations rule; only a regenerating rule has regeneration fields. -/
def generations (kind : ConditionKind) (nStates : Nat) (regenerating : Bool)
    (weights : PhaseWeights) (cs : List Char) : Except RulestringError AgeingPhase := do
  let keys := if regenerating then ["b", "s", "d", "rb", "rs"] else ["b", "s", "d"]
  let fs ← fields keys 3 swapFirst cs
  let regenBirth ← regeneration kind (fs.getD 3 [])
  let regenSurvival ← regeneration kind (fs.getD 4 [])
  let birth ← condition kind (fs.getD 0 [])
  let survival ← condition kind (fs.getD 1 [])
  let active ← activity nStates (fs.getD 2 [])
  return { weights, birth, survival, active, regenBirth, regenSurvival }

end Rulestring

end Cellular
