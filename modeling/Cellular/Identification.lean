/-
What a pattern is: still life, oscillator, spaceship, gun or replicator.

A pattern is stepped and compared after every generation with the grid it started
from.  The first generation that matches gives the period, and three things count as
a match: the same cells somewhere (`translation?`), two disjoint copies of them moved
by opposite displacements (`twoCopies?`), and the same cells in place inside the
original box with more cells elsewhere (`emits`).  They are tried in this order.
-/
import Cellular.Evolution.Simulation

namespace Cellular

/-- What to look for. -/
inductive PatternKind where
  | any
  | periodic
  | gun
  | replicator
deriving DecidableEq

/-- A text that names no kind of pattern. -/
structure PatternKindError where
  text : String
deriving DecidableEq

/-- The wording of the error. -/
def PatternKindError.message (e : PatternKindError) : String := s!"unknown pattern kind `{e.text}`"

/-- Reads a kind of pattern; case and blanks around the name do not matter. -/
def PatternKind.ofName (text : String) : Except PatternKindError PatternKind :=
  match String.ofList (Text.lower (Text.trim text.toList)) with
  | "any" => .ok .any
  | "osc" | "oscillator" | "spaceship" | "still-life" | "stilllife" => .ok .periodic
  | "gun" => .ok .gun
  | "replicator" => .ok .replicator
  | other => .error ⟨other⟩

/-- The direction of a displacement. -/
inductive Orientation where
  | orthogonal
  | diagonal
  | oblique
deriving DecidableEq

/-- The direction of a displacement that is not zero. -/
def Orientation.classify? (o : Offset) : Option Orientation :=
  let (x, y) := (o.dx.natAbs, o.dy.natAbs)
  if x = 0 ∧ y = 0 then none
  else if x = 0 ∨ y = 0 then some .orthogonal
  else if x = y then some .diagonal
  else some .oblique

/-- A displacement in one period, and its direction. -/
structure Speed where
  dx : Int
  dy : Int
  period : Nat
  orientation : Orientation
deriving DecidableEq

/-- The name of something that moves. -/
def Speed.describe (v : Speed) (noun : String) : String :=
  match v.orientation with
  | .orthogonal => s!"Orthogonal {max v.dx v.dy}c/{v.period} {noun}"
  | .diagonal => s!"Diagonal {v.dx}c/{v.period} {noun}"
  | .oblique => s!"Oblique ({v.dx}, {v.dy})c/{v.period} {noun}"

/-- What a pattern turned out to be. -/
inductive Verdict where
  | stillLife
  | oscillator (period : Nat)
  | spaceship (speed : Speed)
  | gun (period : Nat)
  | replicator (speed : Speed)
  /-- The pattern died out, or no generation up to the last one tried matched. -/
  | failed
  | cancelled
deriving DecidableEq

/-- The verdict in words. -/
def Verdict.text : Verdict → String
  | stillLife => "Still Life"
  | oscillator period => s!"Period {period} Oscillator"
  | spaceship speed => speed.describe "Spaceship"
  | gun period => s!"Period {period} Gun"
  | replicator speed => speed.describe "Replicator"
  | failed => "Identification failed: the period exceeds 5000 or the pattern is not periodic"
  | cancelled => "Operation Cancelled!"

/-- The grid that a pattern starts from. -/
structure Reference where
  grid : Grid
  cells : List (Coord × State)
  bounds : Bounds

namespace Reference

/-- A grid with at least one cell, ready to be compared with. -/
def ofGrid? (g : Grid) : Option Reference := g.tightBounds.map fun bounds => ⟨g, g.toList, bounds⟩

/-- Are the cells of `now` those of `cells` moved by `-o`, state for state? -/
def movedBy (o : Offset) (cells now : List (Coord × State)) : Bool :=
  (cells.zip now).all fun ((a, s), (b, t)) => a - b = o && s = t

/-- The displacement by which the grid must move to become the reference. -/
def translation? (r : Reference) (g : Grid) : Option Offset :=
  if g.size ≠ r.cells.length then none
  else
    let now := g.toList
    match r.cells, now with
    | (a, _) :: _, (b, _) :: _ => if movedBy (a - b) r.cells now then some (a - b) else none
    | _, _ => none

/-- A displacement such that every cell of the grid comes from a cell of the
reference moved by it or by its opposite. -/
def twoCopies? (r : Reference) (g : Grid) : Option Offset :=
  if g.size ≠ 2 * r.cells.length then none
  else
    let now := g.toList
    match r.cells, now with
    | (a, _) :: _, (b, _) :: _ =>
      let o := a - b
      let copied := now.all fun (c, s) => r.grid.get (c + o) = s || r.grid.get (c + -o) = s
      if o ≠ .zero && copied then some o else none
    | _, _ => none

/-- Is the reference found in place inside its box, with more cells elsewhere? -/
def emits (r : Reference) (g : Grid) : Bool :=
  r.cells.length < g.size && (g.restrict r.bounds).toList = r.cells

/-- The speed of something that is displaced by `o` in one period, if it moves. -/
def speed? (o : Offset) (period : Nat) : Option Speed :=
  (Orientation.classify? o).map fun orientation =>
    { dx := o.dx.natAbs, dy := o.dy.natAbs, period, orientation }

/-- The verdict when the grid is the reference moved by `-o`. -/
def periodicVerdict (o : Offset) (period : Nat) : Verdict :=
  match speed? o period with
  | some speed => .spaceship speed
  | none => if period = 1 then .stillLife else .oscillator period

/-- The verdict on a grid that the reference turned into, if they match. -/
def verdict? (r : Reference) (kind : PatternKind) (g : Grid) (period : Nat) : Option Verdict :=
  let wants (k : PatternKind) : Bool := kind = .any || kind = k
  let periodic := if wants .periodic then (r.translation? g).map (periodicVerdict · period) else none
  let replicator :=
    if wants .replicator then ((r.twoCopies? g).bind (speed? · period)).map .replicator else none
  let gun := if wants .gun && r.emits g then some (.gun period) else none
  periodic.or (replicator.or gun)

/-! ### Within words -/

/-- The calculations of `movedBy`, up to the first cells that differ. -/
def movedByArithmetic (o : Offset) : List (Coord × State) → List (Coord × State) → List Calculation
  | (a, s) :: cells, (b, t) :: now =>
    a.subArithmetic b ++ if a - b = o ∧ s = t then movedByArithmetic o cells now else []
  | _, _ => []

/-- The calculations of `translation?`. -/
def translationArithmetic (r : Reference) (g : Grid) : List Calculation :=
  if g.size ≠ r.cells.length then []
  else
    let now := g.toList
    match r.cells, now with
    | (a, _) :: _, (b, _) :: _ => a.subArithmetic b ++ movedByArithmetic (a - b) r.cells now
    | _, _ => []

/-- The displacement of `translation?`, found within words. -/
def translationInWords? (r : Reference) (g : Grid) : Except Calculation (Option Offset) := do
  perform (r.translationArithmetic g)
  return r.translation? g

/-- The calculations of looking for cells in a grid, each moved by `o` or else moved back, up to
the first that is found in neither place. -/
def copiedArithmetic (g : Grid) (o : Offset) : List (Coord × State) → List Calculation
  | [] => []
  | (c, s) :: now =>
    c.addArithmetic o ++
      if g.get (c + o) = s then copiedArithmetic g o now
      else [.sub c.row o.dy, .sub c.col o.dx] ++
        if g.get (c + -o) = s then copiedArithmetic g o now else []

/-- The calculations of `twoCopies?`. -/
def twoCopiesArithmetic (r : Reference) (g : Grid) : List Calculation :=
  if g.size ≠ 2 * r.cells.length then []
  else
    let now := g.toList
    match r.cells, now with
    | (a, _) :: _, (b, _) :: _ =>
      let o := a - b
      a.subArithmetic b ++ if o = .zero then [] else copiedArithmetic r.grid o now
    | _, _ => []

/-- The displacement of `twoCopies?`, found within words. -/
def twoCopiesInWords? (r : Reference) (g : Grid) : Except Calculation (Option Offset) := do
  perform (r.twoCopiesArithmetic g)
  return r.twoCopies? g

/-- The calculations of `verdict?`: a pattern that is found somewhere else is not looked for in two
copies. -/
def verdictArithmetic (r : Reference) (kind : PatternKind) (g : Grid) : List Calculation :=
  let wants (k : PatternKind) : Bool := kind = .any || kind = k
  let speed (o? : Option Offset) : List Calculation := (o?.map Offset.absArithmetic).getD []
  let moved := if wants .periodic then r.translation? g else none
  (if wants .periodic then r.translationArithmetic g ++ speed moved else []) ++
    if wants .replicator && moved.isNone then r.twoCopiesArithmetic g ++ speed (r.twoCopies? g)
    else []

/-- The verdict of `verdict?`, reached within words. -/
def verdictInWords? (r : Reference) (kind : PatternKind) (g : Grid) (period : Nat) :
    Except Calculation (Option Verdict) := do
  perform (r.verdictArithmetic kind g)
  return r.verdict? kind g period

end Reference

/-- The last generation that is compared. -/
def maxPeriod : Nat := 5000

/-- Steps on from generation `period - 1`, for `left` generations at most, until one
matches. -/
def Reference.search (r : Reference) (kind : PatternKind) (cancelled : Nat → Bool) :
    (left period : Nat) → Simulation → Verdict
  | 0, _, _ => .failed
  | left + 1, period, s =>
    if cancelled period then .cancelled
    else
      let s := s.step
      if s.grid.isEmpty then .failed
      else match r.verdict? kind s.grid period with
        | some verdict => verdict
        | none => r.search kind cancelled left (period + 1) s

/-- Says what a pattern is; `cancelled` is asked before each generation whether to give
up. -/
def identify (rule : Rule) (surface : Surface) (kind : PatternKind) (generation : Nat)
    (cancelled : Nat → Bool) (grid : Grid) : Verdict :=
  match Reference.ofGrid? grid with
  | none => .failed
  | some r => r.search kind cancelled maxPeriod 1 (.start rule surface grid generation)

/-- Searches as `search` does, within words. -/
def Reference.searchInWords (r : Reference) (kind : PatternKind) (cancelled : Nat → Bool) :
    (left period : Nat) → Simulation → Except Calculation Verdict
  | 0, _, _ => .ok .failed
  | left + 1, period, s =>
    if cancelled period then .ok .cancelled
    else do
      let s ← s.stepInWords
      if s.grid.isEmpty then return .failed
      else match ← r.verdictInWords? kind s.grid period with
        | some verdict => return verdict
        | none => r.searchInWords kind cancelled left (period + 1) s

/-- Says what a pattern is, within words. -/
def identifyInWords (rule : Rule) (surface : Surface) (kind : PatternKind) (generation : Nat)
    (cancelled : Nat → Bool) (grid : Grid) : Except Calculation Verdict :=
  match Reference.ofGrid? grid with
  | none => .ok .failed
  | some r => r.searchInWords kind cancelled maxPeriod 1 (.start rule surface grid generation)

end Cellular
