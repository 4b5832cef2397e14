/-
A reusable set of cells.

The set is an open-addressed table with linear probing.  A slot counts as taken only
if it carries the stamp of the current epoch, so forgetting every member costs one
increment instead of a sweep over the table.  Members are also kept in the order of
their first insertion, which is the order in which a step visits them.

The table is grown before it is three quarters full, so every probe ends at a free
slot at the latest; `probe?` gives up after a full round, which therefore never
happens.
-/
import Cellular.CoordHash

namespace Cellular

/-- One place of the table. -/
structure Slot where
  coord : Coord
  stamp : UInt32
deriving DecidableEq, Inhabited

/-- The slot that no epoch has used; the stamp 0 is never current. -/
def Slot.unused : Slot := ⟨⟨0, 0⟩, 0⟩

/-- A set of cells that remembers the order of insertion. -/
structure CoordSet where
  slots : Array Slot
  members : Array Coord
  stamp : UInt32

namespace CoordSet

/-- The table size for a number of members: a power of two, at least sixteen. -/
def slotsFor (keys : Nat) : Nat := max 16 ((keys * 4 + 2) / 3).nextPowerOfTwo

/-- The empty set with room for `keys` members. -/
def withCapacity (keys : Nat) : CoordSet := ⟨.replicate (slotsFor keys) .unused, #[], 1⟩

/-- The empty set. -/
def empty : CoordSet := withCapacity 256

/-- The number of members. -/
def size (s : CoordSet) : Nat := s.members.size

/-- The members in the order of their first insertion. -/
def toList (s : CoordSet) : List Coord := s.members.toList

/-- The slot where the probe for `c` starts. -/
def home (slots : Array Slot) (c : Coord) : Nat :=
  (CoordHash.ofCoord c % UInt64.ofNat slots.size).toNat

/-- Walks the table from `pos` on, for `rounds` slots at most, up to the slot that
holds `c` in this epoch or the first free one. -/
def probeFrom (slots : Array Slot) (stamp : UInt32) (c : Coord) : Nat → Nat → Option Nat
  | 0, _ => none
  | rounds + 1, pos =>
    let slot := slots.getD pos .unused
    if slot.stamp ≠ stamp ∨ slot.coord = c then some pos
    else probeFrom slots stamp c rounds ((pos + 1) % slots.size)

/-- The slot that holds `c`, or else the first free slot on its way. -/
def probe? (s : CoordSet) (c : Coord) : Option Nat :=
  probeFrom s.slots s.stamp c s.slots.size (home s.slots c)

/-- Does the slot hold a member? -/
def taken (s : CoordSet) (pos : Nat) : Bool := (s.slots.getD pos .unused).stamp = s.stamp

/-- Is `c` a member? -/
def contains (s : CoordSet) (c : Coord) : Bool :=
  match s.probe? c with
  | some pos => s.taken pos
  | none => false

/-- Puts a member into its slot of a table. -/
def place (stamp : UInt32) (slots : Array Slot) (c : Coord) : Array Slot :=
  match probeFrom slots stamp c slots.size (home slots c) with
  | some pos => slots.setIfInBounds pos ⟨c, stamp⟩
  | none => slots

/-- Moves the members to a table of the given size. -/
def resize (s : CoordSet) (size : Nat) : CoordSet :=
  { s with slots := s.members.foldl (place s.stamp) (.replicate size .unused) }

/-- Makes the table large enough for a number of members. -/
def reserve (s : CoordSet) (keys : Nat) : CoordSet :=
  if s.slots.size < slotsFor keys then s.resize (slotsFor keys) else s

/-- Is the table three quarters full? -/
def isCrowded (s : CoordSet) : Bool := s.slots.size * 3 ≤ s.members.size * 4

/-- Inserts `c` and tells whether it was new. -/
def tryInsert (s : CoordSet) (c : Coord) : Bool × CoordSet :=
  let s := if s.isCrowded then s.resize (s.slots.size * 2) else s
  match s.probe? c with
  | none => (false, s)
  | some pos =>
    if s.taken pos then (false, s)
    else (true, { s with
      slots := s.slots.setIfInBounds pos ⟨c, s.stamp⟩
      members := s.members.push c })

/-- Inserts `c`. -/
def insert (s : CoordSet) (c : Coord) : CoordSet := (s.tryInsert c).2

/-- Inserts a list of cells, first to last. -/
def insertAll (s : CoordSet) (cs : List Coord) : CoordSet := cs.foldl insert s

/-- Forgets every member; when the stamps run out the table is swept once. -/
def clear (s : CoordSet) : CoordSet :=
  let stamp := s.stamp + 1
  if stamp = 0 then ⟨s.slots.map fun slot => { slot with stamp := 0 }, #[], 1⟩
  else { s with members := #[], stamp := stamp }

end CoordSet

end Cellular
