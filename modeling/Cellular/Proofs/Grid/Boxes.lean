/-
The boxes of a grid.

The loose box follows the writes: it grows around every cell that is written and never shrinks by
itself.  What keeps it from being too small is that there is a box whenever there is a cell, and
that it holds every cell (`Boxed`): a write makes the box grow around the new cell, taking a cell
away leaves the box as it is, and every other grid is written afresh or gets the smallest box.
The smallest box is the least of those that hold every cell, so that no loose box is smaller.

Grids are kept under numbers here, so that a grid and the copies that were made of it go on
independently; beside them runs what they are meant to show, as plain functions.
-/
import Mathlib.Order.Bounds.Basic
import Mathlib.Logic.Function.Basic
import Cellular.Proofs.Grid

namespace Cellular

/-! ### Boxes inside boxes -/

namespace Bounds

variable {b d : Bounds} {c : Coord} {cs : List Coord}

/-- A box is below another one if that reaches as far on every side. -/
instance : LE Bounds :=
  ⟨fun b d => (d.left ≤ b.left ∧ b.right ≤ d.right) ∧ d.top ≤ b.top ∧ b.bottom ≤ d.bottom⟩

theorem le_iff : b ≤ d ↔
    (d.left ≤ b.left ∧ b.right ≤ d.right) ∧ d.top ≤ b.top ∧ b.bottom ≤ d.bottom := Iff.rfl

instance : PartialOrder Bounds where
  le_refl b := by rw [le_iff]; omega
  le_trans a b d hab hbd := by rw [le_iff] at *; omega
  le_antisymm a b hab hba := by
    cases a
    cases b
    simp only [le_iff] at hab hba
    simp only [Bounds.mk.injEq]
    omega

theorem contains_mono (h : b ≤ d) (hc : b.contains c = true) : d.contains c = true := by
  rw [le_iff] at h
  rw [contains_iff] at hc ⊢
  omega

theorem contains_around (c : Coord) : (around c).contains c = true := by
  simp [contains_iff, around]

theorem le_grow (b : Bounds) (c : Coord) : b ≤ b.grow c := by
  simp only [le_iff, grow]
  omega

theorem contains_grow (b : Bounds) (c : Coord) : (b.grow c).contains c = true := by
  simp only [contains_iff, grow]
  omega

/-- A box whose sides all touch cells is below every box that holds these cells. -/
theorem Touches.le (h : b.Touches cs) (hd : ∀ c ∈ cs, d.contains c = true) : b ≤ d := by
  obtain ⟨⟨l, hl, hl'⟩, ⟨r, hr, hr'⟩, ⟨t, ht, ht'⟩, ⟨u, hu, hu'⟩⟩ := h
  have hleft := contains_iff.mp (hd l hl)
  have hright := contains_iff.mp (hd r hr)
  have htop := contains_iff.mp (hd t ht)
  have hbottom := contains_iff.mp (hd u hu)
  rw [le_iff]
  omega

end Bounds

namespace Grid

variable {g : Grid}

/-! ### The smallest box -/

theorem isEmpty_iff : g.isEmpty = true ↔ ∀ c, g.get c = 0 := by
  have hcoords : g.coords = [] ↔ ∀ c, g.get c = 0 := by
    simp only [List.eq_nil_iff_forall_not_mem, mem_coords, not_not]
  rw [← hcoords, ← List.length_eq_zero_iff, length_coords]
  unfold isEmpty size
  rw [Std.ExtTreeMap.isEmpty_eq_size_beq_zero, beq_iff_eq]

/-- **The smallest box is the least of the boxes that hold every live cell.** -/
theorem tightBounds_eq_some_iff {t : Bounds} :
    g.tightBounds = some t ↔
      IsLeast {b : Bounds | ∀ c, g.get c ≠ 0 → b.contains c = true} t := by
  have hleast : ∀ {t : Bounds}, g.tightBounds = some t →
      IsLeast {b : Bounds | ∀ c, g.get c ≠ 0 → b.contains c = true} t := by
    intro t ht
    exact ⟨fun c hc => contains_of_tightBounds ht hc,
      fun d hd => (Bounds.touches_of_enclosing ht).le fun c hc => hd c (mem_coords.mp hc)⟩
  refine ⟨hleast, fun ht => ?_⟩
  cases htight : g.tightBounds with
  | some t' => rw [(hleast htight).unique ht]
  | none =>
      -- Without live cells every box would hold them all, and there is no least box.
      have hall : ∀ b : Bounds, t ≤ b := fun b =>
        ht.2 fun c hc => absurd (get_of_tightBounds_none htight c) hc
      have hshifted : t.left + 1 ≤ t.left := (hall ⟨t.left + 1, t.right, t.top, t.bottom⟩).1.1
      omega

theorem tightBounds_eq_none_iff : g.tightBounds = none ↔ ∀ c, g.get c = 0 := by
  refine ⟨get_of_tightBounds_none, fun h => ?_⟩
  refine Option.eq_none_iff_forall_ne_some.mpr fun t ht => ?_
  obtain ⟨⟨c, hc, -⟩, -⟩ := Bounds.touches_of_enclosing ht
  exact mem_coords.mp hc (h c)

/-! ### The loose box -/

/-- The loose box holds every live cell. -/
def Boxed (g : Grid) : Prop := ∀ c, g.get c ≠ 0 → ∃ b, g.box = some b ∧ b.contains c = true

theorem boxed_empty : empty.Boxed := fun c hc => absurd (get_empty c) hc

theorem box_erase (g : Grid) (c : Coord) : (g.set c 0).box = g.box := rfl

theorem box_write (g : Grid) (c : Coord) {s : State} (hs : s ≠ 0) :
    (g.set c s).box = some (g.box.elim (.around c) (·.grow c)) := by
  unfold set
  rw [dif_neg hs]
  cases g.box <;> rfl

theorem Boxed.set (h : g.Boxed) (c : Coord) (s : State) : (g.set c s).Boxed := by
  intro d hd
  rw [get_set] at hd
  by_cases hs : s = 0
  · rw [hs, box_erase]
    refine h d fun h0 => hd ?_
    rw [h0, hs, ite_self]
  · rw [box_write g c hs]
    refine ⟨_, rfl, ?_⟩
    by_cases hdc : d = c
    · rw [hdc]
      cases g.box with
      | none => exact Bounds.contains_around c
      | some b => exact Bounds.contains_grow b c
    · rw [if_neg hdc] at hd
      obtain ⟨b, hb, hin⟩ := h d hd
      rw [hb]
      exact Bounds.contains_mono (Bounds.le_grow b c) hin

theorem Boxed.extend (cs : List (Coord × State)) : ∀ {g : Grid}, g.Boxed → (g.extend cs).Boxed := by
  induction cs with
  | nil => exact fun h => h
  | cons p rest ih => exact fun h => ih (h.set p.1 p.2)

theorem boxed_ofList (cs : List (Coord × State)) : (ofList cs).Boxed := boxed_empty.extend cs

theorem boxed_refreshBounds (g : Grid) : g.refreshBounds.Boxed := by
  intro c hc
  cases htight : g.tightBounds with
  | none => exact absurd (get_of_tightBounds_none htight c) hc
  | some t => exact ⟨t, htight, contains_of_tightBounds htight hc⟩

/-- A loose box holds every live cell, and the smallest box is not larger. -/
theorem Boxed.of_bounds (h : g.Boxed) {b : Bounds} (hb : g.bounds = some b) :
    (∀ c, g.get c ≠ 0 → b.contains c = true) ∧ ∃ t, g.tightBounds = some t ∧ t ≤ b := by
  unfold bounds at hb
  split at hb
  · simp at hb
  · rename_i hempty
    have hholds : ∀ c, g.get c ≠ 0 → b.contains c = true := by
      intro c hc
      obtain ⟨b', hb', hin⟩ := h c hc
      obtain rfl := Option.some.inj (hb.symm.trans hb')
      exact hin
    obtain ⟨t, ht⟩ := exists_tightBounds (Bool.eq_false_iff.mpr hempty)
    exact ⟨hholds, t, ht, (tightBounds_eq_some_iff.mp ht).2 hholds⟩

theorem Boxed.bounds_eq_none_iff (h : g.Boxed) : g.bounds = none ↔ ∀ c, g.get c = 0 := by
  rw [← isEmpty_iff]
  unfold bounds
  refine ⟨fun hnone => ?_, fun hempty => if_pos hempty⟩
  by_contra hempty
  rw [if_neg hempty] at hnone
  obtain ⟨c, hc⟩ := not_forall.mp (mt isEmpty_iff.mpr hempty)
  obtain ⟨b, hb, -⟩ := h c hc
  rw [hb] at hnone
  cases hnone

theorem bounds_refreshBounds (g : Grid) : g.refreshBounds.bounds = g.tightBounds := by
  show (if g.isEmpty = true then none else g.tightBounds) = g.tightBounds
  split
  · rename_i hempty
    exact (tightBounds_eq_none_iff.mpr (isEmpty_iff.mp hempty)).symm
  · rfl

/-! ### Grids at work -/

/-- What can be done with a grid. -/
inductive Operation where
  | set (c : Coord) (s : State)
  | extend (cs : List (Coord × State))
  | clear
  | refresh
  | restrict (b : Bounds)
  | translate (o : Offset)
  | clone

/-- The grid that an operation makes of a grid. -/
def Operation.grid : Operation → Grid → Grid
  | .set c s, g => g.set c s
  | .extend cs, g => g.extend cs
  | .clear, _ => empty
  | .refresh, g => g.refreshBounds
  | .restrict b, g => g.restrict b
  | .translate o, g => g.translate o
  | .clone, g => g

/-- What the grid is meant to show: of several states for one cell the last one counts. -/
def Operation.states : Operation → (Coord → State) → Coord → State
  | .set c s, f => Function.update f c s
  | .extend cs, f => cs.foldl (fun f p => Function.update f p.1 p.2) f
  | .clear, _ => fun _ => 0
  | .refresh, f => f
  | .restrict b, f => fun c => if b.contains c then f c else 0
  | .translate o, f => fun c => f (c + -o)
  | .clone, f => f

/-- An operation on the grid with the number `source`.  Its result gets the number `target`, which
is the same number for an operation in place. -/
structure Action where
  source : Nat
  target : Nat
  operation : Operation

/-- The grids after an action. -/
def Action.run (grids : Nat → Grid) (a : Action) : Nat → Grid :=
  Function.update grids a.target (a.operation.grid (grids a.source))

/-- What they are meant to show. -/
def Action.draw (meant : Nat → Coord → State) (a : Action) : Nat → Coord → State :=
  Function.update meant a.target (a.operation.states (meant a.source))

/-- The grid shows these states, and its loose box holds them. -/
structure Shows (g : Grid) (f : Coord → State) : Prop where
  get_eq : ∀ c, g.get c = f c
  boxed : g.Boxed

variable {f : Coord → State}

theorem get_set_eq (hget : ∀ c, g.get c = f c) (c : Coord) (s : State) (d : Coord) :
    (g.set c s).get d = Function.update f c s d := by
  rw [get_set, Function.update_apply, hget]

theorem get_extend_eq (cs : List (Coord × State)) :
    ∀ {g : Grid} {f : Coord → State}, (∀ c, g.get c = f c) →
      ∀ d, (g.extend cs).get d = cs.foldl (fun f p => Function.update f p.1 p.2) f d := by
  induction cs with
  | nil => exact fun hget => hget
  | cons p rest ih => exact fun hget => ih (get_set_eq hget p.1 p.2)

/-- One operation. -/
theorem Shows.operation (h : g.Shows f) (o : Operation) : (o.grid g).Shows (o.states f) := by
  obtain ⟨hget, hboxed⟩ := h
  cases o with
  | set c s => exact ⟨get_set_eq hget c s, hboxed.set c s⟩
  | extend cs => exact ⟨get_extend_eq cs hget, hboxed.extend cs⟩
  | clear => exact ⟨get_empty, boxed_empty⟩
  | refresh => exact ⟨hget, boxed_refreshBounds g⟩
  | restrict b =>
      refine ⟨fun c => ?_, boxed_ofList _⟩
      show (g.restrict b).get c = if b.contains c then f c else 0
      rw [get_restrict, hget]
  | translate o =>
      refine ⟨fun c => ?_, boxed_ofList _⟩
      show (g.translate o).get c = f (c + -o)
      rw [get_translate_eq, hget]
  | clone => exact ⟨hget, hboxed⟩

/-- Any number of them. -/
theorem shows_run (actions : List Action) :
    ∀ {grids : Nat → Grid} {meant : Nat → Coord → State}, (∀ i, (grids i).Shows (meant i)) →
      ∀ i, (actions.foldl Action.run grids i).Shows (actions.foldl Action.draw meant i) := by
  induction actions with
  | nil => exact fun h => h
  | cons a rest ih =>
      intro grids meant h
      refine ih fun i => ?_
      unfold Action.run Action.draw
      by_cases hi : i = a.target
      · rw [hi, Function.update_self, Function.update_self]
        exact (h a.source).operation a.operation
      · rw [Function.update_of_ne hi, Function.update_of_ne hi]
        exact h i

/--
**The boxes of a grid hold all its cells, whatever was done to it.**  Let any operations be done
to grids that are empty at first, in place or with the result kept under another number.  Then
every grid lists exactly the cells where it is meant to show another state than the background,
and with these states.  It has no loose box exactly if it is meant to show nothing but
background; if it has one, that holds every live cell and reaches at least as far as the smallest
box on every side.  The smallest box is the least of all boxes that hold every live cell, and
there is one if there are such cells.  Refreshing makes the loose box the smallest one and changes
neither that box nor any cell.
-/
theorem boxes_enclose (actions : List Action) (i : Nat) :
    let g := actions.foldl Action.run (fun _ => empty) i
    let f := actions.foldl Action.draw (fun _ _ => 0) i
    let holders := {b : Bounds | ∀ c, f c ≠ 0 → b.contains c = true}
    (∀ c s, (c, s) ∈ g.toList ↔ f c = s ∧ s ≠ 0) ∧
      (g.bounds = none ↔ ∀ c, f c = 0) ∧
      (∀ b, g.bounds = some b → b ∈ holders ∧ ∃ t, g.tightBounds = some t ∧ t ≤ b) ∧
      (g.tightBounds = none ↔ ∀ c, f c = 0) ∧
      (∀ t, g.tightBounds = some t ↔ IsLeast holders t) ∧
      g.refreshBounds.bounds = g.tightBounds ∧ g.refreshBounds.tightBounds = g.tightBounds ∧
      g.refreshBounds.toList = g.toList := by
  intro g f holders
  obtain ⟨hget, hboxed⟩ : g.Shows f := shows_run actions (fun _ => ⟨get_empty, boxed_empty⟩) i
  have hf : f = g.get := (funext hget).symm
  simp only [holders, hf]
  exact ⟨fun c s => mem_toList, hboxed.bounds_eq_none_iff, fun b hb => hboxed.of_bounds hb,
    tightBounds_eq_none_iff, fun t => tightBounds_eq_some_iff, bounds_refreshBounds g, rfl, rfl⟩

/-- A cell is written and taken away again after a copy was made: the loose boxes of the grid and
of its copy stay alike, their smallest boxes do not. -/
theorem boxes_enclose_after_removal :
    let actions : List Action := [⟨0, 0, .set ⟨1, 2⟩ 1⟩, ⟨0, 0, .set ⟨-3, 7⟩ 2⟩, ⟨0, 1, .clone⟩,
      ⟨0, 0, .set ⟨-3, 7⟩ 0⟩]
    let grids := actions.foldl Action.run fun _ => empty
    let meant := actions.foldl Action.draw fun _ _ => 0
    (grids 0).bounds = some ⟨2, 7, -3, 1⟩ ∧ (grids 1).bounds = some ⟨2, 7, -3, 1⟩ ∧
      (∃ t, (grids 0).tightBounds = some t ∧ t ≤ ⟨2, 7, -3, 1⟩) ∧
      (grids 0).tightBounds = some ⟨2, 2, 1, 1⟩ ∧
      IsLeast {b : Bounds | ∀ c, meant 0 c ≠ 0 → b.contains c = true} ⟨2, 2, 1, 1⟩ ∧
      (grids 0).refreshBounds.bounds = (grids 0).tightBounds ∧
      IsLeast {b : Bounds | ∀ c, meant 1 c ≠ 0 → b.contains c = true} ⟨2, 7, -3, 1⟩ := by
  intro actions grids meant
  obtain ⟨-, -, hloose, -, hleast, hrefresh, -, -⟩ := boxes_enclose actions 0
  obtain ⟨-, -, -, -, hleast', -, -, -⟩ := boxes_enclose actions 1
  have hbounds : (grids 0).bounds = some ⟨2, 7, -3, 1⟩ := by decide +kernel
  have hbounds' : (grids 1).bounds = some ⟨2, 7, -3, 1⟩ := by decide +kernel
  have htight : (grids 0).tightBounds = some ⟨2, 2, 1, 1⟩ := by decide +kernel
  have htight' : (grids 1).tightBounds = some ⟨2, 7, -3, 1⟩ := by decide +kernel
  exact ⟨hbounds, hbounds', (hloose _ hbounds).2, htight, (hleast _).mp htight, hrefresh,
    (hleast' _).mp htight'⟩

end Grid

end Cellular
