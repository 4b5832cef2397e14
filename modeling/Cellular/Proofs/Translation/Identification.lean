/-
A pattern is what it is wherever it lies.

Two simulations that run side by side, one of a pattern and one of the same pattern
displaced, show the displaced generations as long as they stay away from the coordinate that
stands for no cell (`Parallel`).  Each of the three comparisons with the first pattern comes
out the same for both: a list of cells and a box are displaced as a whole, and what is looked
for is a difference between cells.  So both searches take the same course
(`search_of_parallel`), and both patterns get the same verdict.

How far a run can come is known beforehand: no faster than the reach of the rule (`Spread`).
-/
import Cellular.Identification
import Cellular.Proofs.Run
import Cellular.Proofs.Translation.Step

namespace Cellular

/-! ### Two runs side by side -/

namespace Simulation

variable {d : Offset} {m m' : Simulation}

/-- The second simulation shows the pattern and the active cells of the first one displaced
by `d`. -/
structure Parallel (d : Offset) (m m' : Simulation) : Prop where
  rule : m'.rule = m.rule
  surface : m'.surface = m.surface
  generation : m'.generation = m.generation
  scratch : m.stepper.candidates.Valid
  scratch' : m'.stepper.candidates.Valid
  grid : Slid m.surface d m.grid m'.grid
  active : SlidSet m.surface d m.active m'.active

/-- The next step looks at no cell that is `nowhere`, or is displaced there. -/
def Apart (d : Offset) (m : Simulation) : Prop := m.rule.Apart m.surface d m.grid m.active

theorem parallel_start {r : Rule} {s : Surface} {g g' : Grid} (hs : s.Uniform)
    (h : Slid s d g g') (generation : Nat) :
    Parallel d (start r s g generation) (start r s g' generation) where
  rule := rfl
  surface := rfl
  generation := rfl
  scratch := Stepper.valid_fresh
  scratch' := Stepper.valid_fresh
  grid := h
  active := h.coords hs

/-- One step of both. -/
theorem Parallel.step (h : Parallel d m m') (hs : m.surface.Uniform) (hfar : m.Apart d) :
    Parallel d m.step m'.step := by
  obtain ⟨r', s', t', g', active', generation'⟩ := m'
  obtain ⟨rfl, rfl, rfl, ht, ht', hgrid, hactive⟩ := h
  exact {
    rule := rfl
    surface := rfl
    generation := rfl
    scratch := Stepper.valid_step ht m.generation m.grid m.active
    scratch' := Stepper.valid_step ht' m.generation g' active'
    grid := Stepper.slid_step hs hgrid hactive hfar ht ht' m.generation
    active := Stepper.slidSet_changed hs hgrid hactive hfar ht ht' m.generation }

/-- On the plane the pattern is displaced as a whole. -/
theorem Parallel.moved (h : Parallel d m m') (hplane : m.surface = .plane) (c : Coord) :
    m'.grid.get (c + d) = m.grid.get c := by
  have hc := h.grid.moved c
  rw [hplane] at hc
  exact hc rfl

end Simulation

/-! ### The same comparisons -/

namespace Reference

variable {d : Offset} {r r' : Reference} {g g' : Grid}

/-- The second reference is the first one displaced by `d`. -/
structure Moved (d : Offset) (r r' : Reference) : Prop where
  grid : ∀ c, r'.grid.get (c + d) = r.grid.get c
  cells : r'.cells = r.cells.map fun p => (p.1 + d, p.2)
  bounds : r'.bounds = r.bounds.shift d

theorem sub_add_add (a b : Coord) (d : Offset) : a + d - (b + d) = a - b := by
  ext <;> simp only [Coord.sub_dy, Coord.sub_dx, Coord.add_row, Coord.add_col] <;> omega

theorem movedBy_moved (o d : Offset) (cells : List (Coord × State)) :
    ∀ now : List (Coord × State),
      movedBy o (cells.map fun p => (p.1 + d, p.2)) (now.map fun p => (p.1 + d, p.2))
        = movedBy o cells now := by
  unfold movedBy
  induction cells with
  | nil => intro now; rfl
  | cons x rest ih =>
      intro now
      cases now with
      | nil => rfl
      | cons y others =>
          simp only [List.map_cons, List.zip_cons_cons, List.all_cons, sub_add_add]
          rw [ih others]

theorem Moved.translation? (h : Moved d r r') (hg : ∀ c, g'.get (c + d) = g.get c) :
    r'.translation? g' = r.translation? g := by
  unfold Reference.translation?
  rw [Grid.size_of_moved hg, h.cells, List.length_map, Grid.toList_of_moved hg]
  split
  · rfl
  · cases hcells : r.cells with
    | nil => rfl
    | cons x rest =>
        cases hnow : g.toList with
        | nil => rfl
        | cons y others =>
            simp only [List.map_cons, sub_add_add]
            have hmoved := movedBy_moved (x.1 - y.1) d (x :: rest) (y :: others)
            rw [List.map_cons, List.map_cons] at hmoved
            rw [hmoved]

theorem Moved.twoCopies? (h : Moved d r r') (hg : ∀ c, g'.get (c + d) = g.get c) :
    r'.twoCopies? g' = r.twoCopies? g := by
  have hread : ∀ (c : Coord) (o : Offset), r'.grid.get (c + d + o) = r.grid.get (c + o) := by
    intro c o
    rw [Coord.add_right_comm, h.grid]
  unfold Reference.twoCopies?
  rw [Grid.size_of_moved hg, h.cells, List.length_map, Grid.toList_of_moved hg]
  split
  · rfl
  · cases hcells : r.cells with
    | nil => rfl
    | cons x rest =>
        cases hnow : g.toList with
        | nil => rfl
        | cons y others =>
            simp only [List.map_cons, sub_add_add, List.all_cons, List.all_map,
              Function.comp_def, hread]
            rfl

theorem Moved.emits (h : Moved d r r') (hg : ∀ c, g'.get (c + d) = g.get c) :
    r'.emits g' = r.emits g := by
  have hinj : Function.Injective fun p : Coord × State => (p.1 + d, p.2) := by
    rintro ⟨a, s⟩ ⟨b, t⟩ hab
    obtain ⟨hcoord, rfl⟩ := Prod.mk.inj hab
    have hback : a + d + -d = b + d + -d := congrArg (· + -d) hcoord
    rw [Coord.add_neg_cancel, Coord.add_neg_cancel] at hback
    rw [hback]
  unfold Reference.emits
  rw [Grid.size_of_moved hg, h.cells, List.length_map, h.bounds,
    Grid.toList_of_moved (Grid.restrict_of_moved hg r.bounds)]
  congr 1
  rw [decide_eq_decide]
  exact (List.map_injective_iff.mpr hinj).eq_iff

/-- **The verdict on a displaced grid is the same.** -/
theorem Moved.verdict? (h : Moved d r r') (hg : ∀ c, g'.get (c + d) = g.get c)
    (kind : PatternKind) (period : Nat) :
    r'.verdict? kind g' period = r.verdict? kind g period := by
  unfold Reference.verdict?
  rw [h.translation? hg, h.twoCopies? hg, h.emits hg]

/-- **Searches side by side end the same way.** -/
theorem search_of_parallel (h : Moved d r r') (kind : PatternKind) (cancelled : Nat → Bool)
    (left : Nat) : ∀ (period : Nat) {m m' : Simulation}, m.surface = .plane → m.Parallel d m' →
      (∀ t < left, (m.stepN t).Apart d) →
      r'.search kind cancelled left period m' = r.search kind cancelled left period m := by
  induction left with
  | zero => intro period m m' _ _ _; rfl
  | succ left ih =>
      intro period m m' hplane hp hfar
      have hs : m.surface.Uniform := hplane ▸ .plane
      have hstep := hp.step hs (hfar 0 (Nat.succ_pos left))
      have hmoved := hstep.moved hplane
      have hrest := ih (period + 1) (m := m.step) hplane hstep
        fun t ht => hfar (t + 1) (Nat.succ_lt_succ ht)
      unfold search
      simp only
      rw [Grid.isEmpty_of_moved hmoved, h.verdict? hmoved, hrest]

end Reference

/-- A displaced pattern is identified as the pattern. -/
theorem identify_translate {r : Rule} {d : Offset} {g : Grid} {generation : Nat}
    (kind : PatternKind) (cancelled : Nat → Bool)
    (hfar : ∀ t < maxPeriod, ((Simulation.start r .plane g generation).stepN t).Apart d) :
    identify r .plane kind generation cancelled (g.translate d)
      = identify r .plane kind generation cancelled g := by
  have hg : ∀ c, (g.translate d).get (c + d) = g.get c := Grid.get_translate g d
  unfold identify Reference.ofGrid?
  rw [Grid.tightBounds_of_moved hg]
  cases g.tightBounds with
  | none => rfl
  | some bounds =>
      have hmoved : Reference.Moved d ⟨g, g.toList, bounds⟩
          ⟨g.translate d, (g.translate d).toList, bounds.shift d⟩ :=
        ⟨hg, Grid.toList_of_moved hg, rfl⟩
      have hstart := Simulation.parallel_start (r := r) .plane
        (slid_image .plane (fun c _ => rfl) d : Slid .plane d g (g.translate d)) generation
      exact Reference.search_of_parallel hmoved kind cancelled maxPeriod 1 rfl hstart hfar

/-! ### How far a run can come -/

namespace Simulation

variable {m : Simulation} {n : Nat} {d : Offset}

/-- The live and the active cells lie within `n` king's moves of the origin. -/
def Spread (n : Nat) (m : Simulation) : Prop :=
  ∀ c, m.grid.get c ≠ 0 ∨ c ∈ m.active → c.row.natAbs ≤ n ∧ c.col.natAbs ≤ n

/-- A cell within the reach of a seed is not far beyond the cells before. -/
theorem Spread.of_reach (h : m.Spread n) {a : Coord} (ha : a ∈ m.rule.seeds m.grid m.active)
    {o : Offset} (ho : o ∈ m.rule.reach) :
    (a + o).row.natAbs ≤ n + m.rule.margin ∧ (a + o).col.natAbs ≤ n + m.rule.margin := by
  have hseed : m.grid.get a ≠ 0 ∨ a ∈ m.active := by
    unfold Rule.seeds at ha
    split at ha
    · rcases List.mem_append.mp ha with hactive | hlive
      · exact Or.inr hactive
      · exact Or.inl (Grid.mem_coords.mp hlive)
    · exact Or.inr ha
  obtain ⟨hrow, hcol⟩ := h a hseed
  have hradius := Rule.radius_le_margin ho
  unfold Offset.radius at hradius
  rw [Coord.add_row, Coord.add_col]
  omega

/-- **Nothing moves faster than the reach of the rule.** -/
theorem Spread.step (h : m.Spread n) (hc : m.Contained) (hplane : m.surface = .plane) :
    m.step.Spread (n + m.rule.margin) := by
  have hexamined : ∀ c, m.rule.Examined m.surface m.grid m.active c →
      c.row.natAbs ≤ n + m.rule.margin ∧ c.col.natAbs ≤ n + m.rule.margin := by
    rintro c ⟨a, ha, hmem⟩
    rw [hplane] at hmem
    obtain ⟨-, o, ho, rfl⟩ := Surface.mem_affected_plane.mp hmem
    exact h.of_reach ha ho
  intro c hlive
  by_cases hex : m.rule.Examined m.surface m.grid m.active c
  · exact hexamined c hex
  · rcases hlive with hlive | hchanged
    · rw [get_step_of_not_examined hc hex] at hlive
      obtain ⟨hrow, hcol⟩ := h c (Or.inl hlive)
      exact ⟨hrow.trans (Nat.le_add_right ..), hcol.trans (Nat.le_add_right ..)⟩
    · exact absurd ((Stepper.mem_changed hc.scratch).mp hchanged).1 hex

/-- A run spreads by the reach of the rule in every generation. -/
theorem Spread.stepN (h : m.Spread n) (hc : m.Contained) (hplane : m.surface = .plane) (t : Nat) :
    (m.stepN t).Spread (n + t * m.rule.margin) := by
  induction t with
  | zero =>
      rw [Nat.zero_mul, Nat.add_zero]
      exact h
  | succ t ih =>
      have hstep := ih.step (contained_stepN hc t) (by rw [surface_stepN]; exact hplane)
      rw [rule_stepN] at hstep
      rw [stepN_succ, Nat.succ_mul, ← Nat.add_assoc]
      exact hstep

/-- What lies near the origin, and is displaced by little, is far from `nowhere`. -/
theorem Spread.apart (h : m.Spread n) (hplane : m.surface = .plane)
    (hnear : n + m.rule.margin + d.radius < 2 ^ 63 - 1) : m.Apart d := by
  intro a ha o ho
  obtain ⟨hrow, -⟩ := h.of_reach ha ho
  unfold Offset.radius at hnear
  have hlast : Surface.nowhere.row = 2 ^ 63 - 1 := rfl
  rw [hplane]
  constructor
  · intro heq
    have hsame : (a + o).row = 2 ^ 63 - 1 := (congrArg Coord.row heq).trans hlast
    omega
  · intro heq
    have hsame : (a + o).row + d.dy = 2 ^ 63 - 1 := (congrArg Coord.row heq).trans hlast
    omega

end Simulation

/--
**There is no preferred place.**  Whatever the rule: on the plane a displaced pattern with
displaced active cells makes a step to the displaced next pattern, and the cells that change
are displaced.  On a torus, of any height or none, a pattern may be displaced around the
seams with the same result.  And on the plane a displaced pattern is identified as the
pattern is, whatever is looked for and from whichever generation on.

The coordinates are unbounded, so of the limits of the machine integers only `nowhere` is
left: the steps on the plane stay away from it.
-/
theorem Rule.invariant_under_translation (r : Rule) (d : Offset) :
    (∀ (t t' : Stepper) (g : Grid) (active : ActiveSet) (generation : Nat),
      t.candidates.Valid → t'.candidates.Valid → r.Apart .plane d g active →
      (t'.step r .plane generation (g.translate d) (active.map (· + d))).2.1.sameCells
          ((t.step r .plane generation g active).2.1.translate d) = true ∧
        (t'.step r .plane generation (g.translate d) (active.map (· + d))).2.2.Perm
          ((t.step r .plane generation g active).2.2.map (· + d))) ∧
    (∀ (width height : Int) (t t' : Stepper) (g : Grid) (active : ActiveSet) (generation : Nat),
      0 < width → width < 2 ^ 63 → t.candidates.Valid → t'.candidates.Valid →
      let torus := Surface.box .torus width height
      let slide := fun c : Coord => torus.resolve (c + d)
      (∀ c, g.get c ≠ 0 → torus.contains c = true) →
      (t'.step r torus generation (g.image slide) (active.map slide)).2.1.sameCells
          ((t.step r torus generation g active).2.1.image slide) = true ∧
        (t'.step r torus generation (g.image slide) (active.map slide)).2.2.Perm
          ((t.step r torus generation g active).2.2.map slide)) ∧
    (∀ (kind : PatternKind) (generation : Nat) (cancelled : Nat → Bool) (g : Grid),
      (∀ t < maxPeriod, ((Simulation.start r .plane g generation).stepN t).Apart d) →
      identify r .plane kind generation cancelled (g.translate d)
        = identify r .plane kind generation cancelled g) := by
  refine ⟨?_, ?_, ?_⟩
  · intro t t' g active generation ht ht' hfar
    exact Stepper.step_slide .plane (fun _ _ => rfl) hfar ht ht' generation
  · intro width height t t' g active generation hwidth hwidth' ht ht' torus slide hg
    exact Stepper.step_slide (.torus width height) hg (apart_of_torus hwidth hwidth') ht ht'
      generation
  · intro kind generation cancelled g hfar
    exact identify_translate kind cancelled hfar

theorem Rule.invariant_under_translation_of_drifting_cell :
    let r : Rule := {
      name := "Drift", nStates := 2, neighbourhoods := [.ofOffsets [⟨0, -1⟩]]
      stateWeights := [[0, 1]], space := .custom, conditions := .weighted
      transition := .function fun _ neighbours _ => neighbours.headD 0
      palette := none, neighbourhoods_ne := by simp }
    let d : Offset := ⟨-5, 7⟩
    let g := Grid.ofList [(⟨0, 0⟩, 1)]
    let torus := Surface.box .torus 3 2
    let slide := fun c : Coord => torus.resolve (c + d)
    r.Apart .plane d g g.coords ∧
      (Stepper.fresh.step r .plane 0 (g.translate d) (g.coords.map (· + d))).2.1.sameCells
        ((Stepper.fresh.step r .plane 0 g g.coords).2.1.translate d) = true ∧
      (∀ c, g.get c ≠ 0 → torus.contains c = true) ∧
      (Stepper.fresh.step r torus 0 (g.image slide) (g.coords.map slide)).2.1.sameCells
        ((Stepper.fresh.step r torus 0 g g.coords).2.1.image slide) = true ∧
      (∀ t < maxPeriod, ((Simulation.start r .plane g 0).stepN t).Apart d) ∧
      identify r .plane .any 0 (fun _ => false) (g.translate d)
        = identify r .plane .any 0 (fun _ => false) g := by
  intro r d g torus slide
  have hall : r.margin = 1 ∧ d.radius = 7 ∧ (∀ c ∈ g.coords, torus.contains c = true) ∧
      ∀ c ∈ g.coords, c = ⟨0, 0⟩ := by decide +kernel
  obtain ⟨hmargin, hradius, hcoords, horigin⟩ := hall
  have hspread : (Simulation.start r .plane g 0).Spread 0 := by
    intro c hc
    have hmem : c ∈ g.coords := hc.elim Grid.mem_coords.mpr id
    rw [horigin c hmem]
    decide
  have hcontained := Simulation.contained_start (r := r) (s := .plane) (g := g) (fun _ _ => rfl) 0
  have hfar : ∀ t < maxPeriod, ((Simulation.start r .plane g 0).stepN t).Apart d := by
    intro t ht
    refine (hspread.stepN hcontained rfl t).apart (Simulation.surface_stepN _ t) ?_
    rw [Simulation.rule_stepN]
    show 0 + t * r.margin + r.margin + d.radius < _
    rw [hmargin, hradius]
    unfold maxPeriod at ht
    omega
  have hg : ∀ c, g.get c ≠ 0 → torus.contains c = true := Grid.forall_live hcoords
  obtain ⟨hplane, htorus, hidentify⟩ := invariant_under_translation r d
  refine ⟨hfar 0 (by decide), (hplane _ _ _ _ _ Stepper.valid_fresh Stepper.valid_fresh
    (hfar 0 (by decide))).1, hg, ?_, hfar, hidentify _ _ _ _ hfar⟩
  exact (htorus 3 2 _ _ _ _ _ (by decide) (by decide) Stepper.valid_fresh Stepper.valid_fresh
    hg).1

end Cellular
