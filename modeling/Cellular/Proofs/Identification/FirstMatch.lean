/-
The verdict is that of the first match.

What a pattern is called depends on the generations that it goes through and on nothing else.  A
later generation matches if it is the pattern again, somewhere (`Grid.Recurs`), if it is made of
two copies of it (`Grid.TwoCopies`), or if it shows the pattern in place and more cells outside of
its box (`Grid.Emits`); which of these count depends on what is looked for.  `Recognised` says what
the verdict on a generation that matches is, without the lists and boxes that the tests compare.

The tests find exactly these matches.  The first one asks whether two lists of cells in reading
order differ by one displacement throughout, and as moving a pattern keeps the order of its cells,
this is so exactly if one pattern is the other one moved.  The search then ends at the first
generation that matches, unless the pattern dies out or 5000 generations pass before.
-/
import Mathlib.Order.Bounds.Basic
import Cellular.Proofs.Identification.Copies

namespace Cellular

/-! ### What there is to find -/

namespace Grid

/-- The pattern `h` is `g` somewhere else, or in its place. -/
def Recurs (g h : Grid) : Prop := ∃ o, g.sameCells (h.translate o) = true

/-- The pattern `h` is made of two copies of `g`. -/
def Replicates (g h : Grid) : Prop := ∃ d, g.TwoCopies d h

/-- Does the cell lie in the smallest box of the pattern?  Some live cells are then above it or
beside it, others below it or beside it, and so on to either side. -/
def Frames (g : Grid) (c : Coord) : Prop :=
  (∃ a, g.get a ≠ 0 ∧ a.row ≤ c.row) ∧ (∃ a, g.get a ≠ 0 ∧ c.row ≤ a.row) ∧
    (∃ a, g.get a ≠ 0 ∧ a.col ≤ c.col) ∧ ∃ a, g.get a ≠ 0 ∧ c.col ≤ a.col

/-- The pattern `h` shows `g` in the box of `g`, and has more cells. -/
def Emits (g h : Grid) : Prop := g.size < h.size ∧ ∀ c, g.Frames c → h.get c = g.get c

variable {g h : Grid} {o : Offset} {b : Bounds} {c : Coord}

theorem contains_iff_frames (hb : g.tightBounds = some b) : b.contains c = true ↔ g.Frames c := by
  have htouches := Bounds.touches_of_enclosing hb
  have hcontains : ∀ a, g.get a ≠ 0 →
      (b.top ≤ a.row ∧ a.row ≤ b.bottom) ∧ b.left ≤ a.col ∧ a.col ≤ b.right := fun a ha =>
    Bounds.contains_iff.mp (contains_of_tightBounds hb ha)
  rw [Bounds.contains_iff]
  constructor
  · rintro ⟨⟨htop, hbottom⟩, hleft, hright⟩
    obtain ⟨⟨l, hl, hl'⟩, ⟨r, hr, hr'⟩, ⟨t, ht, ht'⟩, ⟨u, hu, hu'⟩⟩ := htouches
    exact ⟨⟨t, mem_coords.mp ht, by omega⟩, ⟨u, mem_coords.mp hu, by omega⟩,
      ⟨l, mem_coords.mp hl, by omega⟩, r, mem_coords.mp hr, by omega⟩
  · rintro ⟨⟨t, ht, ht'⟩, ⟨u, hu, hu'⟩, ⟨l, hl, hl'⟩, r, hr, hr'⟩
    have htop := hcontains t ht
    have hbottom := hcontains u hu
    have hleft := hcontains l hl
    have hright := hcontains r hr
    omega

end Grid

/-- Is a kind of pattern looked for? -/
def PatternKind.Includes (kind k : PatternKind) : Prop := kind = .any ∨ kind = k

/-- Does the generation `h` match the pattern `g` in a way that counts? -/
def PatternKind.Matches (kind : PatternKind) (g h : Grid) : Prop :=
  kind.Includes .periodic ∧ g.Recurs h ∨ kind.Includes .replicator ∧ g.Replicates h ∨
    kind.Includes .gun ∧ g.Emits h

/-- Is this the direction of the displacement? -/
def Orientation.Describes : Orientation → Offset → Prop
  | .orthogonal, o => o.dy = 0 ∧ o.dx ≠ 0 ∨ o.dy ≠ 0 ∧ o.dx = 0
  | .diagonal, o => o.dy ≠ 0 ∧ o.dy.natAbs = o.dx.natAbs
  | .oblique, o => o.dy ≠ 0 ∧ o.dx ≠ 0 ∧ o.dy.natAbs ≠ o.dx.natAbs

/-- The verdicts on a pattern `g` that has become `h` after `period` generations.  A pattern that
recurs is nothing else, and one that replicates is no gun, if these are looked for at all. -/
inductive Recognised (kind : PatternKind) (g h : Grid) (period : Nat) : Verdict → Prop
  | stillLife (hkind : kind.Includes .periodic) (hsame : g.sameCells (h.translate .zero) = true)
      (hperiod : period = 1) : Recognised kind g h period .stillLife
  | oscillator (hkind : kind.Includes .periodic) (hsame : g.sameCells (h.translate .zero) = true)
      (hperiod : period ≠ 1) : Recognised kind g h period (.oscillator period)
  | spaceship {o : Offset} {a : Orientation} (hkind : kind.Includes .periodic)
      (hsame : g.sameCells (h.translate o) = true) (ha : a.Describes o) :
      Recognised kind g h period (.spaceship ⟨o.dx.natAbs, o.dy.natAbs, period, a⟩)
  | replicator {d : Offset} {a : Orientation} (hkind : kind.Includes .replicator)
      (hrecurs : ¬(kind.Includes .periodic ∧ g.Recurs h)) (hcopies : g.TwoCopies d h)
      (ha : a.Describes d) :
      Recognised kind g h period (.replicator ⟨d.dx.natAbs, d.dy.natAbs, period, a⟩)
  | gun (hkind : kind.Includes .gun) (hrecurs : ¬(kind.Includes .periodic ∧ g.Recurs h))
      (hreplicates : ¬(kind.Includes .replicator ∧ g.Replicates h)) (hemits : g.Emits h) :
      Recognised kind g h period (.gun period)

/-! ### Displacements and their directions -/

theorem Orientation.classify?_eq_some_iff {o : Offset} {a : Orientation} :
    classify? o = some a ↔ a.Describes o := by
  unfold classify?
  simp only
  split
  · cases a <;> simp only [Describes, reduceCtorEq, false_iff] <;> omega
  · split
    · cases a <;> simp only [Describes, reduceCtorEq, Option.some.injEq, false_iff, true_iff] <;>
        omega
    · split <;> cases a <;>
        simp only [Describes, reduceCtorEq, Option.some.injEq, false_iff, true_iff] <;> omega

theorem Orientation.exists_describes {o : Offset} (ho : o ≠ .zero) :
    ∃ a : Orientation, a.Describes o := by
  obtain ⟨a, ha⟩ := Option.ne_none_iff_exists'.mp (mt classify?_eq_none.mp ho)
  exact ⟨a, classify?_eq_some_iff.mp ha⟩

theorem Orientation.describes_neg {o : Offset} {a : Orientation} :
    a.Describes (-o) ↔ a.Describes o := by
  cases a <;> simp only [Describes, Offset.neg_dy, Offset.neg_dx] <;> omega

namespace Reference

variable {r : Reference} {g h : Grid} {o o' : Offset} {kind : PatternKind} {period : Nat}
  {v : Verdict}

theorem speed?_eq_some_iff {speed : Speed} :
    speed? o period = some speed ↔
      ∃ a : Orientation, a.Describes o ∧ ⟨o.dx.natAbs, o.dy.natAbs, period, a⟩ = speed := by
  unfold speed?
  rw [Option.map_eq_some_iff]
  simp only [Orientation.classify?_eq_some_iff]

/-- A displacement and its opposite are of one speed. -/
theorem speed?_neg : speed? (-o) period = speed? o period := by
  refine Option.ext fun speed => ?_
  rw [speed?_eq_some_iff, speed?_eq_some_iff]
  simp only [Orientation.describes_neg, Offset.neg_dx, Offset.neg_dy, Int.natAbs_neg]

/-! ### What the tests find -/

private theorem movedBy_self (now : List (Coord × State)) :
    movedBy o (now.map fun p => (p.1 + o, p.2)) now = true := by
  unfold movedBy
  induction now with
  | nil => rfl
  | cons p rest ih =>
      rw [List.map_cons, List.zip_cons_cons, List.all_cons, ih]
      simp [Coord.add_sub_cancel]

/-- **The lists differ by one displacement exactly if one pattern is the other one moved.** -/
theorem Valid.translation?_eq_some_iff (hr : r.Valid) :
    r.translation? h = some o ↔ r.grid.sameCells (h.translate o) = true := by
  rw [Grid.sameCells_translate_iff]
  refine ⟨get_of_translation? hr.cells, fun hmoved => ?_⟩
  have hcells : r.cells = h.toList.map fun p => (p.1 + o, p.2) := by
    rw [hr.cells, Grid.toList_of_moved hmoved]
  have hsize : h.size = r.cells.length := by
    rw [hcells, List.length_map, Grid.length_toList]
  unfold translation?
  rw [if_neg (not_not.mpr hsize)]
  cases hnow : h.toList with
  | nil =>
      rw [hnow, List.map_nil] at hcells
      exact absurd hcells hr.cells_ne_nil
  | cons p rest =>
      rw [hnow] at hcells
      have htest := movedBy_self (o := o) (p :: rest)
      rw [List.map_cons] at hcells htest
      simp only [hcells, Coord.add_sub_cancel, htest, if_true]

/-- A pattern cannot be moved to the same place in two ways. -/
theorem Valid.displacement_unique (hr : r.Valid) (ho : r.grid.sameCells (h.translate o) = true)
    (ho' : r.grid.sameCells (h.translate o') = true) : o = o' := by
  rw [← hr.translation?_eq_some_iff] at ho ho'
  rw [ho] at ho'
  exact Option.some.inj ho'

theorem Valid.emits_iff (hr : r.Valid) : r.emits h = true ↔ r.grid.Emits h := by
  unfold emits Grid.Emits
  rw [Bool.and_eq_true, decide_eq_true_eq, decide_eq_true_eq, hr.length_cells, hr.cells]
  refine and_congr_right fun _ => ⟨fun hlist c hc => ?_, fun hshown => ?_⟩
  · have hget := Grid.get_of_toList_eq hlist c
    rwa [Grid.get_restrict, if_pos ((Grid.contains_iff_frames hr.bounds).mpr hc)] at hget
  · refine Grid.toList_congr fun c => ?_
    rw [Grid.get_restrict]
    split
    · rename_i hc
      exact hshown c ((Grid.contains_iff_frames hr.bounds).mp hc)
    · rename_i hc
      by_contra hlive
      exact hc (Grid.contains_of_tightBounds hr.bounds (Ne.symm hlive))

/-! ### The verdict on one generation -/

private theorem includes_iff {k : PatternKind} :
    (decide (kind = .any) || decide (kind = k)) = true ↔ kind.Includes k := by
  rw [Bool.or_eq_true, decide_eq_true_eq, decide_eq_true_eq]
  rfl

/-- Where the first test does not count or fails, the verdict is left to the others. -/
private theorem Valid.recurs_skipped (hr : r.Valid)
    (hno : ¬(kind.Includes .periodic ∧ r.grid.Recurs h)) {f : Offset → Verdict} :
    (if (decide (kind = .any) || decide (kind = .periodic)) = true then
      (r.translation? h).map f else none) = none := by
  split
  · rename_i hkind
    refine Option.map_eq_none_iff.mpr (Option.eq_none_iff_forall_ne_some.mpr fun o ho => ?_)
    exact hno ⟨includes_iff.mp hkind, o, hr.translation?_eq_some_iff.mp ho⟩
  · rfl

/-- Likewise for the second test. -/
private theorem Valid.replicates_skipped (hr : r.Valid)
    (hno : ¬(kind.Includes .replicator ∧ r.grid.Replicates h)) {f : Offset → Option Speed} :
    (if (decide (kind = .any) || decide (kind = .replicator)) = true then
      ((r.twoCopies? h).bind f).map Verdict.replicator else none) = none := by
  split
  · rename_i hkind
    have hnone : r.twoCopies? h = none :=
      Option.eq_none_iff_forall_ne_some.mpr fun o ho =>
        hno ⟨includes_iff.mp hkind, o, hr.of_twoCopies? ho⟩
    rw [hnone, Option.bind_none, Option.map_none]
  · rfl

theorem periodicVerdict_zero :
    periodicVerdict .zero period = if period = 1 then .stillLife else .oscillator period := by
  unfold periodicVerdict
  rw [speed?_eq_none.mpr rfl]

theorem periodicVerdict_of_describes {a : Orientation} (ha : a.Describes o) :
    periodicVerdict o period = .spaceship ⟨o.dx.natAbs, o.dy.natAbs, period, a⟩ := by
  unfold periodicVerdict
  rw [speed?_eq_some_iff.mpr ⟨a, ha, rfl⟩]

theorem Valid.verdict?_of_recurs (hr : r.Valid) (hkind : kind.Includes .periodic)
    (hsame : r.grid.sameCells (h.translate o) = true) :
    r.verdict? kind h period = some (periodicVerdict o period) := by
  unfold verdict?
  simp only
  rw [if_pos (includes_iff.mpr hkind), hr.translation?_eq_some_iff.mpr hsame, Option.map_some,
    Option.some_or]

theorem Valid.verdict?_of_replicates (hr : r.Valid)
    (hrecurs : ¬(kind.Includes .periodic ∧ r.grid.Recurs h)) (hkind : kind.Includes .replicator)
    (hcopies : r.grid.TwoCopies o h) {a : Orientation} (ha : a.Describes o) :
    r.verdict? kind h period
      = some (.replicator ⟨o.dx.natAbs, o.dy.natAbs, period, a⟩) := by
  have hspeed : (r.twoCopies? h).bind (speed? · period)
      = some ⟨o.dx.natAbs, o.dy.natAbs, period, a⟩ := by
    rw [← speed?_eq_some_iff.mpr ⟨a, ha, rfl⟩]
    rcases hr.twoCopies?_of_twoCopies hcopies with ho | ho
    · rw [ho, Option.bind_some]
    · rw [ho, Option.bind_some, speed?_neg]
  unfold verdict?
  simp only
  rw [hr.recurs_skipped hrecurs, Option.none_or, if_pos (includes_iff.mpr hkind), hspeed,
    Option.map_some, Option.some_or]

theorem Valid.verdict?_of_emits (hr : r.Valid)
    (hrecurs : ¬(kind.Includes .periodic ∧ r.grid.Recurs h))
    (hreplicates : ¬(kind.Includes .replicator ∧ r.grid.Replicates h))
    (hkind : kind.Includes .gun) (hemits : r.grid.Emits h) :
    r.verdict? kind h period = some (.gun period) := by
  unfold verdict?
  simp only
  rw [hr.recurs_skipped hrecurs, hr.replicates_skipped hreplicates, Option.none_or, Option.none_or,
    if_pos]
  rw [Bool.and_eq_true]
  exact ⟨includes_iff.mpr hkind, hr.emits_iff.mpr hemits⟩

/-- **The verdict that a generation deserves is the one that it gets.** -/
theorem Valid.verdict?_of_recognised (hr : r.Valid) (hv : Recognised kind r.grid h period v) :
    r.verdict? kind h period = some v := by
  cases hv with
  | stillLife hkind hsame hperiod =>
      rw [hr.verdict?_of_recurs hkind hsame, periodicVerdict_zero, if_pos hperiod]
  | oscillator hkind hsame hperiod =>
      rw [hr.verdict?_of_recurs hkind hsame, periodicVerdict_zero, if_neg hperiod]
  | spaceship hkind hsame ha =>
      rw [hr.verdict?_of_recurs hkind hsame, periodicVerdict_of_describes ha]
  | replicator hkind hrecurs hcopies ha =>
      exact hr.verdict?_of_replicates hrecurs hkind hcopies ha
  | gun hkind hrecurs hreplicates hemits =>
      exact hr.verdict?_of_emits hrecurs hreplicates hkind hemits

/-- A generation that matches deserves a verdict. -/
theorem exists_recognised (hmatches : kind.Matches g h) (period : Nat) :
    ∃ v, Recognised kind g h period v := by
  by_cases hrecurs : kind.Includes .periodic ∧ g.Recurs h
  · obtain ⟨hkind, o, hsame⟩ := hrecurs
    by_cases ho : o = .zero
    · rw [ho] at hsame
      by_cases hperiod : period = 1
      · exact ⟨_, .stillLife hkind hsame hperiod⟩
      · exact ⟨_, .oscillator hkind hsame hperiod⟩
    · obtain ⟨a, ha⟩ := Orientation.exists_describes ho
      exact ⟨_, .spaceship hkind hsame ha⟩
  · by_cases hreplicates : kind.Includes .replicator ∧ g.Replicates h
    · obtain ⟨hkind, d, hcopies⟩ := hreplicates
      obtain ⟨a, ha⟩ := Orientation.exists_describes hcopies.moves
      exact ⟨_, .replicator hkind hrecurs hcopies ha⟩
    · obtain ⟨hkind, hemits⟩ := (hmatches.resolve_left hrecurs).resolve_left hreplicates
      exact ⟨_, .gun hkind hrecurs hreplicates hemits⟩

/-- **A generation that does not match gets no verdict.** -/
theorem Valid.verdict?_eq_none (hr : r.Valid) (hno : ¬kind.Matches r.grid h) :
    r.verdict? kind h period = none := by
  obtain ⟨hrecurs, hother⟩ := not_or.mp hno
  obtain ⟨hreplicates, hemits⟩ := not_or.mp hother
  unfold verdict?
  simp only
  rw [hr.recurs_skipped hrecurs, hr.replicates_skipped hreplicates, Option.none_or, Option.none_or,
    if_neg]
  rw [Bool.and_eq_true]
  exact fun hgun => hemits ⟨includes_iff.mp hgun.1, hr.emits_iff.mp hgun.2⟩

/-- No generation deserves two verdicts. -/
theorem Valid.recognised_unique (hr : r.Valid) {v' : Verdict}
    (hv : Recognised kind r.grid h period v) (hv' : Recognised kind r.grid h period v') :
    v = v' := by
  have hsame := hr.verdict?_of_recognised hv
  rw [hr.verdict?_of_recognised hv'] at hsame
  exact (Option.some.inj hsame).symm

/-! ### The search -/

/-- The search ends with the first generation that gets a verdict. -/
theorem search_of_first (t : Nat) : ∀ {left period : Nat} {m : Simulation}, t < left →
    (∀ u ≤ t, (m.stepN (u + 1)).grid.isEmpty = false) →
    (∀ u < t, r.verdict? kind (m.stepN (u + 1)).grid (period + u) = none) →
    r.verdict? kind (m.stepN (t + 1)).grid (period + t) = some v →
    r.search kind (fun _ => false) left period m = v := by
  induction t with
  | zero =>
      intro left period m hleft hlive _ hfirst
      obtain ⟨left, rfl⟩ := Nat.exists_eq_succ_of_ne_zero (Nat.ne_of_gt hleft)
      have hnow : m.step.grid.isEmpty = false := hlive 0 (Nat.le_refl 0)
      have hfound : r.verdict? kind m.step.grid period = some v := hfirst
      unfold search
      simp only [hnow, hfound, Bool.false_eq_true, if_false]
  | succ t ih =>
      intro left period m hleft hlive hbefore hfirst
      obtain ⟨left, rfl⟩ := Nat.exists_eq_succ_of_ne_zero (Nat.ne_of_gt (Nat.zero_lt_of_lt hleft))
      have hnow : m.step.grid.isEmpty = false := hlive 0 (Nat.zero_le _)
      have hnone : r.verdict? kind m.step.grid period = none := hbefore 0 (Nat.succ_pos t)
      unfold search
      simp only [hnow, hnone, Bool.false_eq_true, if_false]
      refine ih (by omega) (fun u hu => hlive (u + 1) (by omega)) (fun u hu => ?_) ?_
      · rw [Nat.add_right_comm, Nat.add_assoc]
        exact hbefore (u + 1) (by omega)
      · rw [Nat.add_right_comm, Nat.add_assoc]
        exact hfirst

/-- The search fails if no generation up to the last one, or up to the death of the pattern, gets
a verdict. -/
theorem search_of_none (left : Nat) : ∀ {period : Nat} {m : Simulation},
    (∀ t < left, (∀ u ≤ t, (m.stepN (u + 1)).grid.isEmpty = false) →
      r.verdict? kind (m.stepN (t + 1)).grid (period + t) = none) →
    r.search kind (fun _ => false) left period m = .failed := by
  induction left with
  | zero => intro period m _; rfl
  | succ left ih =>
      intro period m hnone
      unfold search
      by_cases hnow : m.step.grid.isEmpty = true
      · simp only [hnow, Bool.false_eq_true, if_false, if_true]
      · rw [Bool.not_eq_true] at hnow
        have hfirst : r.verdict? kind m.step.grid period = none :=
          hnone 0 (Nat.succ_pos left) fun u hu => by
            rw [Nat.le_zero.mp hu]
            exact hnow
        simp only [hnow, hfirst, Bool.false_eq_true, if_false]
        refine ih fun t ht hlive => ?_
        rw [Nat.add_right_comm, Nat.add_assoc]
        refine hnone (t + 1) (by omega) fun u hu => ?_
        cases u with
        | zero => exact hnow
        | succ u => exact hlive u (by omega)

end Reference

/-- The generations among the first 5000 that match, up to which the pattern lives. -/
def PatternKind.matching (kind : PatternKind) (m : Simulation) : Set Nat :=
  {p | 0 < p ∧ p ≤ 5000 ∧ (∀ q, 0 < q → q ≤ p → (m.stepN q).grid.isEmpty = false) ∧
    kind.Matches m.grid (m.stepN p).grid}

section

variable {r : Rule} {s : Surface} {kind : PatternKind} {generation : Nat} {g : Grid} {v : Verdict}

/-- The verdict is that of the first generation that matches. -/
theorem identify_of_isLeast {ref : Reference} (hofGrid : Reference.ofGrid? g = some ref)
    (hgrid : ref.grid = g) (href : ref.Valid) {p : Nat}
    (hleast : IsLeast (kind.matching (.start r s g generation)) p)
    (hv : Recognised kind g ((Simulation.start r s g generation).stepN p).grid p v) :
    identify r s kind generation (fun _ => false) g = v := by
  obtain ⟨⟨hpos, hlast, hlive, -⟩, hfirst⟩ := hleast
  obtain ⟨t, rfl⟩ := Nat.exists_eq_succ_of_ne_zero (Nat.ne_of_gt hpos)
  subst hgrid
  unfold identify
  rw [hofGrid]
  refine Reference.search_of_first t hlast (fun u hu => hlive _ (by omega) (by omega))
    (fun u hu => href.verdict?_eq_none fun hmatches => ?_) ?_
  · have hle := hfirst ⟨Nat.succ_pos u, by omega, fun q hq hqu => hlive q hq (by omega), hmatches⟩
    omega
  · rw [Nat.add_comm 1 t]
    exact href.verdict?_of_recognised hv

/-- There is no verdict if no generation matches. -/
theorem identify_of_no_match {ref : Reference} (hofGrid : Reference.ofGrid? g = some ref)
    (hgrid : ref.grid = g) (href : ref.Valid)
    (hnone : kind.matching (.start r s g generation) = ∅) :
    identify r s kind generation (fun _ => false) g = .failed := by
  subst hgrid
  unfold identify
  rw [hofGrid]
  refine Reference.search_of_none _ fun t ht hlive => href.verdict?_eq_none fun hmatches => ?_
  have hmem : t + 1 ∈ kind.matching (.start r s ref.grid generation) := by
    refine ⟨Nat.succ_pos t, ht, fun q hq hqt => ?_, hmatches⟩
    obtain ⟨u, rfl⟩ := Nat.exists_eq_succ_of_ne_zero (Nat.ne_of_gt hq)
    exact hlive u (by omega)
  rw [hnone] at hmem
  exact hmem

/--
**A pattern is called what its first match makes it, and nothing else.**  If some generation among
the first 5000 matches, and the pattern lives up to there, then the verdict is the one that the
first such generation deserves; if there is none, it is that of a failure.
-/
theorem identify_eq_iff (hg : g.isEmpty = false) :
    identify r s kind generation (fun _ => false) g = v ↔
      (∃ p, IsLeast (kind.matching (.start r s g generation)) p ∧
        Recognised kind g ((Simulation.start r s g generation).stepN p).grid p v) ∨
      kind.matching (.start r s g generation) = ∅ ∧ v = .failed := by
  obtain ⟨ref, hofGrid, hgrid, href⟩ := Reference.exists_ofGrid? hg
  rcases Set.eq_empty_or_nonempty (kind.matching (.start r s g generation)) with hnone | hsome
  · rw [identify_of_no_match hofGrid hgrid href hnone]
    constructor
    · rintro rfl
      exact .inr ⟨hnone, rfl⟩
    · rintro (⟨p, ⟨hmem, -⟩, -⟩ | ⟨-, rfl⟩)
      · rw [hnone] at hmem
        exact hmem.elim
      · rfl
  · obtain ⟨p, hleast⟩ : ∃ p, IsLeast (kind.matching (.start r s g generation)) p := by
      classical
      exact ⟨Nat.find hsome, Nat.find_spec hsome, fun q hq => Nat.find_min' hsome hq⟩
    obtain ⟨w, hw⟩ := Reference.exists_recognised hleast.1.2.2.2 p
    rw [identify_of_isLeast hofGrid hgrid href hleast hw]
    constructor
    · rintro rfl
      exact .inl ⟨p, hleast, hw⟩
    · rintro (⟨q, hleast', hv⟩ | ⟨hnone, -⟩)
      · obtain rfl := hleast.unique hleast'
        subst hgrid
        exact href.recognised_unique hw hv
      · exact absurd hnone hsome.ne_empty

end

end Cellular
