/-
A step within words is the synchronous update of its candidates.

A step gives up exactly if a calculation around one of its seeds does not fit, or one around one of
its candidates (`FitsWords`): in which order they are gathered does not matter.  If it does not
give up, each candidate takes the state that the rule makes of the old states, and every other
cell keeps its own (`step_synchronous`).

It does not give up if all that it starts from is far enough from the limits (`fitsWords`).  The
candidates are then not much further away: a step leads no further than the rule reaches
(`Candidate.within`).
-/
import Cellular.Proofs.Synchronous
import Cellular.Proofs.Word.Surface

namespace Cellular

/-! ### How far away cells are -/

section

variable {a b m : Int} {s : Surface} {c p : Coord} {o : Offset} {margin : Nat}

theorem Coord.Within.mono (h : c.Within a) (hab : a ≤ b) : c.Within b := by
  unfold Within at *
  omega

theorem Surface.Within.mono (h : s.Within a) (hab : a ≤ b) : s.Within b := by
  cases s with
  | plane => trivial
  | box joining width height => exact ⟨h.1.trans hab, h.2.trans hab⟩

theorem Coord.within_add (hc : c.Within b) (ho : (o.radius : Int) ≤ m) :
    (c + o).Within (b + m) := by
  unfold Offset.radius at ho
  unfold Within at *
  simp only [add_row, add_col]
  omega

theorem Coord.allFit_add (hc : c.Within b) (ho : (o.radius : Int) ≤ m) (hword : b + m < 2 ^ 63) :
    AllFit (c.addArithmetic o) := by
  have hsum := within_add hc ho
  unfold Within at hsum
  simp only [addArithmetic, allFit_cons, allFit_nil, and_true, Calculation.Fits, InWord]
  simp only [add_row, add_col] at hsum
  omega

theorem Offset.allFit_abs (ho : (o.radius : Int) < 2 ^ 63) : AllFit o.absArithmetic := by
  unfold radius at ho
  simp only [absArithmetic, Calculation.abs, allFit_append, allFit_ite, allFit_cons, allFit_nil,
    and_true, implies_true, Calculation.Fits, InWord]
  omega

namespace Surface

variable {joining : Joining} {width height : Int}

/-- An axis that is not glued leaves a coordinate alone. -/
theorem row_resolve (hj : joining ≠ .rectangle) (hopen : height ≤ 0) (c : Coord) :
    ((box joining width height).resolve c).row = c.row := by
  have hnot : ¬0 < height := by omega
  cases joining with
  | rectangle => exact absurd rfl hj
  | torus | klein | crossSurface | sphere =>
      simp [resolve, Axis.wrap, Axis.mirror, Axis.reflect, hopen, hnot]

theorem col_resolve (hj : joining ≠ .rectangle) (hopen : width ≤ 0) (c : Coord) :
    ((box joining width height).resolve c).col = c.col := by
  have hnot : ¬0 < width := by omega
  cases joining with
  | rectangle => exact absurd rfl hj
  | torus | klein | crossSurface | sphere =>
      simp [resolve, Axis.wrap, Axis.mirror, Axis.reflect, hopen, hnot]

theorem row_eq_of_resolve_eq (hj : joining ≠ .rectangle) (hopen : height ≤ 0)
    (h : (box joining width height).resolve p = (box joining width height).resolve c) :
    p.row = c.row := by
  rw [← row_resolve hj hopen p, h, row_resolve hj hopen]

theorem col_eq_of_resolve_eq (hj : joining ≠ .rectangle) (hopen : width ≤ 0)
    (h : (box joining width height).resolve p = (box joining width height).resolve c) :
    p.col = c.col := by
  rw [← col_resolve hj hopen p, h, col_resolve hj hopen]

/-- Where everything is glued or open, the cell that a coordinate names is no further away than
the coordinate or the sides. -/
theorem within_resolve_box (hj : joining ≠ .rectangle) (hs : (box joining width height).Within b)
    (hc : c.Within b) : ((box joining width height).resolve c).Within b := by
  obtain ⟨hwidth, hheight⟩ := hs
  obtain ⟨hr, hcol⟩ := (contains_box hj).mp (contains_resolve_box hj width height c)
  rw [Axis.outside_eq_false] at hr hcol
  have hrow : height ≤ 0 → ((box joining width height).resolve c).row = c.row :=
    fun hopen => row_resolve hj hopen c
  have hcol' : width ≤ 0 → ((box joining width height).resolve c).col = c.col :=
    fun hopen => col_resolve hj hopen c
  unfold Coord.Within at hc ⊢
  omega

/-- A coordinate near the box is no further away than the margin beyond the sides, or beyond the
coordinate whose cell it names. -/
theorem within_of_near (hj : joining ≠ .rectangle) (hs : (box joining width height).Within b)
    (hc : c.Within b) (hb : 0 ≤ b)
    (hp : (box joining width height).resolve p = (box joining width height).resolve c)
    (hnear : (box joining width height).Near margin p) : p.Within (b + margin) := by
  obtain ⟨hwidth, hheight⟩ := hs
  have hrow : height ≤ 0 → p.row = c.row := fun hopen => row_eq_of_resolve_eq hj hopen hp
  have hcol : width ≤ 0 → p.col = c.col := fun hopen => col_eq_of_resolve_eq hj hopen hp
  unfold Near at hnear
  unfold Coord.Within at hc ⊢
  omega

/-- The rectangle leads no further either, unless it leads nowhere. -/
theorem within_resolve (hs : s.Within b) (hc : c.Within b) (hne : s.resolve c ≠ nowhere) :
    (s.resolve c).Within b := by
  cases s with
  | plane => exact hc
  | box joining width height =>
      by_cases hj : joining = .rectangle
      · subst hj
        rw [(resolve_rectangle width height c).resolve_left hne]
        exact hc
      · exact within_resolve_box hj hs hc

end Surface

end

/-! ### What a step calculates -/

section

variable {r : Rule} {s : Surface} {g : Grid} {active : ActiveSet} {generation : Nat} {a c p : Coord}
  {b : Int} {offsets : List Offset} {margin : Nat}

namespace Surface

/-- A cell that may be affected is no further away from the origin than the reach leads. -/
theorem within_of_mayAffect (hs : s.Within b) (ha : a.Within b)
    (hreach : ∀ o ∈ offsets, o.radius ≤ margin) (h : s.MayAffect offsets margin a c) :
    c.Within (b + margin) := by
  unfold MayAffect at h
  split at h
  · rename_i hmirrors
    obtain ⟨hc, p, ⟨hp, -⟩, o, ho, rfl⟩ := h
    obtain ⟨joining, width, height, hj, rfl⟩ := box_of_mirrors hmirrors
    obtain ⟨hwidth, hheight⟩ := hs
    obtain ⟨hr, hcol⟩ := (contains_box hj).mp hc
    rw [Axis.outside_eq_false] at hr hcol
    -- On an open axis the coordinate is the seed's own.
    have hrow : height ≤ 0 → p.row = a.row := fun hopen => row_eq_of_resolve_eq hj hopen hp
    have hcol' : width ≤ 0 → p.col = a.col := fun hopen => col_eq_of_resolve_eq hj hopen hp
    have hradius := hreach o ho
    unfold Offset.radius at hradius
    unfold Coord.Within at ha ⊢
    simp only [Coord.add_row, Coord.add_col] at hr hcol ⊢
    omega
  · obtain ⟨hne, o, ho, rfl⟩ := h
    exact within_resolve (hs.mono (by omega))
      (Coord.within_add ha (Int.ofNat_le.mpr (hreach o ho))) hne

/-- What is seen through offsets is found within words. -/
theorem allFit_sight (hs : s.Within b) (hc : c.Within b) (hreach : ∀ o ∈ offsets, o.radius ≤ margin)
    (hword : b + margin < 2 ^ 63) : AllFit (s.sightArithmetic offsets c) := by
  simp only [sightArithmetic, allFit_flatMap, allFit_append]
  intro o ho
  have hradius : (o.radius : Int) ≤ margin := Int.ofNat_le.mpr (hreach o ho)
  exact ⟨Coord.allFit_add hc hradius hword,
    allFit_resolve (hs.mono (by omega)) (Coord.within_add hc hradius) hword⟩

end Surface

namespace Rule

theorem radius_le_of_mem_offsets {phase : Nat} {o : Offset} (ho : o ∈ r.offsets phase) :
    o.radius ≤ r.margin := by
  rw [← Offset.radius_neg]
  exact radius_le_margin (neg_mem_reach ho)

/-- What is around the cells that a step starts from is not much further away. -/
theorem Candidate.within (h : r.Candidate s g active c) (hs : s.Within b)
    (hseeds : ∀ a ∈ r.seeds g active, a.Within b) : c.Within (b + r.margin) := by
  obtain ⟨a, ha, haffect⟩ := h
  exact Surface.within_of_mayAffect hs (hseeds a (mem_seeds_iff.mpr ha))
    (fun o => radius_le_margin) haffect

/-- What a step calculates fits: how far the rule reaches, what is around each cell that it starts
from, and what each candidate sees. -/
structure FitsWords (r : Rule) (s : Surface) (generation : Nat) (g : Grid) (active : ActiveSet) :
    Prop where
  reach : ∀ o ∈ r.reach, AllFit o.absArithmetic
  seeds : ∀ a ∈ r.seeds g active, AllFit (Stepper.seedArithmetic r s a)
  candidates : ∀ c, r.Candidate s g active c →
    AllFit (s.sightArithmetic (r.offsets (r.phase generation)) c)

/-- What a seed leads to is found within words. -/
theorem allFit_seed (hs : s.Within b) (ha : a.Within b) (hb : 0 ≤ b)
    (hword : 2 * b + 2 * r.margin < 2 ^ 63) : AllFit (Stepper.seedArithmetic r s a) := by
  unfold Stepper.seedArithmetic
  split
  · rename_i hmirrors
    obtain ⟨joining, width, height, hj, rfl⟩ := Surface.box_of_mirrors hmirrors
    have hq := Surface.contains_resolve_box hj width height a
    have hwithin := Surface.within_resolve_box hj hs ha
    have hwidth := hs.1
    have hheight := hs.2
    have hpreimages := Surface.allFit_preimages (Int.natCast_nonneg r.margin)
      (by omega : 0 < height → 2 * height + r.margin < 2 ^ 63)
      (by omega : 0 < width → 2 * width + r.margin < 2 ^ 63) hj hq
      (by unfold Coord.Within at hwithin; unfold InWord; omega)
      (by unfold Coord.Within at hwithin; unfold InWord; omega)
    simp only [allFit_append, allFit_flatMap]
    refine ⟨⟨Surface.allFit_resolve hs ha (by omega), hpreimages⟩, fun p hp o ho => ?_⟩
    obtain ⟨hp, hnear⟩ := (Surface.mem_preimages_iff hj hq).mp hp
    exact Coord.allFit_add (Surface.within_of_near hj hs ha hb hp hnear)
      (Int.ofNat_le.mpr (radius_le_margin ho)) (by omega)
  · exact Surface.allFit_sight hs ha (fun o => radius_le_margin) (by omega)

/-- Where all that a step starts from is far enough from the limits, all it calculates fits. -/
theorem fitsWords (hs : s.Within b) (hseeds : ∀ a ∈ r.seeds g active, a.Within b) (hb : 0 ≤ b)
    (hword : 2 * b + 2 * r.margin < 2 ^ 63) (generation : Nat) :
    r.FitsWords s generation g active where
  reach o ho := Offset.allFit_abs (by have := radius_le_margin ho; omega)
  seeds a ha := allFit_seed hs (hseeds a ha) hb hword
  candidates c hc := Surface.allFit_sight (hs.mono (by omega)) (hc.within hs hseeds)
    (fun o => radius_le_of_mem_offsets) (by omega)

/-- In which order the cells are listed that a step starts from does not matter. -/
theorem FitsWords.congr {active' : ActiveSet} (h : r.FitsWords s generation g active)
    (hsame : ∀ a, a ∈ active' ↔ a ∈ active) : r.FitsWords s generation g active' where
  reach := h.reach
  seeds a ha := h.seeds a (by rw [mem_seeds_iff] at *; rwa [hsame] at ha)
  candidates c hc := h.candidates c <| by
    rw [← examined_iff_candidate] at *
    exact (examined_congr hsame).mp hc

end Rule

/-! ### A step within words -/

namespace Stepper

variable {t t' : Stepper} {next : Grid} {changed active' : ActiveSet}

theorem allFit_stepArithmetic (h : t.candidates.Valid) :
    AllFit (t.stepArithmetic r s generation g active) ↔ r.FitsWords s generation g active := by
  have hgathered : ∀ c, c ∈ (t.gather r s (r.seeds g active)).candidates.toList ↔
      r.Candidate s g active c := fun c =>
    (mem_gather h).trans Rule.examined_iff_candidate
  simp only [stepArithmetic, allFit_append, allFit_flatMap, hgathered]
  exact ⟨fun h => ⟨h.1.1, h.1.2, h.2⟩, fun h => ⟨⟨h.reach, h.seeds⟩, h.candidates⟩⟩

/-- An answer of the program is what a step leaves, and there is one if all it calculates fits. -/
theorem stepInWords_eq_ok (h : t.candidates.Valid) {answer : Stepper × Grid × ActiveSet} :
    t.stepInWords r s generation g active = .ok answer ↔
      r.FitsWords s generation g active ∧ t.step r s generation g active = answer := by
  rw [← allFit_stepArithmetic h]
  exact perform_then

/--
**One step is the synchronous update of its candidates.**  Whatever the rule, the surface, the
generation and the pattern, and whichever cells are listed as active, in any order and any number
of times, inside the surface or outside of it: where a step answers, each candidate has taken the
state that the rule makes of the states its neighbours and itself had before, every other cell has
kept its state, and the cells that are reported as changed are exactly those whose state is
another, none of them twice.  So a list of the same active cells in another order or with other
repetitions leads to the same pattern and the same changed cells.

A step answers exactly if what it calculates around these cells fits into words, so it does
wherever the cells it starts from and the sides of the surface are far enough from the limits.
The stepper may have been used before, for whatever it was.
-/
theorem step_synchronous (ht : t.InUse) (r : Rule) (s : Surface) (generation : Nat) (g : Grid)
    (active : ActiveSet) :
    (∀ t' next changed, t.stepInWords r s generation g active = .ok (t', next, changed) →
      (∀ c, r.Candidate s g active c →
        next.get c = r.next (r.phase generation)
          ((r.offsets (r.phase generation)).map fun o => g.get (s.resolve (c + o))) (g.get c)) ∧
      (∀ c, ¬r.Candidate s g active c → next.get c = g.get c) ∧
      changed.Nodup ∧ (∀ c, c ∈ changed ↔ next.get c ≠ g.get c) ∧
      ∀ active' : ActiveSet, (∀ a, a ∈ active' ↔ a ∈ active) →
        ∃ t'' next' changed',
          t.stepInWords r s generation g active' = .ok (t'', next', changed') ∧
            next'.toList = next.toList ∧ changed'.Perm changed) ∧
    ((∃ answer, t.stepInWords r s generation g active = .ok answer) ↔
      r.FitsWords s generation g active) ∧
    ∀ b : Int, 0 ≤ b → 2 * b + 2 * r.margin < 2 ^ 63 → s.Within b →
      (∀ a ∈ r.seeds g active, a.Within b) →
      ∃ answer, t.stepInWords r s generation g active = .ok answer := by
  have hvalid := ht.valid
  have hanswers : (∃ answer, t.stepInWords r s generation g active = .ok answer) ↔
      r.FitsWords s generation g active :=
    ⟨fun ⟨_, h⟩ => ((stepInWords_eq_ok hvalid).mp h).1,
      fun hfits => ⟨_, (stepInWords_eq_ok hvalid).mpr ⟨hfits, rfl⟩⟩⟩
  refine ⟨fun t' next changed hstep => ?_, hanswers, fun b hb hword hs hseeds =>
    hanswers.mpr (Rule.fitsWords hs hseeds hb hword generation)⟩
  obtain ⟨hfits, hstep⟩ := (stepInWords_eq_ok hvalid).mp hstep
  obtain rfl : (t.step r s generation g active).2.1 = next := congrArg (·.2.1) hstep
  obtain rfl : (t.step r s generation g active).2.2 = changed := congrArg (·.2.2) hstep
  refine ⟨fun c hc => ?_, fun c hc => ?_, nodup_changed hvalid generation g active,
    fun c => mem_changed_iff_ne hvalid, fun active' hsame => ?_⟩
  · rw [get_step_of_examined hvalid generation (Rule.examined_iff_candidate.mpr hc),
      Rule.nextAt_eq]
  · exact get_step_of_not_examined hvalid generation
      fun hexamined => hc (Rule.examined_iff_candidate.mp hexamined)
  · exact ⟨_, _, _, (stepInWords_eq_ok hvalid).mpr ⟨hfits.congr hsame, rfl⟩,
      Grid.toList_congr (get_step_congr hvalid hsame), changed_perm hvalid hsame⟩

/-- On a Klein bottle the cell at row 2, column 0 is born of three neighbours, one of which it
sees through the seam, although only that one is active, twice, beside a coordinate that is no
cell of the surface. -/
theorem step_synchronous_through_seam :
    let s := Surface.box .klein 4 3
    let g := Grid.ofList [(⟨1, 3⟩, 1), (⟨1, 0⟩, 1), (⟨2, 1⟩, 1)]
    let used := (fresh.step Rule.life .plane 0 g g.coords).1
    let active : ActiveSet := [⟨1, 3⟩, ⟨-7, 9⟩, ⟨1, 3⟩]
    used.InUse ∧ Rule.life.Candidate s g active ⟨2, 0⟩ ∧
      ∃ t' next changed, used.stepInWords Rule.life s 0 g active = .ok (t', next, changed) ∧
        next.get ⟨2, 0⟩ = 1 ∧ ⟨2, 0⟩ ∈ changed ∧
        ∃ t'' next' changed',
          used.stepInWords Rule.life s 0 g [⟨-7, 9⟩, ⟨1, 3⟩] = .ok (t'', next', changed') ∧
            changed'.Perm changed := by
  intro s g used active
  have hused : used.InUse := .step .fresh _ _ _ _ _
  have hcandidate : Rule.life.Candidate s g active ⟨2, 0⟩ :=
    ⟨⟨1, 3⟩, .inl List.mem_cons_self, Surface.mayAffect_iff.mpr (by decide +kernel)⟩
  obtain ⟨hright, -, hfar⟩ := step_synchronous hused Rule.life s 0 g active
  obtain ⟨⟨t', next, changed⟩, hstep⟩ := hfar 9 (by decide) (by decide +kernel) (by decide +kernel)
    (by decide +kernel)
  obtain ⟨hnext, -, -, hchanged, hsame⟩ := hright t' next changed hstep
  have hborn : next.get ⟨2, 0⟩ = 1 := by
    rw [hnext _ hcandidate]
    decide +kernel
  have hactive : ∀ a, a ∈ ([⟨-7, 9⟩, ⟨1, 3⟩] : ActiveSet) ↔ a ∈ active := fun a => by
    show a ∈ [_, _] ↔ a ∈ [_, _, _]
    simp only [List.mem_cons, List.not_mem_nil, or_false]
    exact ⟨.inr, fun h => h.elim .inr id⟩
  obtain ⟨t'', next', changed', hstep', -, hperm⟩ := hsame _ hactive
  refine ⟨hused, hcandidate, t', next, changed, hstep, hborn, (hchanged _).mpr ?_, t'', next',
    changed', hstep', hperm⟩
  rw [hborn]
  decide +kernel

/-- On a Klein bottle as wide as the largest number a row of three is not stepped, though it is to
turn about its middle. -/
theorem no_step_on_widest_klein_bottle :
    let s := Surface.box .klein 9223372036854775807 4
    let g := Grid.ofList [(⟨1, 1⟩, 1), (⟨1, 2⟩, 1), (⟨1, 3⟩, 1)]
    fresh.InUse ∧ (∀ c ∈ g.coords, s.contains c = true) ∧
      (∀ c ∈ [⟨0, 2⟩, ⟨1, 2⟩, ⟨2, 2⟩],
        Rule.life.next 0 ((Rule.life.offsets 0).map fun o => g.get (s.resolve (c + o)))
          (g.get c) = 1) ∧
      fresh.stepInWords Rule.life s 0 g g.coords = .error (.add 1 9223372036854775807) := by
  intro s g
  have hperform : perform (fresh.stepArithmetic Rule.life s 0 g g.coords)
      = .error (.add 1 9223372036854775807) := by decide +kernel
  refine ⟨.fresh, by decide +kernel, by decide +kernel, ?_⟩
  unfold stepInWords
  rw [hperform]
  rfl

end Stepper

end

end Cellular
