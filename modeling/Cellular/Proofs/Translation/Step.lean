/-
A step and a displacement can be exchanged.

The plane and the torus look the same from each of their cells (`Uniform`): a coordinate may
be resolved before or after a displacement is added to it.  So to `slide` a pattern along
such a surface slides whatever its cells read, and with it the cells that are examined and
the states that they take.  On the torus a pattern slides around: the displacement may be
longer than the sides, and what crosses a seam comes back on the other side.

The one thing that does not slide is `nowhere`.  A step never writes it, so the cells that a
step looks at must be other cells, before they slide and after (`Apart`).  On a torus whose
sides fit into the coordinates of 64 bits they always are.
-/
import Cellular.Proofs.Step

namespace Cellular

/-! ### Surfaces without a preferred place -/

namespace Surface

/-- The surface looks the same from each of its cells. -/
inductive Uniform : Surface → Prop
  | plane : Uniform .plane
  | torus (width height : Int) : Uniform (.box .torus width height)

/-- The cell that lies displaced by `d` from another. -/
def slide (s : Surface) (d : Offset) (c : Coord) : Coord := s.resolve (c + d)

namespace Uniform

variable {s : Surface} (h : s.Uniform)

include h

theorem mirrors : s.mirrors = false := by
  cases h <;> rfl

/-- A coordinate may be resolved before a displacement is added. -/
theorem slide_resolve (d : Offset) (c : Coord) : s.slide d (s.resolve c) = s.resolve (c + d) := by
  cases h with
  | plane => rfl
  | torus width height =>
      ext
      · exact Axis.wrap_wrap_add c.row d.dy height
      · exact Axis.wrap_wrap_add c.col d.dx width

theorem contains_resolve (c : Coord) : s.contains (s.resolve c) = true := by
  cases h with
  | plane => rfl
  | torus width height =>
      rw [contains_box (by simp)]
      exact ⟨Axis.outside_wrap .., Axis.outside_wrap ..⟩

theorem contains_slide (d : Offset) (c : Coord) : s.contains (s.slide d c) = true :=
  h.contains_resolve (c + d)

/-- What a cell sees slides with it. -/
theorem resolve_slide_add (d o : Offset) (c : Coord) :
    s.resolve (s.slide d c + o) = s.slide d (s.resolve (c + o)) := by
  calc s.resolve (s.slide d c + o)
      = s.slide o (s.resolve (c + d)) := rfl
    _ = s.resolve (c + d + o) := h.slide_resolve o (c + d)
    _ = s.resolve (c + o + d) := by rw [Coord.add_right_comm]
    _ = s.slide d (s.resolve (c + o)) := (h.slide_resolve d (c + o)).symm

theorem slide_neg_slide (d : Offset) {c : Coord} (hc : s.contains c = true) :
    s.slide (-d) (s.slide d c) = c := by
  calc s.slide (-d) (s.slide d c)
      = s.resolve (c + d + -d) := h.slide_resolve (-d) (c + d)
    _ = c := by rw [Coord.add_neg_cancel, resolve_of_contains hc]

theorem slide_slide_neg (d : Offset) {c : Coord} (hc : s.contains c = true) :
    s.slide d (s.slide (-d) c) = c := by
  calc s.slide d (s.slide (-d) c)
      = s.resolve (c + -d + d) := h.slide_resolve d (c + -d)
    _ = c := by rw [Coord.neg_add_cancel, resolve_of_contains hc]

theorem eq_of_slide_eq {d : Offset} {a b : Coord} (ha : s.contains a = true)
    (hb : s.contains b = true) (hab : s.slide d a = s.slide d b) : a = b := by
  rw [← h.slide_neg_slide d ha, hab, h.slide_neg_slide d hb]

end Uniform

/-- A cell of a torus is not the coordinate that stands for no cell. -/
theorem ne_nowhere_of_torus {width height : Int} (hpos : 0 < width) (hwidth : width < 2 ^ 63)
    {c : Coord} (hc : (box .torus width height).contains c = true) : c ≠ nowhere := by
  rintro rfl
  rw [contains_box (by simp), Axis.outside_eq_false, Axis.outside_eq_false] at hc
  have hlast : (0x7fffffffffffffff : Int) < width := (hc.2 hpos).2
  omega

end Surface

/-! ### Patterns that slide -/

/-- The second pattern is the first one displaced by `d`, and neither has cells off the
surface. -/
structure Slid (s : Surface) (d : Offset) (g g' : Grid) : Prop where
  moved : ∀ c, s.contains c = true → g'.get (s.slide d c) = g.get c
  inside : ∀ c, g.get c ≠ 0 → s.contains c = true
  inside' : ∀ c, g'.get c ≠ 0 → s.contains c = true

/-- The second set of cells is the first one displaced by `d`. -/
def SlidSet (s : Surface) (d : Offset) (cs cs' : List Coord) : Prop :=
  ∀ a, a ∈ cs' ↔ ∃ b ∈ cs, s.slide d b = a

section

variable {s : Surface} {d : Offset} {g g' : Grid}

theorem slidSet_map (s : Surface) (d : Offset) (cs : List Coord) :
    SlidSet s d cs (cs.map (s.slide d)) := fun _ => List.mem_map

/-- The live cells slide as a set. -/
theorem Slid.coords (hs : s.Uniform) (h : Slid s d g g') : SlidSet s d g.coords g'.coords := by
  intro a
  rw [Grid.mem_coords]
  constructor
  · intro hlive
    have ha := h.inside' a hlive
    have hback : s.slide d (s.slide (-d) a) = a := hs.slide_slide_neg d ha
    refine ⟨s.slide (-d) a, Grid.mem_coords.mpr ?_, hback⟩
    rwa [← h.moved _ (hs.contains_slide (-d) a), hback]
  · rintro ⟨b, hb, rfl⟩
    rw [Grid.mem_coords] at hb
    rwa [h.moved b (h.inside b hb)]

/-- A pattern slides along the surface. -/
theorem slid_image (hs : s.Uniform) (hg : ∀ c, g.get c ≠ 0 → s.contains c = true) (d : Offset) :
    Slid s d g (g.image (s.slide d)) where
  moved := by
    intro c hc
    have hback : s.slide (-d) (s.slide d c) = c := hs.slide_neg_slide d hc
    have himage : (g.image (s.slide d)).get (s.slide d c) = g.get (s.slide (-d) (s.slide d c)) :=
      Grid.get_image_of_live (fun e he => hs.slide_neg_slide d (hg e he)) (by rw [hback])
    rw [himage, hback]
  inside := hg
  inside' := by
    intro c hlive
    by_contra hc
    refine hlive (Grid.get_image_of_not_moved ?_)
    rintro e - rfl
    exact hc (hs.contains_slide d e)

/-- What has slid as far from the same pattern is the same. -/
theorem Slid.sameCells (hs : s.Uniform) {g'' : Grid} (h : Slid s d g g') (h' : Slid s d g g'') :
    g'.sameCells g'' = true := by
  rw [Grid.sameCells_iff]
  intro c
  by_cases hc : s.contains c = true
  · rw [← hs.slide_slide_neg d hc, h.moved _ (hs.contains_slide ..),
      h'.moved _ (hs.contains_slide ..)]
  · have hzero : g'.get c = 0 := by
      by_contra hlive
      exact hc (h.inside' c hlive)
    have hzero' : g''.get c = 0 := by
      by_contra hlive
      exact hc (h'.inside' c hlive)
    rw [hzero, hzero']

end

/-! ### The cells that a step looks at -/

namespace Rule

variable {r : Rule} {s : Surface} {d : Offset} {g g' : Grid} {active active' : ActiveSet}

/-- No cell within the reach of a seed is `nowhere`, nor is it displaced there. -/
def Apart (r : Rule) (s : Surface) (d : Offset) (g : Grid) (active : ActiveSet) : Prop :=
  ∀ a ∈ r.seeds g active, ∀ o ∈ r.reach,
    s.resolve (a + o) ≠ Surface.nowhere ∧ s.slide d (s.resolve (a + o)) ≠ Surface.nowhere

/-- On a torus `nowhere` is out of reach. -/
theorem apart_of_torus {width height : Int} (hpos : 0 < width) (hwidth : width < 2 ^ 63) :
    r.Apart (.box .torus width height) d g active := fun _ _ _ _ =>
  ⟨Surface.ne_nowhere_of_torus hpos hwidth ((Surface.Uniform.torus ..).contains_resolve _),
    Surface.ne_nowhere_of_torus hpos hwidth ((Surface.Uniform.torus ..).contains_slide ..)⟩

/-- A cell that has slid reads what it read before. -/
theorem nextAt_slide (hs : s.Uniform) (h : Slid s d g g') (phase : Nat) {c : Coord}
    (hc : s.contains c = true) :
    r.nextAt s phase g'.get (s.slide d c) = r.nextAt s phase g.get c := by
  rw [nextAt_eq, nextAt_eq, h.moved c hc]
  congr 1
  refine List.map_congr_left fun o _ => ?_
  rw [hs.resolve_slide_add, h.moved _ (hs.contains_resolve _)]

theorem seeds_slide (hs : s.Uniform) (h : Slid s d g g') (hactive : SlidSet s d active active') :
    SlidSet s d (r.seeds g active) (r.seeds g' active') := by
  intro a
  unfold seeds
  split
  · rw [List.mem_append, hactive a, h.coords hs a]
    simp only [List.mem_append, or_and_right, exists_or]
  · exact hactive a

/-- A cell that has slid is examined if and only if it was before. -/
theorem examined_slide (hs : s.Uniform) (h : Slid s d g g') (hactive : SlidSet s d active active')
    (hfar : r.Apart s d g active) {c : Coord} (hc : s.contains c = true) :
    r.Examined s g' active' (s.slide d c) ↔ r.Examined s g active c := by
  simp only [Examined, Surface.mem_affected_of_not_mirrors hs.mirrors]
  constructor
  · rintro ⟨a, ha, -, o, ho, hreach⟩
    obtain ⟨b, hb, rfl⟩ := (seeds_slide hs h hactive a).mp ha
    rw [hs.resolve_slide_add] at hreach
    obtain rfl := hs.eq_of_slide_eq hc (hs.contains_resolve _) hreach
    exact ⟨b, hb, (hfar b hb o ho).1, o, ho, rfl⟩
  · rintro ⟨b, hb, -, o, ho, rfl⟩
    have hseed := (seeds_slide hs h hactive _).mpr ⟨b, hb, rfl⟩
    refine ⟨s.slide d b, hseed, (hfar b hb o ho).2, o, ho, ?_⟩
    exact (hs.resolve_slide_add d o b).symm

end Rule

/-! ### One step -/

namespace Stepper

variable {t t' : Stepper} {r : Rule} {s : Surface} {d : Offset} {g g' : Grid}
  {active active' : ActiveSet}

/-- **A step takes patterns that slide to patterns that slide.** -/
theorem slid_step (hs : s.Uniform) (h : Slid s d g g') (hactive : SlidSet s d active active')
    (hfar : r.Apart s d g active) (ht : t.candidates.Valid) (ht' : t'.candidates.Valid)
    (generation : Nat) :
    Slid s d (t.step r s generation g active).2.1 (t'.step r s generation g' active').2.1 where
  moved := by
    intro c hc
    by_cases hex : r.Examined s g active c
    · rw [get_step_of_examined ht generation hex,
        get_step_of_examined ht' generation ((r.examined_slide hs h hactive hfar hc).mpr hex),
        r.nextAt_slide hs h _ hc]
    · rw [get_step_of_not_examined ht generation hex, get_step_of_not_examined ht' generation
        fun hslid => hex ((r.examined_slide hs h hactive hfar hc).mp hslid), h.moved c hc]
  inside := by
    intro c hlive
    by_cases hex : r.Examined s g active c
    · exact hex.contains
    · rw [get_step_of_not_examined ht generation hex] at hlive
      exact h.inside c hlive
  inside' := by
    intro c hlive
    by_cases hex : r.Examined s g' active' c
    · exact hex.contains
    · rw [get_step_of_not_examined ht' generation hex] at hlive
      exact h.inside' c hlive

/-- The cells that change slide as well. -/
theorem slidSet_changed (hs : s.Uniform) (h : Slid s d g g') (hactive : SlidSet s d active active')
    (hfar : r.Apart s d g active) (ht : t.candidates.Valid) (ht' : t'.candidates.Valid)
    (generation : Nat) :
    SlidSet s d (t.step r s generation g active).2.2 (t'.step r s generation g' active').2.2 := by
  have hsame : ∀ c, s.contains c = true →
      (s.slide d c ∈ (t'.step r s generation g' active').2.2 ↔
        c ∈ (t.step r s generation g active).2.2) := by
    intro c hc
    rw [mem_changed ht, mem_changed ht', r.examined_slide hs h hactive hfar hc,
      r.nextAt_slide hs h _ hc, h.moved c hc]
  intro a
  constructor
  · intro ha
    have hin : s.contains a = true := ((mem_changed ht').mp ha).1.contains
    have hback : s.slide d (s.slide (-d) a) = a := hs.slide_slide_neg d hin
    rw [← hback, hsame _ (hs.contains_slide ..)] at ha
    exact ⟨_, ha, hback⟩
  · rintro ⟨b, hb, rfl⟩
    exact (hsame b ((mem_changed ht).mp hb).1.contains).mpr hb

/--
**A step and a displacement can be exchanged.**  On the plane and on a torus the step makes
of a pattern that is displaced first, together with its active cells, the displaced pattern,
and the cells that change are the displaced ones.

The steppers may have been used before, for whatever it was.
-/
theorem step_slide (hs : s.Uniform) (hg : ∀ c, g.get c ≠ 0 → s.contains c = true)
    (hfar : r.Apart s d g active) (ht : t.candidates.Valid) (ht' : t'.candidates.Valid)
    (generation : Nat) :
    (t'.step r s generation (g.image (s.slide d)) (active.map (s.slide d))).2.1.sameCells
        ((t.step r s generation g active).2.1.image (s.slide d)) = true ∧
      ((t'.step r s generation (g.image (s.slide d)) (active.map (s.slide d))).2.2).Perm
        ((t.step r s generation g active).2.2.map (s.slide d)) := by
  have hgrid := slid_image hs hg d
  have hactive := slidSet_map s d active
  have hstep := slid_step hs hgrid hactive hfar ht ht' generation
  refine ⟨hstep.sameCells hs (slid_image hs hstep.inside d), ?_⟩
  have hnodup : ((t.step r s generation g active).2.2.map (s.slide d)).Nodup :=
    (nodup_changed ht generation g active).map_on fun a ha b hb hab =>
      hs.eq_of_slide_eq ((mem_changed ht).mp ha).1.contains ((mem_changed ht).mp hb).1.contains hab
  rw [List.perm_ext_iff_of_nodup (nodup_changed ht' generation _ _) hnodup]
  intro a
  rw [slidSet_changed hs hgrid hactive hfar ht ht' generation a, List.mem_map]

end Stepper

end Cellular
