/-
Surfaces are consistent.

A coordinate that resolves to a cell at all resolves to a cell of the surface, and a
cell of the surface resolves to itself.  So a cell that sees another through an offset
sees a cell of the surface or nothing, and resolving is a retraction: what it is applied
to a second time it leaves alone, and what it leaves alone is the surface
(`resolve_retracts`).
-/
import Mathlib.Tactic.Ring
import Cellular.Surface.Basic

namespace Cellular

/-! ### Cells that are far from the limits -/

/-- Does the cell lie in the inner half of the coordinates of 64 bits? -/
def Coord.InRange (c : Coord) : Prop :=
  -(2 ^ 62) < c.row ∧ c.row < 2 ^ 62 ∧ -(2 ^ 62) < c.col ∧ c.col < 2 ^ 62

instance (c : Coord) : Decidable c.InRange := inferInstanceAs (Decidable (_ ∧ _))

theorem Coord.nowhere_not_inRange : ¬Surface.nowhere.InRange := by decide

theorem Coord.InRange.ne_nowhere {c : Coord} (h : c.InRange) : c ≠ Surface.nowhere := by
  intro heq
  rw [heq] at h
  exact Coord.nowhere_not_inRange h

/-! ### One axis -/

namespace Axis

theorem outside_eq_false {c size : Int} :
    outside c size = false ↔ (0 < size → 0 ≤ c ∧ c < size) := by
  unfold outside
  rw [Bool.and_eq_false_iff, Bool.or_eq_false_iff, decide_eq_false_iff_not,
    decide_eq_false_iff_not, decide_eq_false_iff_not]
  omega

/-- An axis that is not glued has no outside. -/
theorem outside_of_nonpos (c : Int) {size : Int} (hs : size ≤ 0) : outside c size = false :=
  outside_eq_false.mpr fun hpos => absurd hs (by omega)

/-- A position beyond the size lies on an axis that is not glued. -/
theorem nonpos_of_le {c size : Int} (h : outside c size = false) (hle : size ≤ c) : size ≤ 0 := by
  rw [outside_eq_false] at h
  omega

theorem outside_wrap (c size : Int) : outside (wrap c size) size = false := by
  rw [outside_eq_false]
  intro hs
  unfold wrap
  rw [if_pos hs]
  exact ⟨Int.emod_nonneg _ (by omega), Int.emod_lt_of_pos _ hs⟩

theorem wrap_of_inside {c size : Int} (h : outside c size = false) : wrap c size = c := by
  rw [outside_eq_false] at h
  unfold wrap
  split
  · rename_i hs
    exact Int.emod_eq_of_lt (h hs).1 (h hs).2
  · rfl

theorem wrap_wrap_add (c d size : Int) : wrap (wrap c size + d) size = wrap (c + d) size := by
  unfold wrap
  split
  · exact Int.emod_add_emod ..
  · rfl

/-- Mirroring twice leads to the same position of the box. -/
theorem mirror_wrap_mirror (c size : Int) :
    mirror (wrap (mirror c size) size) size = wrap c size := by
  unfold mirror wrap
  split
  · rename_i hs
    have hnonneg := Int.emod_nonneg c (by omega : size ≠ 0)
    have hlt := Int.emod_lt_of_pos c hs
    rcases eq_or_ne (c % size) 0 with hz | hnz
    · simp [hz]
    · have hin : (size - c % size) % size = size - c % size :=
        Int.emod_eq_of_lt (by omega) (by omega)
      rw [hin, hin, hin, Int.sub_sub_self, Int.emod_emod_of_dvd _ (Int.dvd_refl size)]
  · rfl

theorem crossesOdd_of_inside {c size : Int} (h : outside c size = false) :
    crossesOdd c size = false := by
  rw [outside_eq_false] at h
  unfold crossesOdd
  by_cases hs : 0 < size
  · rw [Int.ediv_eq_zero_of_lt (h hs).1 (h hs).2]
    simp
  · simp [hs]

theorem outside_reflect (c size : Int) : outside (reflect c size) size = false := by
  rw [outside_eq_false]
  intro hs
  unfold reflect
  have hn1 := Int.emod_nonneg (-c - 1) (by omega : size ≠ 0)
  have hl1 := Int.emod_lt_of_pos (-c - 1) hs
  have hn2 := Int.emod_nonneg c (by omega : size ≠ 0)
  have hl2 := Int.emod_lt_of_pos c hs
  split
  · omega
  · split <;> omega

theorem reflect_of_inside {c size : Int} (h : outside c size = false) : reflect c size = c := by
  rw [outside_eq_false] at h
  unfold reflect
  rw [if_pos (by omega)]

end Axis

namespace Surface

/-! ### Cells and coordinates -/

theorem contains_box {joining : Joining} {width height : Int} (hj : joining ≠ .rectangle)
    {c : Coord} : (box joining width height).contains c = true ↔
      Axis.outside c.row height = false ∧ Axis.outside c.col width = false := by
  cases joining <;> simp [contains] at hj ⊢

theorem contains_rectangle {width height : Int} {c : Coord} :
    (box .rectangle width height).contains c = true ↔
      (box .rectangle width height).resolve c ≠ nowhere := decide_eq_true_iff

/-- The rectangle discards a coordinate or leaves it as it is. -/
theorem resolve_rectangle (width height : Int) (c : Coord) :
    (box .rectangle width height).resolve c = nowhere ∨
      (box .rectangle width height).resolve c = c := by
  simp only [resolve]
  split
  · exact Or.inl rfl
  · exact Or.inr rfl

/-- On a box that is glued every coordinate resolves to a cell. -/
theorem contains_resolve_box {joining : Joining} (hj : joining ≠ .rectangle) (width height : Int)
    (c : Coord) :
    (box joining width height).contains ((box joining width height).resolve c) = true := by
  rw [contains_box hj]
  cases joining with
  | torus => exact ⟨Axis.outside_wrap .., Axis.outside_wrap ..⟩
  | klein => exact ⟨Axis.outside_wrap .., Axis.outside_wrap ..⟩
  | crossSurface => exact ⟨Axis.outside_wrap .., Axis.outside_wrap ..⟩
  | sphere => exact ⟨Axis.outside_reflect .., Axis.outside_reflect ..⟩
  | rectangle => exact absurd rfl hj

/-- **A coordinate resolves to a cell of the surface.** -/
theorem contains_resolve {s : Surface} {c : Coord} (h : s.resolve c ≠ nowhere) :
    s.contains (s.resolve c) = true := by
  cases s with
  | plane => rfl
  | box joining width height =>
      by_cases hj : joining = .rectangle
      · subst hj
        rw [contains_rectangle]
        rcases resolve_rectangle width height c with hc | hc
        · exact absurd hc h
        · rw [hc]
          exact h
      · exact contains_resolve_box hj width height c

/-- **A cell of the surface resolves to itself.** -/
theorem resolve_of_contains {s : Surface} {c : Coord} (h : s.contains c = true) :
    s.resolve c = c := by
  cases s with
  | plane => rfl
  | box joining width height =>
      cases joining with
      | torus =>
          obtain ⟨hr, hc⟩ := (contains_box (by simp)).mp h
          ext
          · exact Axis.wrap_of_inside hr
          · exact Axis.wrap_of_inside hc
      | klein =>
          obtain ⟨hr, hc⟩ := (contains_box (by simp)).mp h
          unfold resolve
          simp only [Axis.crossesOdd_of_inside hc, Bool.false_eq_true, if_false,
            Axis.wrap_of_inside hr, Axis.wrap_of_inside hc]
      | crossSurface =>
          obtain ⟨hr, hc⟩ := (contains_box (by simp)).mp h
          unfold resolve
          simp only [Axis.crossesOdd_of_inside hr, Axis.crossesOdd_of_inside hc,
            Bool.false_eq_true, if_false, Axis.wrap_of_inside hr, Axis.wrap_of_inside hc]
      | sphere =>
          obtain ⟨hr, hc⟩ := (contains_box (by simp)).mp h
          ext
          · exact Axis.reflect_of_inside hr
          · exact Axis.reflect_of_inside hc
      | rectangle =>
          rcases resolve_rectangle width height c with hc | hc
          · exact absurd hc (contains_rectangle.mp h)
          · exact hc

/-! ### Resolving twice -/

/-- Only the rectangle has coordinates that do not resolve to a cell. -/
theorem contains_resolve_or (s : Surface) (c : Coord) :
    s.contains (s.resolve c) = true ∨
      s.resolve c = nowhere ∧ ∃ width height, s = box .rectangle width height := by
  cases s with
  | plane => exact Or.inl rfl
  | box joining width height =>
      by_cases hj : joining = .rectangle
      · subst hj
        by_cases hc : (box .rectangle width height).resolve c = nowhere
        · exact Or.inr ⟨hc, width, height, rfl⟩
        · exact Or.inl (contains_resolve hc)
      · exact Or.inl (contains_resolve_box hj width height c)

theorem resolve_resolve (s : Surface) (c : Coord) : s.resolve (s.resolve c) = s.resolve c := by
  rcases contains_resolve_or s c with hon | ⟨hoff, width, height, rfl⟩
  · exact resolve_of_contains hon
  · rw [hoff]
    exact (resolve_rectangle width height nowhere).elim id id

theorem contains_iff_resolve_eq {s : Surface} {c : Coord} (hc : c ≠ nowhere) :
    s.contains c = true ↔ s.resolve c = c := by
  refine ⟨resolve_of_contains, fun hfix => ?_⟩
  have hon : s.contains (s.resolve c) = true := contains_resolve (by rwa [hfix])
  rwa [hfix] at hon

/-- Are the sizes integers of 64 bits? -/
def Fits : Surface → Prop
  | plane => True
  | box _ width height => (-(2 ^ 63) ≤ width ∧ width < 2 ^ 63) ∧ -(2 ^ 63) ≤ height ∧ height < 2 ^ 63

instance : (s : Surface) → Decidable s.Fits
  | plane => inferInstanceAs (Decidable True)
  | box _ _ _ => inferInstanceAs (Decidable (_ ∧ _))

/-- A box that is glued is too small for the coordinate that stands for no cell. -/
theorem resolve_box_ne_nowhere {joining : Joining} (hj : joining ≠ .rectangle)
    {width height : Int} (hfit : (box joining width height).Fits) {c : Coord} (hc : c ≠ nowhere) :
    (box joining width height).resolve c ≠ nowhere := by
  intro hoff
  have hon := contains_resolve_box hj width height c
  rw [hoff, contains_box hj] at hon
  obtain ⟨⟨-, hwidth⟩, -, hheight⟩ := hfit
  -- Neither axis is glued, so every coordinate is a cell.
  have hrow : height ≤ 0 := Axis.nonpos_of_le hon.1 (Int.le_sub_one_of_lt hheight)
  have hcol : width ≤ 0 := Axis.nonpos_of_le hon.2 (Int.le_sub_one_of_lt hwidth)
  have hcell : (box joining width height).contains c = true :=
    (contains_box hj).mpr ⟨Axis.outside_of_nonpos c.row hrow, Axis.outside_of_nonpos c.col hcol⟩
  exact hc ((resolve_of_contains hcell).symm.trans hoff)

/--
**Resolving is a retraction onto the surface.**  Whatever the surface and its sizes, zero and
negative ones included, and for every coordinate but the one that stands for no cell: resolving
twice is the same as resolving once; the result is a cell of the surface, or else the surface is
a rectangle and there is no cell; and the cells are the coordinates that resolve to themselves.
Where the sizes are integers of 64 bits, nothing but a rectangle ever answers that there is no
cell.
-/
theorem resolve_retracts (s : Surface) {c : Coord} (hc : c ≠ nowhere) :
    s.resolve (s.resolve c) = s.resolve c ∧
      (s.contains (s.resolve c) = true ∨
        s.resolve c = nowhere ∧ ∃ width height, s = box .rectangle width height) ∧
      (s.Fits → s.resolve c = nowhere → ∃ width height, s = box .rectangle width height) ∧
      (s.contains c = true ↔ s.resolve c = c) := by
  refine ⟨resolve_resolve s c, contains_resolve_or s c, fun hfit hoff => ?_,
    contains_iff_resolve_eq hc⟩
  cases s with
  | plane => exact absurd hoff hc
  | box joining width height =>
      by_cases hj : joining = .rectangle
      · exact ⟨width, height, by rw [hj]⟩
      · exact absurd hoff (resolve_box_ne_nowhere hj hfit hc)

/-- One coordinate, three boxes above and three to the left: a cross surface turns both its row
and its column over, a rectangle discards it. -/
theorem resolve_retracts_through_seams :
    let cross := box .crossSurface 3 2
    let rectangle := box .rectangle 3 2
    (⟨-5, -7⟩ : Coord) ≠ nowhere ∧ cross.Fits ∧
      cross.resolve ⟨-5, -7⟩ = ⟨1, 1⟩ ∧ cross.resolve ⟨-5, -7⟩ ≠ nowhere ∧
      cross.resolve (cross.resolve ⟨-5, -7⟩) = ⟨1, 1⟩ ∧ cross.contains ⟨1, 1⟩ = true ∧
      rectangle.resolve ⟨-5, -7⟩ = nowhere ∧
      rectangle.resolve (rectangle.resolve ⟨-5, -7⟩) = nowhere := by
  have hc : (⟨-5, -7⟩ : Coord) ≠ nowhere := by decide
  have hfit : (box .crossSurface 3 2).Fits := by decide
  have hcross : (box .crossSurface 3 2).resolve ⟨-5, -7⟩ = ⟨1, 1⟩ := by decide
  have hrectangle : (box .rectangle 3 2).resolve ⟨-5, -7⟩ = nowhere := by decide
  obtain ⟨htwice, hon, honly, -⟩ := resolve_retracts (box .crossSurface 3 2) hc
  obtain ⟨htwice', -, -, -⟩ := resolve_retracts (box .rectangle 3 2) hc
  have hne : (box .crossSurface 3 2).resolve ⟨-5, -7⟩ ≠ nowhere := fun hoff => by
    obtain ⟨width, height, hbox⟩ := honly hfit hoff
    simp at hbox
  refine ⟨hc, hfit, hcross, hne, htwice.trans hcross, ?_, hrectangle, htwice'.trans hrectangle⟩
  rw [← hcross]
  exact hon.resolve_right fun hoff => hne hoff.1

end Surface

end Cellular
