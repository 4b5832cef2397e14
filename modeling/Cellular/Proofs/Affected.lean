/-
The cells that a change can affect.

`affected` is complete: whatever the surface, the cells that see a changed cell through an offset
are among the ones it lists.  On the plane, the torus and the rectangle the opposite offset leads
straight back.  On a surface that mirrors it leads back from one of the other coordinates of the
changed cell, all of which `preimages` lists as far as the offsets of a rule reach.
-/
import Cellular.Evolution.Step
import Cellular.Proofs.Preimages

namespace Cellular

namespace Surface

/-- The cells that a change of `c` may affect, in the order in which a step comes to them. -/
def affected (s : Surface) (reach : List Offset) (margin : Nat) (c : Coord) : List Coord :=
  if s.mirrors then
    (s.preimages (s.resolve c) margin).flatMap fun p =>
      (reach.map fun o => p + o).filter s.contains
  else (reach.map fun o => s.resolve (c + o)).filter (· ≠ nowhere)

/-- A cell of the surface is near the box, and so is what it sees. -/
theorem near_add {joining : Joining} (hj : joining ≠ .rectangle) {width height : Int} {c : Coord}
    (hc : (box joining width height).contains c = true) {o : Offset} {margin : Nat}
    (ho : o.radius ≤ margin) : (box joining width height).Near margin (c + o) := by
  obtain ⟨hr, hcol⟩ := (contains_box hj).mp hc
  rw [Axis.outside_eq_false] at hr hcol
  unfold Offset.radius at ho
  simp only [Near, Coord.add_row, Coord.add_col]
  omega

/-- Where nothing is mirrored the affected cells are those within the reach. -/
theorem mem_affected_of_not_mirrors {s : Surface} (hs : s.mirrors = false) {reach : List Offset}
    {margin : Nat} {a c : Coord} :
    c ∈ s.affected reach margin a ↔ c ≠ nowhere ∧ ∃ o ∈ reach, c = s.resolve (a + o) := by
  unfold affected
  rw [if_neg (by simp [hs]), List.mem_filter, List.mem_map, decide_eq_true_eq, and_comm]
  simp only [eq_comm]

/-- A surface that mirrors is a box that is glued. -/
theorem box_of_mirrors {s : Surface} (hs : s.mirrors = true) :
    ∃ joining width height, joining ≠ .rectangle ∧ s = box joining width height := by
  cases s with
  | plane => simp [mirrors] at hs
  | box joining width height =>
      refine ⟨joining, width, height, ?_, rfl⟩
      rintro rfl
      simp [mirrors] at hs

/-- On a surface that mirrors the affected cells are those within the reach of a coordinate near
the box that names the changed cell. -/
theorem mem_affected_of_mirrors {s : Surface} (hs : s.mirrors = true) {reach : List Offset}
    {margin : Nat} {a c : Coord} :
    c ∈ s.affected reach margin a ↔ s.contains c = true ∧
      ∃ p, (s.resolve p = s.resolve a ∧ s.Near margin p) ∧ ∃ o ∈ reach, c = p + o := by
  unfold affected
  rw [if_pos hs]
  obtain ⟨joining, width, height, hj, rfl⟩ := box_of_mirrors hs
  simp only [List.mem_flatMap, mem_preimages_iff hj (contains_resolve_box hj width height a),
    List.mem_filter, List.mem_map]
  constructor
  · rintro ⟨p, hp, ⟨o, ho, rfl⟩, hc⟩
    exact ⟨hc, p, hp, o, ho, rfl⟩
  · rintro ⟨hc, p, hp, o, ho, rfl⟩
    exact ⟨p, hp, ⟨o, ho, rfl⟩, hc⟩

/-- Only cells of the surface are affected. -/
theorem contains_of_mem_affected {s : Surface} {reach : List Offset} {margin : Nat}
    {a c : Coord} (h : c ∈ s.affected reach margin a) : s.contains c = true := by
  unfold affected at h
  split at h
  · obtain ⟨p, -, hp⟩ := List.mem_flatMap.mp h
    exact (List.mem_filter.mp hp).2
  · obtain ⟨hmem, hne⟩ := List.mem_filter.mp h
    obtain ⟨o, -, rfl⟩ := List.mem_map.mp hmem
    exact contains_resolve (by simpa using hne)

/-- On a surface without mirrors the opposite offset leads straight back. -/
theorem resolve_back {s : Surface} (hs : s.mirrors = false) {c : Coord} {o : Offset}
    (hc : s.contains c = true) (hread : s.contains (s.resolve (c + o)) = true) :
    s.resolve (s.resolve (c + o) + -o) = c := by
  cases s with
  | plane => exact Coord.add_neg_cancel c o
  | box joining width height =>
      cases joining with
      | klein => simp [mirrors] at hs
      | crossSurface => simp [mirrors] at hs
      | sphere => simp [mirrors] at hs
      | torus =>
          obtain ⟨hr, hcol⟩ := (contains_box (by simp)).mp hc
          ext
          · show Axis.wrap (Axis.wrap (c.row + o.dy) height + -o.dy) height = c.row
            rw [Axis.wrap_wrap_add, Int.add_neg_cancel_right, Axis.wrap_of_inside hr]
          · show Axis.wrap (Axis.wrap (c.col + o.dx) width + -o.dx) width = c.col
            rw [Axis.wrap_wrap_add, Int.add_neg_cancel_right, Axis.wrap_of_inside hcol]
      | rectangle =>
          have hback : (box .rectangle width height).resolve (c + o) = c + o := by
            rcases resolve_rectangle width height (c + o) with hn | hn
            · rw [hn] at hread
              exact absurd (resolve_of_contains hread) (contains_rectangle.mp hread)
            · exact hn
          rw [hback, Coord.add_neg_cancel, resolve_of_contains hc]

/--
**`affected` is complete.**  A cell that sees another through an offset of the rule is
listed among the cells that a change of the other can affect.  Only where nothing is
mirrored `nowhere` is left out.
-/
theorem mem_affected {s : Surface} {reach : List Offset} {margin : Nat} {c : Coord} {o : Offset}
    (hc : s.contains c = true) (hne : s.mirrors = true ∨ c ≠ nowhere) (ho : -o ∈ reach)
    (hm : o.radius ≤ margin) (hread : s.contains (s.resolve (c + o)) = true) :
    c ∈ s.affected reach margin (s.resolve (c + o)) := by
  by_cases hs : s.mirrors = true
  · refine (mem_affected_of_mirrors hs).mpr ⟨hc, c + o, ⟨?_, ?_⟩, -o, ho, ?_⟩
    · exact (resolve_of_contains hread).symm
    · obtain ⟨joining, width, height, hj, rfl⟩ := box_of_mirrors hs
      exact near_add hj hc hm
    · exact (Coord.add_neg_cancel c o).symm
  · have hs' : s.mirrors = false := Bool.eq_false_iff.mpr hs
    exact (mem_affected_of_not_mirrors hs').mpr
      ⟨hne.resolve_left hs, -o, ho, (resolve_back hs' hc hread).symm⟩

/-- Where nothing is mirrored no change affects the coordinate that stands for no cell. -/
theorem nowhere_not_mem_affected {s : Surface} (hs : s.mirrors = false) {reach : List Offset}
    {margin : Nat} {a : Coord} : nowhere ∉ s.affected reach margin a :=
  fun h => ((mem_affected_of_not_mirrors hs).mp h).1 rfl

/-- On the plane the affected cells are those within the reach. -/
theorem mem_affected_plane {reach : List Offset} {margin : Nat} {a c : Coord} :
    c ∈ plane.affected reach margin a ↔ c ≠ nowhere ∧ ∃ o ∈ reach, c = a + o :=
  mem_affected_of_not_mirrors rfl

end Surface

end Cellular
