/-
Which coordinates name the same cell.

On a torus and on a Klein bottle the plane is covered by copies of the box, and on a Klein
bottle every second copy to the side is upside down.  The moves of the plane from copy to copy
make a group: two of them, one after the other, are a third (`glide_glide`).  None of them
changes the cell that a coordinate names (`turned_glide`), and one of them leads to each
coordinate from its cell (`exists_glide_turned`).  So two coordinates name the same cell exactly
if a move leads from one to the other (`resolve_eq_iff`).
-/
import Mathlib.Data.Int.Order.Units
import Mathlib.Data.ZMod.IntUnitsPower
import Mathlib.Tactic.Ring
import Cellular.Proofs.Surface

namespace Cellular

namespace Surface

/-! ### Moves from copy to copy

`turn` is what a copy does to the rows of the one to its left: 1 leaves them in place and -1
turns them over.
-/

/-- The move by so many copies down and to the right. -/
def glide (turn : Intˣ) (width height down right : Int) (c : Coord) : Coord :=
  ⟨(turn ^ right : Intˣ) * c.row + down * height, c.col + right * width⟩

/-- The cell that a coordinate names, if every copy that it lies to the right turns the rows. -/
def turned (turn : Intˣ) (width height : Int) (c : Coord) : Coord :=
  ⟨((turn ^ (c.col / width) : Intˣ) * c.row) % height, c.col % width⟩

section

variable {turn : Intˣ} {width height : Int}

/-- Turning the rows over twice leaves them in place. -/
theorem turn_turn (turn : Intˣ) (n row : Int) :
    ((turn ^ n : Intˣ) : Int) * ((turn ^ n : Intˣ) * row) = row := by
  rw [← mul_assoc, ← Units.val_mul, Int.units_mul_self, Units.val_one, one_mul]

theorem glide_glide (down right down' right' : Int) (c : Coord) :
    glide turn width height down right (glide turn width height down' right' c)
      = glide turn width height (down + (turn ^ right : Intˣ) * down') (right + right') c := by
  unfold glide
  ext
  · simp only [zpow_add, Units.val_mul]
    ring
  · simp only
    ring

/-- A move does not change the cell that a coordinate names. -/
theorem turned_glide (hw : 0 < width) (down right : Int) (c : Coord) :
    turned turn width height (glide turn width height down right c)
      = turned turn width height c := by
  have hcopy : (c.col + right * width) / width = c.col / width + right :=
    Int.add_mul_ediv_right _ _ hw.ne'
  ext
  · simp only [turned, glide, hcopy, zpow_add, Units.val_mul]
    rw [mul_assoc, mul_add, turn_turn, mul_add, ← mul_assoc, ← mul_assoc,
      Int.add_mul_emod_self_right]
  · exact Int.add_mul_emod_self_right ..

/-- From its cell a coordinate is reached by a move. -/
theorem exists_glide_turned (turn : Intˣ) (width height : Int) (c : Coord) :
    ∃ down right, glide turn width height down right (turned turn width height c) = c := by
  let side : Int := (turn ^ (c.col / width) : Intˣ)
  have hrow : side * c.row % height = side * c.row - side * c.row / height * height := by
    rw [Int.emod_def, mul_comm height]
  refine ⟨side * (side * c.row / height), c.col / width, ?_⟩
  ext
  · show side * (side * c.row % height) + side * (side * c.row / height) * height = c.row
    rw [hrow, mul_sub, turn_turn]
    ring
  · exact Int.emod_add_ediv_mul c.col width

/-- **Two coordinates name the same cell if and only if a move leads from one to the other.** -/
theorem turned_eq_iff (hw : 0 < width) {p q : Coord} :
    turned turn width height p = turned turn width height q ↔
      ∃ down right, q = glide turn width height down right p := by
  constructor
  · intro hcell
    obtain ⟨down, right, hp⟩ := exists_glide_turned turn width height p
    obtain ⟨down', right', hq⟩ := exists_glide_turned turn width height q
    -- Back to the cell that both name, and from there on.
    refine ⟨down' - (turn ^ (right' - right) : Intˣ) * down, right' - right, ?_⟩
    rw [← hp, glide_glide, hcell, sub_add_cancel, sub_add_cancel, hq]
  · rintro ⟨down, right, rfl⟩
    exact (turned_glide hw down right p).symm

/-! ### The torus and the Klein bottle -/

theorem exists_copy_iff {a b size : Int} : (∃ k, b = a + k * size) ↔ size ∣ a - b := by
  constructor
  · rintro ⟨k, rfl⟩
    exact ⟨-k, by ring⟩
  · rintro ⟨k, hk⟩
    refine ⟨-k, ?_⟩
    rw [neg_mul, mul_comm k, ← hk]
    ring

theorem resolve_torus (hw : 0 < width) (hh : 0 < height) (c : Coord) :
    (box .torus width height).resolve c = turned 1 width height c := by
  simp only [resolve, turned, Axis.wrap, if_pos hw, if_pos hh, one_zpow, Units.val_one, one_mul]

theorem resolve_klein (hw : 0 < width) (hh : 0 < height) (c : Coord) :
    (box .klein width height).resolve c = turned (-1) width height c := by
  have hodd : Axis.crossesOdd c.col width = true ↔ Odd (c.col / width) := by
    rw [Int.odd_iff]
    simp [Axis.crossesOdd, hw]
  simp only [resolve, turned, Axis.wrap, Axis.mirror, if_pos hw, if_pos hh, hodd]
  split
  · rename_i h
    have hmirror : height - c.row % height = -c.row + (c.row / height + 1) * height := by
      rw [Int.emod_def]
      ring
    rw [h.neg_one_zpow, Units.val_neg, Units.val_one, neg_one_mul, hmirror,
      Int.add_mul_emod_self_right, Int.emod_emod_of_dvd _ (Int.dvd_refl height)]
  · rename_i h
    rw [Int.not_odd_iff_even] at h
    rw [h.neg_one_zpow, Units.val_one, one_mul]

end

/--
**A torus and a Klein bottle are quotients of the plane.**  For all positive sizes: on a torus
two coordinates name the same cell if and only if their rows differ by a multiple of the height
and their columns by a multiple of the width; on a Klein bottle if and only if their columns
differ by some number of widths and their rows, the first of them negated once for each of these
widths, by a multiple of the height.
-/
theorem resolve_eq_iff {width height : Int} (hw : 0 < width) (hh : 0 < height) (p q : Coord) :
    ((box .torus width height).resolve p = (box .torus width height).resolve q ↔
        height ∣ p.row - q.row ∧ width ∣ p.col - q.col) ∧
      ((box .klein width height).resolve p = (box .klein width height).resolve q ↔
        ∃ i j : Int, q.col = p.col + j * width ∧
          q.row = ((-1) ^ j : Intˣ) * p.row + i * height) := by
  rw [resolve_torus hw hh, resolve_torus hw hh, resolve_klein hw hh, resolve_klein hw hh,
    turned_eq_iff hw, turned_eq_iff hw]
  constructor
  · rw [← exists_copy_iff, ← exists_copy_iff]
    simp only [Coord.ext_iff, glide, one_zpow, Units.val_one, one_mul, exists_and_left,
      exists_and_right]
  · refine exists_congr fun i => exists_congr fun j => ?_
    rw [Coord.ext_iff, and_comm]
    rfl

/-- One seam to the left: the row is turned over on a Klein bottle, and stays on a torus. -/
theorem resolve_eq_of_one_seam :
    0 < (8 : Int) ∧ 0 < (6 : Int) ∧
      (box .klein 8 6).resolve ⟨2, 3⟩ = (box .klein 8 6).resolve ⟨10, -5⟩ ∧
      (box .torus 8 6).resolve ⟨2, 3⟩ ≠ (box .torus 8 6).resolve ⟨10, -5⟩ := by
  have hw : 0 < (8 : Int) := by decide
  have hh : 0 < (6 : Int) := by decide
  obtain ⟨htorus, hklein⟩ := resolve_eq_iff hw hh ⟨2, 3⟩ ⟨10, -5⟩
  refine ⟨hw, hh, hklein.mpr ⟨2, -1, by decide, by decide⟩, fun heq => ?_⟩
  exact absurd (htorus.mp heq).1 (by decide)

end Surface

end Cellular
