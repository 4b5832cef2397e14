/-
The coordinates that resolve to a cell.

Every position of an axis is a position of the box and a number of boxes in one way only, so a
list that goes through the copies of the box meets each coordinate once.  On the torus, the Klein
bottle and the cross surface the copy that a coordinate lies in tells how to undo what its
crossings did to it; on the sphere a reflection undoes itself.  So `preimages` lists the
coordinates that resolve to a cell of the surface, all of them within the margin and each of them
once, however often the margin goes around the box.
-/
import Mathlib.Data.List.Nodup
import Mathlib.Tactic.Ring
import Cellular.Surface.Preimages
import Cellular.Proofs.Grid
import Cellular.Proofs.Surface

namespace Cellular

theorem nodup_between (lo hi : Int) : (between lo hi).Nodup :=
  List.Nodup.map (fun i j hij => by simpa using hij) List.nodup_range

namespace Axis

variable {size margin : Int}

theorem inWindow_iff {c : Int} :
    inWindow c size margin = true ↔ (0 < size → -margin ≤ c ∧ c < size + margin) := by
  unfold inWindow
  rw [Bool.or_eq_true, Bool.and_eq_true, decide_eq_true_eq, decide_eq_true_eq, decide_eq_true_eq]
  omega

/-! ### Copies of the box -/

/-- How many boxes away from the box itself a position lies. -/
def crossing (c size : Int) : Int := if 0 < size then c / size else 0

theorem wrap_add_crossing (c size : Int) : wrap c size + crossing c size * size = c := by
  unfold wrap crossing
  split
  · exact Int.emod_add_ediv_mul c size
  · omega

theorem crossesOdd_iff (c size : Int) : crossesOdd c size = true ↔ crossing c size % 2 = 1 := by
  unfold crossesOdd crossing
  rw [Bool.and_eq_true, decide_eq_true_eq, decide_eq_true_eq]
  split <;> omega

theorem crossing_mem_copies {c : Int} (h : inWindow c size margin = true) :
    crossing c size ∈ copies size margin := by
  rw [inWindow_iff] at h
  unfold crossing copies
  split
  · rename_i hs
    have hlo : -margin / size ≤ c / size := Int.ediv_le_ediv hs (h hs).1
    have hhi : c / size ≤ (size - 1 + margin) / size :=
      Int.ediv_le_ediv hs (by have := (h hs).2; omega)
    exact mem_between.mpr ⟨hlo, by omega⟩
  · simp

theorem nodup_copies (size margin : Int) : (copies size margin).Nodup := by
  unfold copies
  split
  · exact nodup_between _ _
  · exact List.nodup_singleton 0

/-- An axis that is not glued has no copies. -/
theorem eq_zero_of_mem_copies {k : Int} (h : k ∈ copies size margin) (hs : ¬0 < size) : k = 0 := by
  unfold copies at h
  rw [if_neg hs] at h
  exact List.mem_singleton.mp h

/-- **A position of the box and the copy are found again in the position of the copy.** -/
theorem wrap_copy {b k : Int} (hb : outside b size = false) (hk : k ∈ copies size margin) :
    wrap (b + k * size) size = b ∧ crossing (b + k * size) size = k := by
  rw [outside_eq_false] at hb
  unfold wrap crossing
  by_cases hs : 0 < size
  · obtain ⟨hlo, hhi⟩ := hb hs
    rw [if_pos hs, if_pos hs, Int.add_mul_emod_self_right, Int.emod_eq_of_lt hlo hhi,
      Int.add_mul_ediv_right _ _ hs.ne', Int.ediv_eq_zero_of_lt hlo hhi, Int.zero_add]
    exact ⟨rfl, rfl⟩
  · rw [if_neg hs, if_neg hs, eq_zero_of_mem_copies hk hs, Int.zero_mul, Int.add_zero]
    exact ⟨rfl, rfl⟩

/-! ### Mirrors -/

theorem outside_mirror (c size : Int) : outside (mirror c size) size = false := by
  rw [outside_eq_false]
  intro hs
  unfold mirror
  rw [if_pos hs]
  exact ⟨Int.emod_nonneg _ (by omega), Int.emod_lt_of_pos _ hs⟩

/-- Only the position in the box matters. -/
theorem mirror_wrap (c size : Int) : mirror (wrap c size) size = mirror c size := by
  unfold mirror wrap
  split
  · rw [Int.emod_emod_of_dvd _ (Int.dvd_refl size)]
  · rfl

/-- The mirror undoes itself on the positions of the box. -/
theorem mirror_mirror {q : Int} (hq : outside q size = false) : mirror (mirror q size) size = q := by
  have htwice := mirror_wrap_mirror q size
  rwa [wrap_of_inside (outside_mirror q size), wrap_of_inside hq] at htwice

theorem outside_flip {c : Int} (hc : outside c size = false) (k : Int) :
    outside (flip c size k) size = false := by
  unfold flip
  split
  · exact outside_mirror c size
  · exact hc

/-- A coordinate is turned over as the copy is that it lies in. -/
theorem flip_crossing (c size d width : Int) :
    (if crossesOdd d width = true then mirror c size else c) = flip c size (crossing d width) := by
  unfold flip
  simp only [crossesOdd_iff]

/-- **What an odd number of crossings does is undone by the mirror.** -/
theorem wrap_flip_iff {q : Int} (hq : outside q size = false) (c k : Int) :
    wrap (flip c size k) size = q ↔ wrap c size = flip q size k := by
  unfold flip
  split
  · constructor
    · intro h
      rw [← mirror_wrap_mirror c size, h]
    · intro h
      rw [← mirror_wrap c size, h, mirror_mirror hq, wrap_of_inside hq]
  · rfl

/-! ### Reflections -/

/-- On a glued axis the reflections are a position of the box, one below the box for each copy
there and one above it. -/
theorem mem_reflections_of_pos {c q : Int} (hs : 0 < size) :
    c ∈ reflections q size margin ↔ c = q ∨
      (∃ k, (0 ≤ k ∧ k < (-1 - q + margin) / size + 1) ∧ -1 - q - k * size = c) ∨
      ∃ k, (0 ≤ k ∧ k < (size + margin - 1 - (2 * size - 1 - q)) / size + 1) ∧
        2 * size - 1 - q + k * size = c := by
  unfold reflections
  rw [if_neg (by omega)]
  simp only [List.mem_append, List.mem_cons, List.mem_map, mem_between, or_assoc]

theorem mem_reflections {c : Int} (h : inWindow c size margin = true) :
    c ∈ reflections (reflect c size) size margin := by
  rw [inWindow_iff] at h
  by_cases hs : size ≤ 0
  · unfold reflections reflect
    rw [if_pos hs, if_pos (Or.inl hs)]
    exact List.mem_singleton.mpr rfl
  · have hpos : 0 < size := by omega
    obtain ⟨hlo, hhi⟩ := h hpos
    rw [mem_reflections_of_pos hpos]
    unfold reflect
    by_cases hin : 0 ≤ c ∧ c < size
    · rw [if_pos (Or.inr hin)]
      exact Or.inl rfl
    · rw [if_neg (by omega)]
      by_cases hneg : c < 0
      · -- One reflection from below for each copy of the box between.
        rw [if_pos hneg]
        have hsplit := Int.emod_add_ediv_mul (-c - 1) size
        have hk : 0 ≤ (-c - 1) / size := Int.ediv_nonneg (by omega) (by omega)
        have hle : (-c - 1) / size ≤ (-1 - (-c - 1) % size + margin) / size :=
          (Int.le_ediv_iff_mul_le hpos).mpr (by omega)
        exact Or.inr (Or.inl ⟨(-c - 1) / size, ⟨hk, by omega⟩, by omega⟩)
      · rw [if_neg hneg]
        have hsplit := Int.emod_add_ediv_mul c size
        have hk : 1 ≤ c / size := (Int.le_ediv_iff_mul_le hpos).mpr (by omega)
        have hmul : (c / size - 1) * size = c / size * size - size := by ring
        have hle : c / size - 1 ≤
            (size + margin - 1 - (2 * size - 1 - (size - 1 - c % size))) / size :=
          (Int.le_ediv_iff_mul_le hpos).mpr (by omega)
        exact Or.inr (Or.inr ⟨c / size - 1, ⟨by omega, by omega⟩, by omega⟩)

/-- What is listed reflects to the position of the box. -/
theorem reflect_of_mem_reflections {c q : Int} (hq : outside q size = false)
    (h : c ∈ reflections q size margin) : reflect c size = q := by
  by_cases hs : 0 < size
  · obtain ⟨hlo, hhi⟩ := outside_eq_false.mp hq hs
    rcases (mem_reflections_of_pos hs).mp h with rfl | ⟨k, ⟨hk, -⟩, rfl⟩ | ⟨k, ⟨hk, -⟩, rfl⟩
    · exact reflect_of_inside hq
    · have hmul : 0 ≤ k * size := Int.mul_nonneg hk hs.le
      have hback : -(-1 - q - k * size) - 1 = q + k * size := by ring
      unfold reflect
      rw [if_neg (by omega), if_pos (by omega), hback, Int.add_mul_emod_self_right,
        Int.emod_eq_of_lt hlo hhi]
    · have hmul : 0 ≤ k * size := Int.mul_nonneg hk hs.le
      have hback : 2 * size - 1 - q + k * size = (size - 1 - q) + (k + 1) * size := by ring
      unfold reflect
      rw [if_neg (by omega), if_neg (by omega), hback, Int.add_mul_emod_self_right,
        Int.emod_eq_of_lt (by omega) (by omega), Int.sub_sub_self]
  · unfold reflections at h
    rw [if_pos (by omega)] at h
    rw [List.mem_singleton.mp h, reflect_of_inside hq]

theorem nodup_reflections {q : Int} (hq : outside q size = false) (margin : Int) :
    (reflections q size margin).Nodup := by
  unfold reflections
  split
  · exact List.nodup_singleton q
  · rename_i hs
    have hpos : 0 < size := by omega
    obtain ⟨hlo, hhi⟩ := outside_eq_false.mp hq hpos
    have hbelow : ((between 0 ((-1 - q + margin) / size + 1)).map (-1 - q - · * size)).Nodup :=
      (nodup_between _ _).map fun i j hij => by
        simpa [hpos.ne'] using (by omega : i * size = j * size)
    have habove : ((between 0 ((size + margin - 1 - (2 * size - 1 - q)) / size + 1)).map
        (2 * size - 1 - q + · * size)).Nodup :=
      (nodup_between _ _).map fun i j hij => by
        simpa [hpos.ne'] using (by omega : i * size = j * size)
    -- The three parts lie in the box, below it and above it.
    have hmulBelow : ∀ k ∈ between 0 ((-1 - q + margin) / size + 1), 0 ≤ k * size := fun k hk =>
      Int.mul_nonneg (mem_between.mp hk).1 hpos.le
    have hmulAbove : ∀ k ∈ between 0 ((size + margin - 1 - (2 * size - 1 - q)) / size + 1),
        0 ≤ k * size := fun k hk => Int.mul_nonneg (mem_between.mp hk).1 hpos.le
    refine List.nodup_append.mpr ⟨List.nodup_cons.mpr ⟨?_, hbelow⟩, habove, ?_⟩
    · intro hmem
      obtain ⟨k, hk, heq⟩ := List.mem_map.mp hmem
      have := hmulBelow k hk
      omega
    · intro a ha b hb heq
      obtain ⟨k, hk, rfl⟩ := List.mem_map.mp hb
      have habv := hmulAbove k hk
      rcases List.mem_cons.mp ha with rfl | ha
      · omega
      · obtain ⟨j, hj, rfl⟩ := List.mem_map.mp ha
        have hblw := hmulBelow j hj
        omega

end Axis

/-! ### Boxes that are glued -/

namespace Surface

variable {width height margin : Int}

section Glued

variable {rowAt colAt : Int → Int}

theorem mem_glued (hrow : ∀ k, Axis.outside (rowAt k) height = false)
    (hcol : ∀ k, Axis.outside (colAt k) width = false) {p : Coord} :
    p ∈ glued width height margin rowAt colAt ↔
      (Axis.crossing p.row height ∈ Axis.copies height margin ∧
        Axis.crossing p.col width ∈ Axis.copies width margin) ∧
      Axis.wrap p.row height = rowAt (Axis.crossing p.col width) ∧
        Axis.wrap p.col width = colAt (Axis.crossing p.row height) := by
  unfold glued
  simp only [List.mem_flatMap, List.mem_map]
  constructor
  · rintro ⟨down, hdown, right, hright, rfl⟩
    obtain ⟨hwrapRow, hcrossRow⟩ := Axis.wrap_copy (hrow right) hdown
    obtain ⟨hwrapCol, hcrossCol⟩ := Axis.wrap_copy (hcol down) hright
    simp only [hwrapRow, hcrossRow, hwrapCol, hcrossCol]
    exact ⟨⟨hdown, hright⟩, trivial, trivial⟩
  · rintro ⟨⟨hdown, hright⟩, hr, hc⟩
    refine ⟨_, hdown, _, hright, ?_⟩
    rw [← hr, ← hc, Axis.wrap_add_crossing, Axis.wrap_add_crossing]

/-- **No coordinate lies in two copies.** -/
theorem nodup_glued (hrow : ∀ k, Axis.outside (rowAt k) height = false)
    (hcol : ∀ k, Axis.outside (colAt k) width = false) :
    (glued width height margin rowAt colAt).Nodup := by
  unfold glued
  rw [List.nodup_flatMap]
  constructor
  · intro down _
    refine List.Nodup.map_on ?_ (Axis.nodup_copies width margin)
    intro right hright right' hright' heq
    injection heq with _ heq
    rw [← (Axis.wrap_copy (hcol down) hright).2, heq, (Axis.wrap_copy (hcol down) hright').2]
  · refine (Axis.nodup_copies height margin).imp_of_mem ?_
    intro down down' hdown hdown' hne p hp hp'
    obtain ⟨right, -, rfl⟩ := List.mem_map.mp hp
    obtain ⟨right', -, heq⟩ := List.mem_map.mp hp'
    injection heq with heq _
    refine hne ?_
    rw [← (Axis.wrap_copy (hrow right) hdown).2, ← heq, (Axis.wrap_copy (hrow right') hdown').2]

end Glued

/-- Does the coordinate lie within `margin` of the box, on each axis that is glued? -/
def Near (s : Surface) (margin : Int) (p : Coord) : Prop :=
  match s with
  | plane => True
  | box _ width height =>
    (0 < height → -margin ≤ p.row ∧ p.row < height + margin) ∧
      (0 < width → -margin ≤ p.col ∧ p.col < width + margin)

theorem near_box {joining : Joining} {p : Coord} : (box joining width height).Near margin p ↔
    (Axis.inWindow p.row height margin && Axis.inWindow p.col width margin) = true := by
  rw [Bool.and_eq_true, Axis.inWindow_iff, Axis.inWindow_iff]
  rfl

/-- Near the box the copies that are gone through are all there are. -/
theorem mem_glued_of_near {joining : Joining} {rowAt colAt : Int → Int}
    (hrow : ∀ k, Axis.outside (rowAt k) height = false)
    (hcol : ∀ k, Axis.outside (colAt k) width = false) {p : Coord}
    (h : (box joining width height).Near margin p) :
    p ∈ glued width height margin rowAt colAt ↔
      Axis.wrap p.row height = rowAt (Axis.crossing p.col width) ∧
        Axis.wrap p.col width = colAt (Axis.crossing p.row height) := by
  rw [near_box, Bool.and_eq_true] at h
  rw [mem_glued hrow hcol, and_iff_right ⟨Axis.crossing_mem_copies h.1,
    Axis.crossing_mem_copies h.2⟩]

/-! ### Preimages -/

/-- **The coordinates that resolve to a cell of the surface.** -/
theorem mem_preimages_iff {joining : Joining} (hj : joining ≠ .rectangle) {q : Coord}
    (hq : (box joining width height).contains q = true) {p : Coord} :
    p ∈ (box joining width height).preimages q margin ↔
      (box joining width height).resolve p = q ∧ (box joining width height).Near margin p := by
  obtain ⟨hr, hc⟩ := (contains_box hj).mp hq
  rw [preimages, List.mem_filter, ← near_box]
  refine and_congr_left fun hnear => ?_
  cases joining with
  | rectangle => exact absurd rfl hj
  | torus =>
      unfold listed
      rw [mem_glued_of_near (fun _ => hr) (fun _ => hc) hnear, Coord.ext_iff]
      rfl
  | klein =>
      unfold listed
      rw [mem_glued_of_near (Axis.outside_flip hr) (fun _ => hc) hnear, Coord.ext_iff]
      simp only [resolve, Axis.flip_crossing, Axis.wrap_flip_iff hr]
  | crossSurface =>
      unfold listed
      rw [mem_glued_of_near (Axis.outside_flip hr) (Axis.outside_flip hc) hnear, Coord.ext_iff]
      simp only [resolve, Axis.flip_crossing, Axis.wrap_flip_iff hr, Axis.wrap_flip_iff hc]
  | sphere =>
      obtain ⟨hrow, hcol⟩ := Bool.and_eq_true_iff.mp (near_box.mp hnear)
      simp only [listed, List.mem_flatMap, List.mem_map]
      constructor
      · rintro ⟨row, hrowMem, col, hcolMem, rfl⟩
        ext
        · exact Axis.reflect_of_mem_reflections hr hrowMem
        · exact Axis.reflect_of_mem_reflections hc hcolMem
      · rintro rfl
        exact ⟨p.row, Axis.mem_reflections hrow, p.col, Axis.mem_reflections hcol, rfl⟩

/-- No coordinate is gone through twice. -/
theorem nodup_listed {joining : Joining} (hj : joining ≠ .rectangle) {q : Coord}
    (hq : (box joining width height).contains q = true) (margin : Int) :
    (listed joining width height margin q).Nodup := by
  obtain ⟨hr, hc⟩ := (contains_box hj).mp hq
  cases joining with
  | rectangle => exact absurd rfl hj
  | torus => exact nodup_glued (fun _ => hr) (fun _ => hc)
  | klein => exact nodup_glued (Axis.outside_flip hr) (fun _ => hc)
  | crossSurface => exact nodup_glued (Axis.outside_flip hr) (Axis.outside_flip hc)
  | sphere =>
      refine List.nodup_flatMap.mpr ⟨fun row _ => ?_, ?_⟩
      · exact (Axis.nodup_reflections hc margin).map fun col col' heq => by injection heq
      · refine (Axis.nodup_reflections hr margin).imp ?_
        intro row row' hne p hp hp'
        obtain ⟨col, -, rfl⟩ := List.mem_map.mp hp
        obtain ⟨col', -, heq⟩ := List.mem_map.mp hp'
        injection heq with heq _
        exact hne heq.symm

theorem nodup_preimages {joining : Joining} (hj : joining ≠ .rectangle) {q : Coord}
    (hq : (box joining width height).contains q = true) (margin : Int) :
    ((box joining width height).preimages q margin).Nodup :=
  (nodup_listed hj hq margin).filter _

end Surface

end Cellular
