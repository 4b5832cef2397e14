/-
Surfaces within words.

To resolve a coordinate takes no calculation that leaves a word, unless the coordinate is the
smallest number of all.  To list the coordinates of a cell takes some that may: the window of the
margin ends behind the box, and what is listed is followed up to one box beyond the window.  So
the list is there if two boxes and the margin are a word, and it is not if one box and the margin
are none (`preimages_exact`).  Whenever it is there it is complete.
-/
import Cellular.Proofs.Preimages
import Cellular.Proofs.Word

namespace Cellular

/-! ### One axis -/

namespace Axis

variable {c k size margin : Int}

theorem allFit_mirror (hs : size < 2 ^ 63) : AllFit (mirrorArithmetic c size) := by
  simp only [mirrorArithmetic, allFit_ite, allFit_cons, allFit_nil, and_true, implies_true,
    Calculation.Fits, InWord]
  intro hpos
  have hnonneg := Int.emod_nonneg c (by omega : size ≠ 0)
  have hlt := Int.emod_lt_of_pos c hpos
  omega

theorem allFit_flip (hs : size < 2 ^ 63) : AllFit (flipArithmetic c size k) := by
  rw [flipArithmetic, allFit_ite]
  exact ⟨fun _ => allFit_mirror hs, fun _ => allFit_nil⟩

/-- Only the smallest number of all cannot be reflected. -/
theorem allFit_reflect (hs : size < 2 ^ 63) (hc : -(2 ^ 63) < c) :
    AllFit (reflectArithmetic c size) := by
  simp only [reflectArithmetic, allFit_ite, allFit_cons, allFit_nil, and_true, implies_true,
    true_and, Calculation.Fits, InWord]
  intro hout
  have hpos : 0 < size := by omega
  have hnonneg := Int.emod_nonneg c (by omega : size ≠ 0)
  have hlt := Int.emod_lt_of_pos c hpos
  omega

/-! ### Copies and reflections -/

section

variable (hm : 0 ≤ margin) (hroom : 0 < size → 2 * size + margin < 2 ^ 63)
include hm hroom

theorem allFit_window : AllFit (windowArithmetic size margin) := by
  simp only [windowArithmetic, allFit_ite, allFit_cons, allFit_nil, and_true, implies_true,
    true_and, Calculation.Fits, InWord]
  omega

theorem allFit_copies : AllFit (copiesArithmetic size margin) := by
  simp only [copiesArithmetic, allFit_ite, allFit_cons, allFit_nil, and_true, implies_true,
    Calculation.Fits, InWord]
  omega

omit hm hroom in
/-- The copies of the box begin no further away than the margin and one box more. -/
theorem mul_of_mem_copies (hs : 0 < size) (hk : k ∈ copies size margin) :
    -margin - size < k * size ∧ k * size ≤ size - 1 + margin := by
  unfold copies at hk
  rw [if_pos hs, mem_between] at hk
  have hlo : -margin < (k + 1) * size := (Int.ediv_lt_iff_lt_mul hs).mp (by omega)
  have hhi : k * size ≤ size - 1 + margin := (Int.le_ediv_iff_mul_le hs).mp (by omega)
  rw [Int.add_mul, Int.one_mul] at hlo
  omega

theorem allFit_copy (hc : outside c size = false) (hword : InWord c)
    (hk : k ∈ copies size margin) : AllFit (copyArithmetic c k size) := by
  rw [outside_eq_false] at hc
  unfold InWord at hword
  simp only [copyArithmetic, allFit_cons, allFit_nil, and_true, Calculation.Fits, InWord]
  by_cases hs : 0 < size
  · have hmul := mul_of_mem_copies hs hk
    have hin := hc hs
    have hfit := hroom hs
    omega
  · rw [eq_zero_of_mem_copies hk hs, Int.zero_mul]
    omega

theorem allFit_reflections (hc : outside c size = false) :
    AllFit (reflectionsArithmetic c size margin) := by
  unfold reflectionsArithmetic
  rw [allFit_ite]
  refine ⟨fun _ => allFit_nil, fun hpos => ?_⟩
  have hs : 0 < size := by omega
  have hin := outside_eq_false.mp hc hs
  have hfit := hroom hs
  simp only [allFit_append, allFit_cons, allFit_nil, allFit_map, and_true, mem_between,
    Calculation.Fits, InWord]
  -- Both ways the last position that is listed lies in the window.
  have hlisted : ∀ {k n : Int}, 0 ≤ k ∧ k < n / size + 1 → 0 ≤ k * size ∧ k * size ≤ n :=
    fun hk => ⟨Int.mul_nonneg hk.1 hs.le, (Int.le_ediv_iff_mul_le hs).mp (by omega)⟩
  refine ⟨⟨⟨by omega, fun k hk => ?_⟩, by omega⟩, fun k hk => ?_⟩
  · have hbelow := hlisted hk
    omega
  · have habove := hlisted hk
    omega

end

theorem inWord_flip (hs : size < 2 ^ 63) (hc : InWord c) (k : Int) : InWord (flip c size k) := by
  unfold flip mirror InWord at *
  split
  · split
    · rename_i hpos
      have hnonneg := Int.emod_nonneg (size - c % size) (by omega : size ≠ 0)
      have hlt := Int.emod_lt_of_pos (size - c % size) hpos
      omega
    · exact hc
  · exact hc

end Axis

/-! ### Cells -/

/-- No further from the origin than `b` on either axis. -/
def Coord.Within (b : Int) (c : Coord) : Prop :=
  (-b ≤ c.row ∧ c.row ≤ b) ∧ -b ≤ c.col ∧ c.col ≤ b

instance (b : Int) (c : Coord) : Decidable (c.Within b) := inferInstanceAs (Decidable (_ ∧ _))

namespace Surface

variable {joining : Joining} {width height margin b : Int} {s : Surface} {c q : Coord}

/-- No side is longer than `b`. -/
def Within (b : Int) : Surface → Prop
  | plane => True
  | box _ width height => width ≤ b ∧ height ≤ b

instance (b : Int) : (s : Surface) → Decidable (s.Within b)
  | plane => inferInstanceAs (Decidable True)
  | box _ _ _ => inferInstanceAs (Decidable (_ ∧ _))

theorem allFit_resolve (hs : s.Within b) (hc : c.Within b) (hb : b < 2 ^ 63) :
    AllFit (s.resolveArithmetic c) := by
  unfold Coord.Within at hc
  cases s with
  | plane => exact allFit_nil
  | box joining width height =>
      have hwidth : width < 2 ^ 63 := by have := hs.1; omega
      have hheight : height < 2 ^ 63 := by have := hs.2; omega
      cases joining with
      | torus | rectangle => exact allFit_nil
      | klein =>
          rw [resolveArithmetic, allFit_ite]
          exact ⟨fun _ => Axis.allFit_mirror hheight, fun _ => allFit_nil⟩
      | crossSurface =>
          rw [resolveArithmetic, allFit_append, allFit_ite, allFit_ite]
          exact ⟨⟨fun _ => Axis.allFit_mirror hheight, fun _ => allFit_nil⟩,
            fun _ => Axis.allFit_mirror hwidth, fun _ => allFit_nil⟩
      | sphere =>
          rw [resolveArithmetic, allFit_append]
          exact ⟨Axis.allFit_reflect hheight (by omega), Axis.allFit_reflect hwidth (by omega)⟩

theorem resolveInWords_eq_ok {c' : Coord} :
    s.resolveInWords c = .ok c' ↔ AllFit (s.resolveArithmetic c) ∧ s.resolve c = c' := perform_then

/-! ### Preimages -/

section

variable (hm : 0 ≤ margin) (hheight : 0 < height → 2 * height + margin < 2 ^ 63)
  (hwidth : 0 < width → 2 * width + margin < 2 ^ 63)
include hm hheight hwidth

theorem allFit_glued {rowAt colAt : Int → Int}
    {rowArithmetic colArithmetic : Int → List Calculation}
    (hrow : ∀ k, Axis.outside (rowAt k) height = false ∧ InWord (rowAt k))
    (hcol : ∀ k, Axis.outside (colAt k) width = false ∧ InWord (colAt k))
    (hrowFit : ∀ k, AllFit (rowArithmetic k)) (hcolFit : ∀ k, AllFit (colArithmetic k)) :
    AllFit (gluedArithmetic width height margin rowAt colAt rowArithmetic colArithmetic) := by
  simp only [gluedArithmetic, allFit_append, allFit_flatMap]
  refine ⟨Axis.allFit_copies hm hheight, fun down hdown => ⟨Axis.allFit_copies hm hwidth,
    fun right hright => ⟨⟨⟨hrowFit right, hcolFit down⟩, ?_⟩, ?_⟩⟩⟩
  · exact Axis.allFit_copy hm hheight (hrow right).1 (hrow right).2 hdown
  · exact Axis.allFit_copy hm hwidth (hcol down).1 (hcol down).2 hright

theorem allFit_listed (hj : joining ≠ .rectangle)
    (hq : (box joining width height).contains q = true) (hrow : InWord q.row)
    (hcol : InWord q.col) : AllFit (listedArithmetic joining width height margin q) := by
  obtain ⟨hr, hc⟩ := (contains_box hj).mp hq
  have hwidth' : width < 2 ^ 63 := by omega
  have hheight' : height < 2 ^ 63 := by omega
  have hrowFlip : ∀ k, Axis.outside (Axis.flip q.row height k) height = false ∧
      InWord (Axis.flip q.row height k) := fun k =>
    ⟨Axis.outside_flip hr k, Axis.inWord_flip hheight' hrow k⟩
  have hcolFlip : ∀ k, Axis.outside (Axis.flip q.col width k) width = false ∧
      InWord (Axis.flip q.col width k) := fun k =>
    ⟨Axis.outside_flip hc k, Axis.inWord_flip hwidth' hcol k⟩
  cases joining with
  | rectangle => exact absurd rfl hj
  | torus =>
      exact allFit_glued hm hheight hwidth (fun _ => ⟨hr, hrow⟩) (fun _ => ⟨hc, hcol⟩)
        (fun _ => allFit_nil) fun _ => allFit_nil
  | klein =>
      exact allFit_glued hm hheight hwidth hrowFlip (fun _ => ⟨hc, hcol⟩)
        (fun _ => Axis.allFit_flip hheight') fun _ => allFit_nil
  | crossSurface =>
      exact allFit_glued hm hheight hwidth hrowFlip hcolFlip
        (fun _ => Axis.allFit_flip hheight') fun _ => Axis.allFit_flip hwidth'
  | sphere =>
      exact allFit_append.mpr ⟨Axis.allFit_reflections hm hheight hr,
        Axis.allFit_reflections hm hwidth hc⟩

/-- Two boxes and the margin are room enough. -/
theorem allFit_preimages (hj : joining ≠ .rectangle)
    (hq : (box joining width height).contains q = true) (hrow : InWord q.row)
    (hcol : InWord q.col) : AllFit ((box joining width height).preimagesArithmetic q margin) := by
  simp only [preimagesArithmetic, allFit_append, allFit_flatMap, allFit_ite]
  exact ⟨allFit_listed hm hheight hwidth hj hq hrow hcol, fun p _ =>
    ⟨Axis.allFit_window hm hheight, fun _ => Axis.allFit_window hm hwidth, fun _ => allFit_nil⟩⟩

end

/-- The windows of both axes are measured, at least for the cell itself. -/
theorem window_of_allFit_preimages (hj : joining ≠ .rectangle)
    (hq : (box joining width height).contains q = true) (hm : 0 ≤ margin)
    (hfit : AllFit ((box joining width height).preimagesArithmetic q margin)) :
    (0 < height → height + margin < 2 ^ 63) ∧ (0 < width → width + margin < 2 ^ 63) := by
  have hnear : (box joining width height).Near margin q := by
    obtain ⟨hr, hc⟩ := (contains_box hj).mp hq
    rw [Axis.outside_eq_false] at hr hc
    unfold Near
    omega
  have hself : q ∈ (box joining width height).preimages q margin :=
    (mem_preimages_iff hj hq).mpr ⟨resolve_of_contains hq, hnear⟩
  obtain ⟨hlisted, hwindow⟩ := List.mem_filter.mp hself
  simp only [preimagesArithmetic, allFit_append, allFit_flatMap, allFit_ite] at hfit
  obtain ⟨hrow, hcol, -⟩ := hfit.2 q hlisted
  have hcol := hcol (Bool.and_eq_true_iff.mp hwindow).1
  simp only [Axis.windowArithmetic, allFit_ite, allFit_cons, allFit_nil, and_true,
    Calculation.Fits, InWord] at hrow hcol
  omega

theorem preimagesInWords_eq_ok {ps : List Coord} :
    s.preimagesInWords q margin = .ok ps ↔
      AllFit (s.preimagesArithmetic q margin) ∧ s.preimages q margin = ps := perform_then

/--
**Each coordinate that resolves to a cell is listed once, as far as the margin reaches.**  On a
torus, a Klein bottle, a cross surface or a sphere, whatever the sizes, a list that is there has
the coordinates that resolve to a cell of the surface and lie within the margin on each axis that
is glued, and no coordinate is listed twice.  The list is there if on each axis that is glued two
boxes and the margin are a word, and if it is there then so are one box and the margin.
-/
theorem preimages_exact (hj : joining ≠ .rectangle)
    (hq : (box joining width height).contains q = true) (hm : 0 ≤ margin) :
    (∀ ps, (box joining width height).preimagesInWords q margin = .ok ps →
      ps.Nodup ∧
        (∀ p, p ∈ ps ↔ (box joining width height).resolve p = q ∧
          (0 < height → -margin ≤ p.row ∧ p.row < height + margin) ∧
          (0 < width → -margin ≤ p.col ∧ p.col < width + margin)) ∧
        (0 < height → height + margin < 2 ^ 63) ∧ (0 < width → width + margin < 2 ^ 63)) ∧
    (InWord q.row → InWord q.col → (0 < height → 2 * height + margin < 2 ^ 63) →
      (0 < width → 2 * width + margin < 2 ^ 63) →
      ∃ ps, (box joining width height).preimagesInWords q margin = .ok ps) := by
  refine ⟨fun ps hps => ?_, fun hrow hcol hheight hwidth => ?_⟩
  · obtain ⟨hfit, rfl⟩ := preimagesInWords_eq_ok.mp hps
    exact ⟨nodup_preimages hj hq margin, fun p => mem_preimages_iff hj hq,
      window_of_allFit_preimages hj hq hm hfit⟩
  · exact ⟨_, preimagesInWords_eq_ok.mpr
      ⟨allFit_preimages hm hheight hwidth hj hq hrow hcol, rfl⟩⟩

/-- One coordinate, two boxes to the left and one above, that turns over once and names the cell,
and one near by that names another. -/
theorem preimages_exact_on_cross_surface :
    (box .crossSurface 2 3).contains ⟨0, 1⟩ = true ∧
      ∃ ps, (box .crossSurface 2 3).preimagesInWords ⟨0, 1⟩ 4 = .ok ps ∧ ps.Nodup ∧
        ⟨-3, -3⟩ ∈ ps ∧ ⟨-3, -2⟩ ∉ ps := by
  have hq : (box .crossSurface 2 3).contains ⟨0, 1⟩ = true := by decide
  obtain ⟨hexact, hthere⟩ := preimages_exact (by decide) hq (by decide : (0 : Int) ≤ 4)
  obtain ⟨ps, hps⟩ := hthere (by decide) (by decide) (by decide) (by decide)
  obtain ⟨hnodup, hmem, -⟩ := hexact ps hps
  refine ⟨hq, ps, hps, hnodup, (hmem _).mpr (by decide), fun h => ?_⟩
  exact absurd ((hmem _).mp h).1 (by decide)

/-- On a Klein bottle as wide as the largest number nothing is listed within a margin, though only
four coordinates are to be. -/
theorem no_preimages_on_widest_klein_bottle :
    let s := box .klein 9223372036854775807 4
    s.contains ⟨0, 0⟩ = true ∧
      s.preimages ⟨0, 0⟩ 1
        = [⟨0, 0⟩, ⟨0, 9223372036854775807⟩, ⟨4, 0⟩, ⟨4, 9223372036854775807⟩] ∧
      s.preimagesInWords ⟨0, 0⟩ 1 = .error (.add 9223372036854775807 1) := by
  decide +kernel

end Surface

end Cellular
