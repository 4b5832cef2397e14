/-
A step and a motion of the plane can be exchanged.

The pattern is turned, or reflected, together with the cells that count as active.  What
a moved cell reads is what the cell read before, in the order of a table, so it has the
same next state.  It is examined exactly if the cell was: its seeds have moved, and so
have the displacements within the reach of the rule, which a motion only permutes.
-/
import Cellular.Proofs.Isotropic.Symmetry

namespace Cellular

variable {r : Rule} {f : Family} {g : Grid} {active : ActiveSet}

namespace Motion

theorem move_zero (m : Motion) : m.move Offset.zero = Offset.zero := by
  cases m <;> rfl

theorem move_neg (m : Motion) (o : Offset) : m.move (-o) = -m.move o := by
  cases m <;> ext <;> simp [move]

theorem move_four (m : Motion) (o : Offset) : m.move (m.move (m.move (m.move o))) = o := by
  cases m <;> ext <;> simp [move]

theorem inRange_cell {m : Motion} {c : Coord} (h : c.InRange) : (m.cell c).InRange := by
  obtain ⟨hrow, hrow', hcol, hcol'⟩ := h
  cases m
  · refine ⟨?_, ?_, ?_, ?_⟩ <;> simp only [cell] <;> omega
  · refine ⟨?_, ?_, ?_, ?_⟩ <;> simp only [cell] <;> omega

/-- A motion permutes the cells of a family. -/
theorem move_mem_offsets (m : Motion) {o : Offset} (ho : o ∈ f.offsets) :
    m.move o ∈ f.offsets := by
  obtain ⟨i, hi, rfl⟩ := List.getElem_of_mem ho
  have hsource : i ∈ m.source f := (m.source_perm f).mem_iff.mpr (List.mem_range.mpr hi)
  rw [← List.getD_eq_getElem f.offsets .zero hi]
  have hmoved := List.mem_map_of_mem (f := fun i => m.move (f.offsets.getD i .zero)) hsource
  rwa [m.move_source f] at hmoved

@[simp] theorem get_image (m : Motion) (g : Grid) (c : Coord) :
    (g.image m.cell).get c = g.get (m.back c) :=
  Grid.get_image m.back_cell m.cell_back g c

end Motion

namespace Rule

variable (h : r.Isotropic f) (m : Motion)

include h

/-! ### What a moved cell becomes -/

theorem Isotropic.offsets_phase (phase : Nat) : r.offsets phase = f.offsets :=
  h.offsets _ (r.neighbourhood_mem phase)

/-- **A moved cell has the next state of the cell.** -/
theorem Isotropic.nextAt_image (g : Grid) (phase : Nat) (c : Coord) :
    r.nextAt .plane phase (g.image m.cell).get (m.cell c) = r.nextAt .plane phase g.get c := by
  rw [nextAt_eq, nextAt_eq, h.offsets_phase, m.get_image, m.back_cell]
  have hreads : (f.offsets.map fun o => (g.image m.cell).get (m.cell c + o))
      = permuted (m.source f) (f.offsets.map fun o => g.get (c + o)) := by
    calc (f.offsets.map fun o => (g.image m.cell).get (m.cell c + o))
        = ((m.source f).map fun i => m.move (f.offsets.getD i .zero)).map
            fun o => (g.image m.cell).get (m.cell c + o) := by rw [m.move_source]
      _ = (m.source f).map fun i => g.get (c + f.offsets.getD i .zero) := by
          rw [List.map_map]
          refine List.map_congr_left fun i _ => ?_
          show (g.image m.cell).get (m.cell c + m.move _) = _
          rw [← m.cell_add, m.get_image, m.back_cell]
      _ = permuted (m.source f) (f.offsets.map fun o => g.get (c + o)) := by
          refine List.map_congr_left fun i hi => ?_
          have hlt : i < f.offsets.length := Motion.lt_of_mem_source hi
          rw [List.getD_eq_getElem _ _ hlt,
            List.getD_eq_getElem _ _ (by rw [List.length_map]; exact hlt), List.getElem_map]
  show r.next phase (f.offsets.map fun o => (g.image m.cell).get (m.cell c + o)) (g.get c)
    = r.next phase (f.offsets.map fun o => g.get (c + o)) (g.get c)
  rw [hreads, h.next m phase _ _ (by rw [List.length_map]; rfl)]

/-! ### Which cells are examined -/

theorem Isotropic.move_mem_reach {o : Offset} (ho : o ∈ r.reach) : m.move o ∈ r.reach := by
  rw [r.reach_eq, mem_reachOf] at ho ⊢
  rcases ho with rfl | ⟨n, hn, p, hp, hpo⟩
  · exact Or.inl m.move_zero
  · refine Or.inr ⟨n, hn, m.move p, ?_, ?_⟩
    · rw [h.offsets n hn] at hp ⊢
      exact m.move_mem_offsets hp
    · rcases hpo with rfl | rfl
      · exact Or.inl rfl
      · exact Or.inr (m.move_neg p)

omit h in
theorem mem_seeds_image {a : Coord} :
    a ∈ r.seeds (g.image m.cell) (active.map m.cell) ↔ m.back a ∈ r.seeds g active := by
  have hactive : a ∈ active.map m.cell ↔ m.back a ∈ active := by
    rw [List.mem_map]
    constructor
    · intro hmap
      obtain ⟨b, hb, rfl⟩ := hmap
      rwa [m.back_cell]
    · intro ha
      exact ⟨m.back a, ha, m.cell_back a⟩
  unfold seeds
  split
  · rw [List.mem_append, List.mem_append, hactive, Grid.mem_coords, Grid.mem_coords, m.get_image]
  · exact hactive

/-- A moved cell is examined if and only if the cell was. -/
theorem Isotropic.examined_image
    (hfar : ∀ a ∈ r.seeds g active, ∀ o ∈ r.reach, (a + o).InRange) (c : Coord) :
    r.Examined .plane (g.image m.cell) (active.map m.cell) (m.cell c) ↔
      r.Examined .plane g active c := by
  constructor
  · intro hex
    obtain ⟨a, ha, hmem⟩ := hex
    rw [mem_seeds_image] at ha
    obtain ⟨-, o, ho, hco⟩ := Surface.mem_affected_plane.mp hmem
    have hback : m.move (m.move (m.move o)) ∈ r.reach :=
      h.move_mem_reach m (h.move_mem_reach m (h.move_mem_reach m ho))
    have hc : c = m.back a + m.move (m.move (m.move o)) := by
      refine m.cell_injective ?_
      rw [m.cell_add, m.cell_back, m.move_four, hco]
    refine ⟨m.back a, ha, Surface.mem_affected_plane.mpr ⟨?_, _, hback, hc⟩⟩
    rw [hc]
    exact (hfar _ ha _ hback).ne_nowhere
  · intro hex
    obtain ⟨a, ha, hmem⟩ := hex
    obtain ⟨-, o, ho, rfl⟩ := Surface.mem_affected_plane.mp hmem
    have hne := (Motion.inRange_cell (m := m) (hfar a ha o ho)).ne_nowhere
    refine ⟨m.cell a, ?_, Surface.mem_affected_plane.mpr
      ⟨hne, m.move o, h.move_mem_reach m ho, m.cell_add a o⟩⟩
    rw [mem_seeds_image, m.back_cell]
    exact ha

end Rule

/-! ### One step -/

namespace Stepper

variable {t t' : Stepper}

theorem get_step_image (h : r.Isotropic f) (m : Motion) (ht : t.candidates.Valid)
    (ht' : t'.candidates.Valid) (generation : Nat)
    (hfar : ∀ a ∈ r.seeds g active, ∀ o ∈ r.reach, (a + o).InRange) (c : Coord) :
    (t'.step r .plane generation (g.image m.cell) (active.map m.cell)).2.1.get (m.cell c)
      = (t.step r .plane generation g active).2.1.get c := by
  by_cases hex : r.Examined .plane g active c
  · rw [get_step_of_examined ht generation hex,
      get_step_of_examined ht' generation ((h.examined_image m hfar c).mpr hex),
      h.nextAt_image m]
  · rw [get_step_of_not_examined ht generation hex,
      get_step_of_not_examined ht' generation fun himage => hex ((h.examined_image m hfar c).mp himage),
      m.get_image, m.back_cell]

theorem mem_changed_image (h : r.Isotropic f) (m : Motion) (ht : t.candidates.Valid)
    (ht' : t'.candidates.Valid) (generation : Nat)
    (hfar : ∀ a ∈ r.seeds g active, ∀ o ∈ r.reach, (a + o).InRange) (c : Coord) :
    m.cell c ∈ (t'.step r .plane generation (g.image m.cell) (active.map m.cell)).2.2 ↔
      c ∈ (t.step r .plane generation g active).2.2 := by
  rw [mem_changed ht, mem_changed ht', h.examined_image m hfar, h.nextAt_image m, m.get_image,
    m.back_cell]

/--
**A step and a motion can be exchanged.**  Under a rule that was read with isotropic
conditions, on the plane and away from the limits of the coordinates: if the pattern and
the active cells are turned or reflected first, then the step makes the turned or
reflected pattern of it, and the turned or reflected cells are the ones that change.

The steppers may have been used before, for whatever it was.
-/
theorem step_image {text : String} (hr : Rule.ofText text = .ok r)
    (hf : r.conditions = .isotropic f) (m : Motion) (ht : t.candidates.Valid)
    (ht' : t'.candidates.Valid) (g : Grid) (active : ActiveSet) (generation : Nat)
    (hfar : ∀ a ∈ r.seeds g active, ∀ o ∈ r.reach, (a + o).InRange) :
    (t'.step r .plane generation (g.image m.cell) (active.map m.cell)).2.1.sameCells
        ((t.step r .plane generation g active).2.1.image m.cell) = true ∧
      ((t'.step r .plane generation (g.image m.cell) (active.map m.cell)).2.2).Perm
        ((t.step r .plane generation g active).2.2.map m.cell) := by
  have h := Rule.isotropic_of_ofText hr hf
  constructor
  · rw [Grid.sameCells_iff]
    intro d
    rw [m.get_image, ← m.cell_back d, get_step_image h m ht ht' generation hfar, m.cell_back]
  · have hnodup := (nodup_changed (r := r) (s := .plane) ht generation g active).map
      fun c d hcd => m.cell_injective hcd
    rw [List.perm_ext_iff_of_nodup (nodup_changed ht' generation _ _) hnodup]
    intro d
    rw [← m.cell_back d, mem_changed_image h m ht ht' generation hfar,
      List.mem_map_of_injective fun c d hcd => m.cell_injective hcd]

theorem step_image_of_tromino :
    let text := "Rulespace: Outer Totalistic\nState Weights: 0,1\nRulestring: b2-as1c\n" ++
      "B/S Conditions: Hensel\n"
    let g := Grid.ofList [(⟨0, 0⟩, 1), (⟨0, 1⟩, 1), (⟨1, 0⟩, 1)]
    let m := Motion.quarterTurn
    ∃ r, Rule.ofText text = .ok r ∧ r.conditions = .isotropic .moore ∧
      (∀ a ∈ r.seeds g g.coords, ∀ o ∈ r.reach, (a + o).InRange) ∧
      ((fresh.step r .plane 0 (g.image m.cell) (g.coords.map m.cell)).2.1).sameCells
        ((fresh.step r .plane 0 g g.coords).2.1.image m.cell) = true ∧
      ((fresh.step r .plane 0 (g.image m.cell) (g.coords.map m.cell)).2.2).Perm
        ((fresh.step r .plane 0 g g.coords).2.2.map m.cell) := by
  intro text g m
  let r := (Rule.ofText text).toOption.getD .life
  have hall : (Rule.ofText text).toOption.isSome = true ∧ r.conditions = .isotropic .moore ∧
      ∀ a ∈ r.seeds g g.coords, ∀ o ∈ r.reach, (a + o).InRange := by decide +kernel
  obtain ⟨hread, hf, hfar⟩ := hall
  have hr : Rule.ofText text = .ok r := eq_ok_of_isSome hread .life
  clear_value r
  exact ⟨r, hr, hf, hfar, step_image hr hf m valid_fresh valid_fresh g g.coords 0 hfar⟩

end Stepper

end Cellular
