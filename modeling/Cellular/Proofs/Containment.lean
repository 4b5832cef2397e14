/-
What lies off the surface stays as it was loaded.

A simulation takes its first grid as it is given, and nothing moves a cell of it that is no
cell of the surface.  From then on the surface is all that a run touches: an edit writes the
cell that a coordinate resolves to, and a step writes examined cells only, both of which are
cells of the surface.  So what lies off the surface is neither read nor written, it keeps
its states, and no cell ever joins it (`run_off_surface`).  A run keeps to the surface
exactly if its first grid does.
-/
import Cellular.Proofs.Dense

namespace Cellular

namespace Simulation

/-- What each operation of a run keeps, the run keeps. -/
theorem run_induction {P : Simulation → Prop} {ops : List Operation}
    (happly : ∀ m, ∀ op ∈ ops, P m → P (m.apply op)) :
    ∀ {m : Simulation}, P m → P (m.run ops) := by
  induction ops with
  | nil => intro m h; exact h
  | cons op rest ih =>
      intro m h
      exact ih (fun m' op' hop' => happly m' op' (List.mem_cons_of_mem op hop'))
        (happly m op List.mem_cons_self h)

/-- Off the surface the simulation shows what was loaded there. -/
structure Carries (s : Surface) (g : Grid) (m : Simulation) : Prop where
  surface : m.surface = s
  scratch : m.stepper.candidates.Valid
  off : ∀ c, s.contains c = false → m.grid.get c = g.get c

variable {r : Rule} {s : Surface} {g : Grid} {m : Simulation}

theorem carries_start (r : Rule) (s : Surface) (g : Grid) (generation : Nat) :
    (start r s g generation).Carries s g where
  surface := rfl
  scratch := Stepper.valid_fresh
  off := fun _ _ => rfl

/-- A step writes cells of the surface only. -/
theorem Carries.step (h : m.Carries s g) : m.step.Carries s g where
  surface := h.surface
  scratch := Stepper.valid_step h.scratch m.generation m.grid m.active
  off := by
    intro c hc
    rw [← h.off c hc]
    refine Stepper.get_step_of_not_examined h.scratch m.generation fun hex => ?_
    rw [← h.surface, hex.contains] at hc
    simp at hc

/-- So does an edit. -/
theorem Carries.setCell (h : m.Carries s g) (c : Coord) (state : State) :
    (m.setCell c state).Carries s g := by
  by_cases hc : m.surface.resolve c = Surface.nowhere
  · rw [setCell_nowhere m state hc]
    exact h
  · rw [setCell_eq m state hc]
    refine ⟨h.surface, h.scratch, fun e he => ?_⟩
    have hon := Surface.contains_resolve hc
    rw [← h.off e he, Grid.get_set, if_neg]
    intro heq
    rw [← h.surface, heq, hon] at he
    simp at he

/-- A whole run carries what lies off the surface along. -/
theorem Carries.run (h : m.Carries s g) (ops : List Operation) : (m.run ops).Carries s g := by
  refine run_induction (P := Carries s g) (fun m op _ h => ?_) h
  cases op with
  | edit c state => exact h.setCell c state
  | step => exact h.step

/--
**A run touches the surface only.**  Whatever the rule, the surface, the first grid and the
edits and steps: a coordinate that is no cell of the surface keeps the state that it was
loaded with.  So every live cell is a cell of the surface if and only if every cell of the
first grid is one.
-/
theorem run_off_surface (r : Rule) (s : Surface) (g : Grid) (generation : Nat)
    (ops : List Operation) :
    (∀ c, s.contains c = false → ((start r s g generation).run ops).grid.get c = g.get c) ∧
      ((∀ c, ((start r s g generation).run ops).grid.get c ≠ 0 → s.contains c = true) ↔
        ∀ c, g.get c ≠ 0 → s.contains c = true) := by
  have h := (carries_start r s g generation).run ops
  refine ⟨h.off, forall_congr' fun c => ?_⟩
  cases hc : s.contains c with
  | true => simp
  | false => rw [h.off c hc]

/-- A cell that is loaded beyond the sides of a rectangle outlives a step there, and an edit
of the same coordinate does nothing. -/
theorem outlives_beyond_rectangle :
    let rectangle := Surface.box .rectangle 2 2
    let g := Grid.ofList [(⟨5, 5⟩, 1)]
    rectangle.contains ⟨5, 5⟩ = false ∧
      ((start .life rectangle g 0).run [.step]).grid.get ⟨5, 5⟩ = 1 ∧
      ((start .life rectangle .empty 0).run [.edit ⟨5, 5⟩ 1, .step]).grid.isEmpty = true := by
  decide +kernel

end Simulation

end Cellular
