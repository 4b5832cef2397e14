/-
A run keeps to the states of its rule.

A rule that was read answers every state of its own with one of its own (`Rule.next_lt`), a step
writes such answers only and an edit writes what it is given.  So once the first grid has states
of the rule alone, every later one has, wherever the cells lie: nothing is asked of the surface
here, and cells off the surface just stay as they are.  The background is never stored, by the
type of grids, so what is stored starts at state 1.
-/
import Cellular.Proofs.Containment
import Cellular.Proofs.Run
import Cellular.Proofs.Rule.Compile

namespace Cellular

namespace Simulation

/-- Every cell is in a state of the rule. -/
structure InStates (r : Rule) (m : Simulation) : Prop where
  rule : m.rule = r
  scratch : m.stepper.candidates.Valid
  states : ∀ c, m.grid.get c < r.nStates

variable {r : Rule} {m : Simulation}

theorem inStates_start {g : Grid} (hg : ∀ c, g.get c < r.nStates) (s : Surface) (generation : Nat) :
    (start r s g generation).InStates r where
  rule := rfl
  scratch := Stepper.valid_fresh
  states := hg

/-- A step stays within the states if the transition does. -/
theorem InStates.step (h : m.InStates r)
    (hnext : ∀ phase neighbours current, current < r.nStates →
      r.next phase neighbours current < r.nStates) : m.step.InStates r where
  rule := h.rule
  scratch := Stepper.valid_step h.scratch m.generation m.grid m.active
  states := get_step_lt h.scratch (h.rule ▸ hnext) h.states

/-- An edit stays within the states if it writes one of them. -/
theorem InStates.setCell (h : m.InStates r) (c : Coord) {state : State} (hs : state < r.nStates) :
    (m.setCell c state).InStates r := by
  by_cases hc : m.surface.resolve c = Surface.nowhere
  · rw [setCell_nowhere m state hc]
    exact h
  · rw [setCell_eq m state hc]
    refine ⟨h.rule, h.scratch, fun e => ?_⟩
    rw [Grid.get_set]
    split
    · exact hs
    · exact h.states e

/-- So a run does. -/
theorem InStates.run (h : m.InStates r)
    (hnext : ∀ phase neighbours current, current < r.nStates →
      r.next phase neighbours current < r.nStates) {ops : List Operation}
    (hops : ∀ c state, .edit c state ∈ ops → state < r.nStates) : (m.run ops).InStates r := by
  refine run_induction (P := InStates r) (fun m op hop h => ?_) h
  cases op with
  | edit c state => exact h.setCell c (hops c state hop)
  | step => exact h.step hnext

/--
**States never leave the range of the rule.**  Let a rule be read from a text, in any of its
families, with any conditions and any number of phases, and let it run on any surface from a
grid of its states, in steps and in edits that write its states.  Then every state that is
stored is at least 1 and below the number of states, which is at most 256: a state takes eight
bits.
-/
theorem stored_states_of_run {text : String} (hread : Rule.ofText text = .ok r) (s : Surface)
    {g : Grid} (hg : ∀ c, g.get c < r.nStates) (generation : Nat) {ops : List Operation}
    (hops : ∀ c state, .edit c state ∈ ops → state < r.nStates) :
    r.nStates ≤ 256 ∧ ∀ c state, (c, state) ∈ ((start r s g generation).run ops).grid.toList →
      1 ≤ state ∧ state < r.nStates := by
  obtain ⟨_, -, hcompiled⟩ := Rule.of_ofText hread
  refine ⟨hcompiled.le_256, fun c state hmem => ?_⟩
  obtain ⟨rfl, hlive⟩ := Grid.mem_toList.mp hmem
  have hstates := (inStates_start hg s generation).run
    (fun phase neighbours _ => Rule.next_lt hread phase neighbours) hops
  exact ⟨Nat.one_le_iff_ne_zero.mpr hlive, hstates.states c⟩

/-- Cells that age past 3 to the background, in two phases and beside a cell off the surface. -/
theorem stored_states_of_run_of_regenerating_cells :
    let ruleText := "Rulespace: Regenerating Generations\nState Weights: 0,1,0,0\n" ++
      "Rulestring: b1sd1-1-1rb1rs2|bs1d3\nNeighbourhood Range: 1\n" ++
      "Neighbourhood:\n0,0,0\n1,0,1\n0,0,0\n"
    let surface := Surface.box .torus 3 3
    let g := Grid.ofList [(⟨0, 0⟩, 1), (⟨0, 1⟩, 3), (⟨2, 2⟩, 2), (⟨7, 7⟩, 2)]
    let ops := [Operation.step, .edit ⟨4, -1⟩ 2, .step]
    ∃ r, Rule.ofText ruleText = .ok r ∧ r.nStates = 4 ∧ (∀ c, g.get c < r.nStates) ∧
      (∀ c state, .edit c state ∈ ops → state < r.nStates) ∧
      ((start r surface g 0).run ops).grid.toList
        = [(⟨0, 0⟩, 2), (⟨0, 2⟩, 2), (⟨1, 2⟩, 3), (⟨7, 7⟩, 2)] ∧
      r.nStates ≤ 256 ∧ ∀ c state, (c, state) ∈ ((start r surface g 0).run ops).grid.toList →
        1 ≤ state ∧ state < r.nStates := by
  intro ruleText surface g ops
  have hall : (Rule.ofText ruleText).toOption.map
      (fun r => (r.nStates, ((start r surface g 0).run ops).grid.toList))
      = some (4, [(⟨0, 0⟩, 2), (⟨0, 2⟩, 2), (⟨1, 2⟩, 3), (⟨7, 7⟩, 2)]) := by
    decide +kernel
  have hbelow : ∀ c ∈ g.coords, g.get c < 4 := by decide +kernel
  obtain ⟨r, hr, hrun⟩ := Option.map_eq_some_iff.mp hall
  obtain ⟨hcount, hcells⟩ := Prod.mk.inj hrun
  have hread := ok_of_toOption hr
  have hg : ∀ c, g.get c < r.nStates := by
    rw [hcount]
    exact Grid.forall_get (P := (· < 4)) (by decide) (Grid.forall_live hbelow)
  have hops : ∀ c state, .edit c state ∈ ops → state < r.nStates := by
    intro c state hmem
    obtain ⟨-, rfl⟩ : c = ⟨4, -1⟩ ∧ state = 2 := by simpa [ops] using hmem
    omega
  exact ⟨r, hread, hcount, hg, hops, hcells, stored_states_of_run hread surface hg 0 hops⟩

end Simulation

end Cellular
