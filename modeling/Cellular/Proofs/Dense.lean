/-
A run that looks at few cells is a run that looks at all of them.

`Dense` is the simulator nobody would want to run: it keeps the state of every
coordinate in a function, and at each step it computes the next state of every cell of
the surface from the states before.  A `Simulation` computes the next state of the
examined cells only, so what has to be shown is that no other cell would have changed.

That is `Sound.quiet`, and it is an invariant.  It holds at the start because every live
cell is a seed: a cell that is not examined reads nothing but background.  A step keeps
it, since a cell that is not examined afterwards reads only cells that the step left
alone, and so does an edit, which makes the edited cell a seed.  A rule with several
phases has no use for the history: each of its steps has every live cell as a seed.

The coordinate `nowhere` stands for no cell, also on the plane, where it would be one.
A run has to stay away from it.
-/
import Mathlib.Data.List.Infix
import Cellular.Evolution.Simulation
import Cellular.Proofs.Step

namespace Cellular

/-- What can be done to a pattern under way. -/
inductive Operation where
  | edit (c : Coord) (state : State)
  | step

/-- Does one thing to a simulation. -/
def Simulation.apply (m : Simulation) : Operation → Simulation
  | .edit c state => m.setCell c state
  | .step => m.step

/-- Does one thing after the other. -/
def Simulation.run (m : Simulation) (ops : List Operation) : Simulation := ops.foldl apply m

/-- The state of every coordinate, and the number of the generation. -/
structure Dense where
  look : Coord → State
  generation : Nat

namespace Dense

variable (r : Rule) (s : Surface)

/-- Computes the next state of every cell of the surface from the states before. -/
def step (d : Dense) : Dense where
  look c :=
    if s.contains c then
      r.next (r.phase d.generation)
        ((r.offsets (r.phase d.generation)).map fun o => d.look (s.resolve (c + o))) (d.look c)
    else 0
  generation := d.generation + 1

/-- Writes the state of the cell that a coordinate names, if it names one. -/
def edit (d : Dense) (c : Coord) (state : State) : Dense where
  look e := if e = s.resolve c ∧ s.resolve c ≠ Surface.nowhere then state else d.look e
  generation := d.generation

/-- Does one thing to the states. -/
def apply (d : Dense) : Operation → Dense
  | .edit c state => d.edit s c state
  | .step => d.step r s

/-- Does one thing after the other. -/
def run (d : Dense) (ops : List Operation) : Dense := ops.foldl (apply r s) d

end Dense

/-! ### No cell changes unseen -/

/-- What a simulation keeps whatever its rule does. -/
structure Simulation.Contained (m : Simulation) : Prop where
  scratch : m.stepper.candidates.Valid
  /-- Every live cell is a cell of the surface. -/
  inside : ∀ c, m.grid.get c ≠ 0 → m.surface.contains c = true

/-- What makes it safe to look at the examined cells only. -/
structure Simulation.Sound (m : Simulation) : Prop extends m.Contained where
  /-- A cell that the next step could examine, and does not, would not change. -/
  quiet : ∀ c, m.surface.contains c = true → (m.surface.mirrors = true ∨ c ≠ Surface.nowhere) →
    ¬m.rule.Examined m.surface m.grid m.active c →
    m.rule.nextAt m.surface (m.rule.phase m.generation) m.grid.get c = m.grid.get c

namespace Simulation

variable {r : Rule} {s : Surface}

/-- Where every live cell is a seed, a cell that is not examined reads background. -/
theorem quiet_of_seeds {g : Grid} {active : ActiveSet} (hq : r.Quiescent)
    (inside : ∀ c, g.get c ≠ 0 → s.contains c = true)
    (hseeds : ∀ a, g.get a ≠ 0 → a ∈ r.seeds g active) (generation : Nat) {c : Coord}
    (hc : s.contains c = true) (hne : s.mirrors = true ∨ c ≠ Surface.nowhere)
    (hnot : ¬r.Examined s g active c) :
    r.nextAt s (r.phase generation) g.get c = g.get c := by
  have hself : g.get c = 0 := by
    by_contra hlive
    exact hnot (r.examined_of_seed hc hne (hseeds c hlive))
  rw [hself]
  refine hq.nextAt_eq_zero hself fun o ho => ?_
  by_contra hlive
  exact hnot (r.examined_of_reads hc hne ho (inside _ hlive) (hseeds _ hlive))

/-- A cell that is not examined reads the same in two grids that agree off the seeds. -/
theorem nextAt_of_agree {g g' : Grid} {active : ActiveSet}
    (hagree : ∀ a, s.contains a = true → a ∉ r.seeds g' active → g'.get a = g.get a)
    (hout : ∀ a, s.contains a = false → g'.get a = g.get a) (phase : Nat) {c : Coord}
    (hc : s.contains c = true) (hne : s.mirrors = true ∨ c ≠ Surface.nowhere)
    (hnot : ¬r.Examined s g' active c) :
    g'.get c = g.get c ∧ r.nextAt s phase g'.get c = r.nextAt s phase g.get c := by
  have hself : g'.get c = g.get c :=
    hagree c hc fun hseed => hnot (r.examined_of_seed hc hne hseed)
  refine ⟨hself, r.nextAt_congr hself fun o ho => ?_⟩
  by_cases hread : s.contains (s.resolve (c + o)) = true
  · exact hagree _ hread fun hseed => hnot (r.examined_of_reads hc hne ho hread hseed)
  · exact hout _ (Bool.eq_false_iff.mpr hread)

theorem seeds_of_single {g : Grid} {active : ActiveSet} (h : ¬1 < r.period) :
    r.seeds g active = active := if_neg h

theorem mem_seeds_of_live {g : Grid} {active : ActiveSet} (h : 1 < r.period) {a : Coord}
    (ha : g.get a ≠ 0) : a ∈ r.seeds g active := by
  unfold Rule.seeds
  rw [if_pos h]
  exact List.mem_append_right _ (Grid.mem_coords.mpr ha)

theorem mem_seeds_of_active {g : Grid} {active : ActiveSet} {a : Coord} (ha : a ∈ active) :
    a ∈ r.seeds g active := by
  unfold Rule.seeds
  split
  · exact List.mem_append_left _ ha
  · exact ha

theorem phase_of_single (h : ¬1 < r.period) (generation : Nat) : r.phase generation = 0 := by
  have hpos := r.period_pos
  have hone : r.period = 1 := by omega
  unfold Rule.phase
  rw [hone, Nat.mod_one]

theorem contained_start {g : Grid} (hg : ∀ c, g.get c ≠ 0 → s.contains c = true)
    (generation : Nat) : (start r s g generation).Contained where
  scratch := Stepper.valid_fresh
  inside := hg

theorem Contained.get_eq_zero {m : Simulation} (h : m.Contained) {c : Coord}
    (hc : ¬m.surface.contains c = true) : m.grid.get c = 0 := by
  by_contra hlive
  exact hc (h.inside c hlive)

/-- The first generation. -/
theorem sound_start {g : Grid} (hq : r.Quiescent)
    (hg : ∀ c, g.get c ≠ 0 → s.contains c = true) (generation : Nat) :
    (start r s g generation).Sound where
  toContained := contained_start hg generation
  quiet := fun _ hc hne hnot =>
    quiet_of_seeds hq hg
      (fun _ ha => mem_seeds_of_active (Grid.mem_coords.mpr ha)) generation hc hne hnot

theorem get_step_of_examined {m : Simulation} (h : m.Contained) {c : Coord}
    (hc : m.rule.Examined m.surface m.grid m.active c) :
    m.step.grid.get c = m.rule.nextAt m.surface (m.rule.phase m.generation) m.grid.get c :=
  Stepper.get_step_of_examined h.scratch m.generation hc

theorem get_step_of_not_examined {m : Simulation} (h : m.Contained) {c : Coord}
    (hc : ¬m.rule.Examined m.surface m.grid m.active c) : m.step.grid.get c = m.grid.get c :=
  Stepper.get_step_of_not_examined h.scratch m.generation hc

/-- **Live cells stay on the surface.** -/
theorem contained_step {m : Simulation} (h : m.Contained) : m.step.Contained where
  scratch := Stepper.valid_step h.scratch m.generation m.grid m.active
  inside := by
    intro c hlive
    by_cases hc : m.rule.Examined m.surface m.grid m.active c
    · exact hc.contains
    · rw [get_step_of_not_examined h hc] at hlive
      exact h.inside c hlive

/-- **A step leaves no cell behind that would change unseen.** -/
theorem sound_step {m : Simulation} (hq : m.rule.Quiescent) (h : m.Sound) : m.step.Sound where
  toContained := contained_step h.toContained
  quiet := by
    intro c hc hne hnot
    by_cases hperiod : 1 < m.rule.period
    · exact quiet_of_seeds hq (contained_step h.toContained).inside
        (fun a ha => mem_seeds_of_live hperiod ha) m.step.generation hc hne hnot
    · -- The seeds of the next step are the cells that this one changed.
      have hagree : ∀ a, m.surface.contains a = true → a ∉ m.rule.seeds m.step.grid m.step.active →
          m.step.grid.get a = m.grid.get a := by
        intro a _ hseed
        rw [seeds_of_single hperiod] at hseed
        by_cases ha : m.rule.Examined m.surface m.grid m.active a
        · rw [get_step_of_examined h.toContained ha]
          by_contra hdiff
          exact hseed ((Stepper.mem_changed h.scratch).mpr ⟨ha, hdiff⟩)
        · exact get_step_of_not_examined h.toContained ha
      have hout : ∀ a, m.surface.contains a = false → m.step.grid.get a = m.grid.get a := by
        intro a ha
        refine get_step_of_not_examined h.toContained fun hex => ?_
        rw [hex.contains] at ha
        simp at ha
      obtain ⟨hself, hnext⟩ := nextAt_of_agree hagree hout 0 hc hne hnot
      show m.rule.nextAt m.surface (m.rule.phase (m.generation + 1)) m.step.grid.get c
        = m.step.grid.get c
      rw [phase_of_single hperiod, hnext]
      by_cases hex : m.rule.Examined m.surface m.grid m.active c
      · rw [get_step_of_examined h.toContained hex, phase_of_single hperiod]
      · have hbefore := h.quiet c hc hne hex
        rw [phase_of_single hperiod] at hbefore
        rw [hbefore, hself]

/-- What an edit does to the parts of a simulation. -/
theorem setCell_eq (m : Simulation) {c : Coord} (state : State)
    (hc : m.surface.resolve c ≠ Surface.nowhere) :
    m.setCell c state = { m with
      grid := m.grid.set (m.surface.resolve c) state
      active := if m.grid.get (m.surface.resolve c) = state then m.active
        else m.active ++ [m.surface.resolve c] } := by
  unfold setCell
  simp only
  rw [if_neg hc]

theorem setCell_nowhere (m : Simulation) {c : Coord} (state : State)
    (hc : m.surface.resolve c = Surface.nowhere) : m.setCell c state = m := by
  unfold setCell
  simp only
  rw [if_pos hc]

private theorem inside_set {m : Simulation} (h : m.Sound) {c : Coord} (state : State)
    (hc : m.surface.contains c = true) :
    ∀ e, (m.grid.set c state).get e ≠ 0 → m.surface.contains e = true := by
  intro e he
  rw [Grid.get_set] at he
  split at he
  · rename_i heq
    rw [heq]
    exact hc
  · exact h.inside e he

/-- **An edit leaves no cell behind that would change unseen.** -/
theorem sound_setCell {m : Simulation} (hq : m.rule.Quiescent) (h : m.Sound) (c : Coord)
    (state : State) : (m.setCell c state).Sound := by
  by_cases hc : m.surface.resolve c = Surface.nowhere
  · rw [setCell_nowhere m state hc]
    exact h
  · rw [setCell_eq m state hc]
    have hon := Surface.contains_resolve hc
    generalize m.surface.resolve c = d at hon
    refine ⟨⟨h.scratch, inside_set h state hon⟩, ?_⟩
    intro e he hne hnot
    simp only at he hnot ⊢
    by_cases hperiod : 1 < m.rule.period
    · exact quiet_of_seeds hq (inside_set h state hon)
        (fun a ha => mem_seeds_of_live hperiod ha) m.generation he hne hnot
    · -- The edited cell is a seed unless it had the state already.
      have hagree : ∀ a, m.surface.contains a = true →
          a ∉ m.rule.seeds (m.grid.set d state)
            (if m.grid.get d = state then m.active else m.active ++ [d]) →
          (m.grid.set d state).get a = m.grid.get a := by
        intro a _ hseed
        rw [seeds_of_single hperiod] at hseed
        rw [Grid.get_set]
        split
        · rename_i had
          subst had
          by_contra hdiff
          rw [if_neg (fun heq => hdiff heq.symm)] at hseed
          exact hseed List.mem_concat_self
        · rfl
      have hout : ∀ a, m.surface.contains a = false →
          (m.grid.set d state).get a = m.grid.get a := by
        intro a ha
        rw [Grid.get_set, if_neg]
        intro heq
        rw [heq, hon] at ha
        simp at ha
      obtain ⟨hself, hnext⟩ := nextAt_of_agree hagree hout (m.rule.phase m.generation) he hne hnot
      rw [hself, hnext]
      refine h.quiet e he hne fun hex => hnot ?_
      obtain ⟨a, ha, hmem⟩ := hex
      rw [seeds_of_single hperiod] at ha
      refine ⟨a, ?_, hmem⟩
      rw [seeds_of_single hperiod]
      split
      · exact ha
      · exact List.mem_append_left [d] ha

/-- Whatever is done, no cell changes unseen. -/
theorem sound_apply {m : Simulation} (hq : m.rule.Quiescent) (h : m.Sound) (op : Operation) :
    (m.apply op).Sound := by
  cases op with
  | edit c state => exact sound_setCell hq h c state
  | step => exact sound_step hq h

/-! ### The two runs agree -/

@[simp] theorem rule_apply (m : Simulation) (op : Operation) : (m.apply op).rule = m.rule := by
  cases op with
  | step => rfl
  | edit c state =>
      show (m.setCell c state).rule = m.rule
      by_cases hc : m.surface.resolve c = Surface.nowhere
      · rw [setCell_nowhere m state hc]
      · rw [setCell_eq m state hc]

@[simp] theorem surface_apply (m : Simulation) (op : Operation) :
    (m.apply op).surface = m.surface := by
  cases op with
  | step => rfl
  | edit c state =>
      show (m.setCell c state).surface = m.surface
      by_cases hc : m.surface.resolve c = Surface.nowhere
      · rw [setCell_nowhere m state hc]
      · rw [setCell_eq m state hc]

/-- The simulation and the dense states are the same pattern in the same generation. -/
structure Agrees (m : Simulation) (d : Dense) : Prop where
  look : ∀ c, m.grid.get c = d.look c
  generation : m.generation = d.generation

theorem agrees_edit {m : Simulation} {d : Dense} (h : m.Agrees d) (c : Coord) (state : State) :
    (m.setCell c state).Agrees (d.edit m.surface c state) := by
  by_cases hc : m.surface.resolve c = Surface.nowhere
  · rw [setCell_nowhere m state hc]
    refine ⟨fun e => ?_, h.generation⟩
    show m.grid.get e = if e = _ ∧ _ then state else d.look e
    rw [if_neg (fun hand => hand.2 hc)]
    exact h.look e
  · rw [setCell_eq m state hc]
    refine ⟨fun e => ?_, h.generation⟩
    show (m.grid.set _ state).get e = if e = _ ∧ _ then state else d.look e
    rw [Grid.get_set, h.look e]
    by_cases he : e = m.surface.resolve c
    · rw [if_pos he, if_pos ⟨he, hc⟩]
    · rw [if_neg he, if_neg (fun hand => he hand.1)]

/-- One step of either, as long as it stays away from the coordinate of no cell. -/
theorem agrees_step {m : Simulation} {d : Dense} (hs : m.Sound) (h : m.Agrees d)
    (hnow : d.look Surface.nowhere = 0) (hnext : (d.step m.rule m.surface).look Surface.nowhere = 0) :
    m.step.Agrees (d.step m.rule m.surface) := by
  refine ⟨fun c => ?_, by show m.generation + 1 = d.generation + 1; rw [h.generation]⟩
  have hdense : m.surface.contains c = true → (d.step m.rule m.surface).look c
      = m.rule.nextAt m.surface (m.rule.phase m.generation) m.grid.get c := by
    intro hc
    have hlook : d.look = m.grid.get := funext fun e => (h.look e).symm
    rw [Rule.nextAt_eq, ← hlook, h.generation]
    exact if_pos hc
  by_cases hex : m.rule.Examined m.surface m.grid m.active c
  · rw [hdense hex.contains]
    exact get_step_of_examined hs.toContained hex
  · rw [get_step_of_not_examined hs.toContained hex]
    by_cases hc : m.surface.contains c = true
    · by_cases hne : c = Surface.nowhere
      · rw [hne, hnext, h.look, hnow]
      · rw [hdense hc, hs.quiet c hc (Or.inr hne) hex]
    · rw [hs.toContained.get_eq_zero hc]
      exact (if_neg hc).symm

/-- A whole run of either: the invariant and the agreement are carried along. -/
theorem agrees_run (ops : List Operation) :
    ∀ {m : Simulation} {d : Dense}, m.rule.Quiescent → m.Sound → m.Agrees d →
      (∀ done, done <+: ops → (d.run m.rule m.surface done).look Surface.nowhere = 0) →
      (m.run ops).Sound ∧ (m.run ops).Agrees (d.run m.rule m.surface ops) ∧
        (m.run ops).surface = m.surface := by
  induction ops with
  | nil => intro m d _ hs h _; exact ⟨hs, h, rfl⟩
  | cons op rest ih =>
      intro m d hq hs h hfar
      have hnow : d.look Surface.nowhere = 0 := hfar [] List.nil_prefix
      have hnext : (d.apply m.rule m.surface op).look Surface.nowhere = 0 :=
        hfar [op] (List.prefix_append [op] rest)
      have hagree : (m.apply op).Agrees (d.apply m.rule m.surface op) := by
        cases op with
        | edit c state => exact agrees_edit h c state
        | step => exact agrees_step hs h hnow hnext
      have hrest := ih (m := m.apply op) (d := d.apply m.rule m.surface op)
        (by rw [rule_apply]; exact hq) (sound_apply hq hs op) hagree (by
          intro done hdone
          rw [rule_apply, surface_apply]
          exact hfar (op :: done) (List.cons_prefix_cons.mpr ⟨rfl, hdone⟩))
      rw [rule_apply, surface_apply] at hrest
      exact hrest

/--
**Looking at few cells is enough.**  Let background surrounded by background stay
background in every phase, and let the surface hold the cells of the first grid.  Then
after every part of a run of edits and steps the simulation has the states of the dense
one, and no live cell lies off the surface.

The coordinates are unbounded, so of the limits of the machine integers only `nowhere`
is left, the largest of them, which stands for no cell: the run stays away from it.
-/
theorem run_eq_dense (r : Rule) (s : Surface) (g : Grid) (generation : Nat)
    (ops : List Operation) (hq : r.Quiescent) (hg : ∀ c, g.get c ≠ 0 → s.contains c = true)
    (hfar : ∀ done, done <+: ops →
      (Dense.run r s ⟨g.get, generation⟩ done).look Surface.nowhere = 0) :
    ∀ done, done <+: ops → ∀ c,
      ((start r s g generation).run done).grid.get c
        = (Dense.run r s ⟨g.get, generation⟩ done).look c ∧
      (((start r s g generation).run done).grid.get c ≠ 0 → s.contains c = true) := by
  intro done hdone c
  obtain ⟨hs, hagree, hsurface⟩ := agrees_run done (m := start r s g generation)
    (d := ⟨g.get, generation⟩) hq (sound_start hq hg generation) ⟨fun _ => rfl, rfl⟩
    fun pre hpre => hfar pre (hpre.trans hdone)
  refine ⟨hagree.look c, fun hlive => ?_⟩
  have hinside := hs.inside c hlive
  rwa [hsurface] at hinside

theorem run_eq_dense_on_klein_bottle :
    let r := Rule.life
    let s := Surface.box .klein 5 4
    let g := Grid.ofList [(⟨0, 0⟩, 1), (⟨0, 1⟩, 1), (⟨1, 0⟩, 1)]
    let ops := [Operation.edit ⟨-1, 7⟩ 1, .step, .step]
    r.Quiescent ∧ (∀ c, g.get c ≠ 0 → s.contains c = true) ∧
      (∀ done, done <+: ops → (Dense.run r s ⟨g.get, 0⟩ done).look Surface.nowhere = 0) ∧
      ∀ done, done <+: ops → ∀ c,
        ((start r s g 0).run done).grid.get c = (Dense.run r s ⟨g.get, 0⟩ done).look c ∧
        (((start r s g 0).run done).grid.get c ≠ 0 → s.contains c = true) := by
  intro r s g ops
  have hq : r.Quiescent := by
    unfold Rule.Quiescent
    decide +kernel
  have hg : ∀ c, g.get c ≠ 0 → s.contains c = true := by
    have h : ∀ c ∈ g.coords, s.contains c = true := by decide +kernel
    exact fun c hc => h c (Grid.mem_coords.mpr hc)
  have hfar : ∀ done, done <+: ops →
      (Dense.run r s ⟨g.get, 0⟩ done).look Surface.nowhere = 0 := by
    have h : ∀ done ∈ ops.inits,
        (Dense.run r s ⟨g.get, 0⟩ done).look Surface.nowhere = 0 := by decide +kernel
    exact fun done hdone => h done ((List.mem_inits done ops).mpr hdone)
  exact ⟨hq, hg, hfar, run_eq_dense r s g 0 ops hq hg hfar⟩

end Simulation

end Cellular
