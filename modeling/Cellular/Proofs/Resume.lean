/-
A run can be stopped and taken up again.

The text that a run prints has lost three things: where the pattern lay, which cells
changed last, and how many generations have passed.  None of them matters: the run that
starts from the text follows the one that was stopped, and with a single phase the
generation tells nothing.

The text itself is read back because the states of a run stay states of the rule.

The largest coordinate stands for no cell, so the two runs differ if one of them comes
near it and the other does not.  `Within` keeps them away: every live cell, and every
cell that it can reach, lies in the inner half of the coordinates.
-/
import Cellular.CommandLine.Execute
import Cellular.Proofs.Determinism
import Cellular.Proofs.Pattern.Codec
import Cellular.Proofs.Rule.Compile

namespace Cellular

namespace Simulation

variable {m m' : Simulation} {o : Offset}

/-- Every cell that a live cell can reach is in range. -/
def Within (m : Simulation) : Prop :=
  ∀ c, m.grid.get c ≠ 0 → ∀ o ∈ m.rule.reach, (c + o).InRange

/-! ### Patterns in range -/

theorem get_of_not_inRange (hw : m.Within) {c : Coord} (hc : ¬c.InRange) : m.grid.get c = 0 := by
  by_contra hlive
  have hrange := hw c hlive _ m.rule.zero_mem_reach
  rw [Coord.add_zero] at hrange
  exact hc hrange

theorem Within.clear (hw : m.Within) : m.Clear := fun c hc o ho => (hw c hc o ho).ne_nowhere

/-- A pattern that was in range before it was moved stays clear of `nowhere`, wherever
that was. -/
theorem Follows.clear (h : Follows o m m') (hw : m.Within)
    (ho : ¬(Surface.nowhere + o).InRange) : m'.Clear := by
  intro c hc p hp hnowhere
  rw [← h.moved] at hc
  have hrange := hw (c + o) hc p (h.rule ▸ hp)
  rw [Coord.add_right_comm, hnowhere] at hrange
  exact ho hrange

/-! ### Where the text puts the pattern -/

/-- The window of a pattern in range fits, and its corner is in range. -/
theorem window_of_within (hw : m.Within) :
    m.grid.window.Fits ∧ ¬(Surface.nowhere + m.grid.window.corner).InRange := by
  have hrange : ∀ c, m.grid.get c ≠ 0 → c.InRange := by
    intro c hc
    by_contra hout
    exact hc (get_of_not_inRange hw hout)
  unfold Grid.window
  cases hb : m.grid.tightBounds with
  | none => exact ⟨by decide, by decide⟩
  | some b =>
      obtain ⟨⟨l, hl, hleft⟩, ⟨r, hr, hright⟩, ⟨t, ht, htop⟩, ⟨u, hu, hbottom⟩⟩ :=
        Bounds.touches_of_enclosing hb
      have hl' := hrange l (Grid.mem_coords.mp hl)
      have hr' := hrange r (Grid.mem_coords.mp hr)
      have ht' := hrange t (Grid.mem_coords.mp ht)
      have hu' := hrange u (Grid.mem_coords.mp hu)
      unfold Coord.InRange at hl' hr' ht' hu'
      refine ⟨?_, ?_⟩
      · have hlimit : (Pattern.limit : Int) = 2 ^ 63 - 1 := by decide
        show b.right + 1 - b.left ≤ _ ∧ b.bottom + 1 - b.top ≤ _
        omega
      · intro hin
        have hsum : (0x7fffffffffffffff : Int) + b.top < 2 ^ 62 := hin.2.1
        omega

end Simulation

namespace CommandLine

variable {r : Rule} {text : String} {g : Grid} {pops : List Nat} {a b : Nat}

/-- What a run prints: the last grid, and how many cells there were. -/
theorem evolve_eq_ok {s : Surface} : evolve r s g a = .ok (text, pops) ↔
    Pattern.encodeGrid ((Simulation.start r s g 0).stepN a).grid r.name = .ok text ∧
      pops = (List.range (a + 1)).map
        fun t => ((Simulation.start r s g 0).stepN t).population := by
  unfold evolve
  rw [Simulation.record_eq]
  constructor
  · intro h
    obtain ⟨written, hwritten, hpair⟩ := ok_of_bind h
    injection hpair with hpair
    injection hpair with htext hpops
    exact ⟨htext ▸ hwritten, hpops.symm⟩
  · intro h
    obtain ⟨hwritten, hpops⟩ := h
    simp only
    rw [hwritten, hpops]
    rfl

/-- The text of a run is read as the last grid, moved to the origin. -/
theorem decode_of_evolve {ruleText : String} (hr : Rule.ofText ruleText = .ok r)
    (hg : ∀ c, g.get c < r.nStates) (hw : ((Simulation.start r .plane g 0).stepN a).Within)
    (hrun : evolve r .plane g a = .ok (text, pops)) :
    ∃ q, Pattern.decode text r.nStates = .ok q ∧ ∀ c, q.grid.get c
      = ((Simulation.start r .plane g 0).stepN a).grid.get
        (c + ((Simulation.start r .plane g 0).stepN a).grid.window.corner) := by
  obtain ⟨hwritten, -⟩ := evolve_eq_ok.mp hrun
  have hstates := Simulation.get_stepN_lt (m := Simulation.start r .plane g 0)
    (Simulation.contained_start (fun _ _ => rfl) 0)
    (fun phase ns s hs => Rule.next_lt hr phase ns hs) hg a
  obtain ⟨q, hq, hshows⟩ := Pattern.decode_of_encode (Grid.window_sides _)
    (Rule.name_of_ofText hr) (Simulation.window_of_within hw).1 hwritten fun c _ _ => hstates c
  exact ⟨q, hq, hshows.get⟩

/--
**A run may be stopped and resumed from its own output.**  On the plane, under a rule of
one phase that was read from a text and keeps the background, the text of a run of `a`
generations is read again.  The run of `b` generations from there counts the cells that
the run of `a + b` generations counts last, and prints what that one prints.
-/
theorem evolve_resume {ruleText patternText : String} {p : Pattern}
    (hr : Rule.ofText ruleText = .ok r) (hperiod : r.period = 1) (hq : r.Quiescent)
    (hp : Pattern.decode patternText r.nStates = .ok p)
    (hw : ∀ t ≤ a + b, ((Simulation.start r .plane p.grid 0).stepN t).Within)
    (hrun : evolve r .plane p.grid a = .ok (text, pops)) :
    ∃ q, Pattern.decode text r.nStates = .ok q ∧
      ((Simulation.start r .plane q.grid 0).record b).1
        = ((Simulation.start r .plane p.grid 0).record (a + b)).1.drop a ∧
      ∀ text' pops', evolve r .plane p.grid (a + b) = .ok (text', pops') →
        pops'.length = a + b + 1 ∧ evolve r .plane q.grid b = .ok (text', pops'.drop a) := by
  obtain ⟨s, -, hcompiled⟩ := Rule.of_ofText hr
  have htwo := hcompiled.two_le
  have hstates := Pattern.get_lt_of_decode hp (by omega)
  obtain ⟨q, hdecode, hget⟩ := decode_of_evolve hr hstates (hw a (by omega)) hrun
  have hcorner := (Simulation.window_of_within (hw a (by omega))).2
  generalize ((Simulation.start r .plane p.grid 0).stepN a).grid.window.corner = o at hget hcorner
  have hsound := Simulation.sound_start (s := .plane) hq (g := p.grid) (fun _ _ => rfl) 0
  have hfollows : Simulation.Follows o ((Simulation.start r .plane p.grid 0).stepN a)
      (Simulation.start r .plane q.grid 0) := {
    rule := (Simulation.rule_stepN (Simulation.start r .plane p.grid 0) a).symm
    surface := (Simulation.surface_stepN (Simulation.start r .plane p.grid 0) a).symm
    phase := by
      rw [Simulation.rule_stepN]
      simp only [Simulation.phase_of_single (show ¬1 < r.period by omega), Simulation.start]
    sound := Simulation.sound_stepN hq hsound a
    sound' := Simulation.sound_start hq (fun _ _ => rfl) 0
    moved := fun c => (hget c).symm }
  have hlater : ∀ t ≤ b, Simulation.Follows o ((Simulation.start r .plane p.grid 0).stepN (a + t))
      ((Simulation.start r .plane q.grid 0).stepN t) := by
    intro t ht
    rw [Simulation.stepN_add]
    refine hfollows.stepN_plane (Simulation.surface_stepN _ a)
      (by rw [Simulation.rule_stepN]; exact hq) t fun u hu hnow => ?_
    rw [← Simulation.stepN_add] at hnow ⊢
    exact ⟨(hw (a + u) (by omega)).clear, hnow.clear (hw (a + u) (by omega)) hcorner⟩
  -- The record of the longer run is that of its first part, followed by this one.
  have hpops : (List.range (b + 1)).map
        (fun t => ((Simulation.start r .plane q.grid 0).stepN t).population)
      = ((List.range (a + b + 1)).map
        fun t => ((Simulation.start r .plane p.grid 0).stepN t).population).drop a := by
    rw [show a + b + 1 = a + (b + 1) by omega, List.range_add (n := a), List.map_append,
      List.drop_left' (by simp), List.map_map]
    refine List.map_congr_left fun t ht => ?_
    exact (Grid.size_of_moved (hlater t (by rw [List.mem_range] at ht; omega)).moved).symm
  refine ⟨q, hdecode, ?_, fun text' pops' hlong => ?_⟩
  · rw [Simulation.record_eq, Simulation.record_eq]
    exact hpops
  · obtain ⟨hwritten, rfl⟩ := evolve_eq_ok.mp hlong
    refine ⟨by simp, evolve_eq_ok.mpr ⟨?_, hpops.symm⟩⟩
    exact Pattern.encodeGrid_of_moved (hlater b (Nat.le_refl b)).moved hwritten

theorem evolve_resume_of_drifting_cells :
    let ruleText := "Rulespace: Outer Totalistic\nState Weights: 0,1\nRulestring: b1s\n" ++
      "Neighbourhood Range: 1\nNeighbourhood:\n0,0,0\n1,0,0\n0,0,0\n"
    ∃ r p text pops, Rule.ofText ruleText = .ok r ∧ r.period = 1 ∧ r.Quiescent ∧
      Pattern.decode "x = 3, y = 2\nA.A$.A!" r.nStates = .ok p ∧
      (∀ t ≤ 1 + 2, ((Simulation.start r .plane p.grid 0).stepN t).Within) ∧
      evolve r .plane p.grid 1 = .ok (text, pops) ∧
      ∃ q, Pattern.decode text r.nStates = .ok q ∧
        ((Simulation.start r .plane q.grid 0).record 2).1
          = ((Simulation.start r .plane p.grid 0).record (1 + 2)).1.drop 1 ∧
        ∀ text' pops', evolve r .plane p.grid (1 + 2) = .ok (text', pops') →
          pops'.length = 1 + 2 + 1 ∧ evolve r .plane q.grid 2 = .ok (text', pops'.drop 1) := by
  intro ruleText
  let r := (Rule.ofText ruleText).toOption.getD .life
  let p := (Pattern.decode "x = 3, y = 2\nA.A$.A!" r.nStates).toOption.getD ⟨.empty, 0, 0, none⟩
  let run := (evolve r .plane p.grid 1).toOption.getD ("", [])
  have hall : (Rule.ofText ruleText).toOption.isSome = true ∧ r.period = 1 ∧
      (∀ phase < r.period, r.next phase (List.replicate (r.offsets phase).length 0) 0 = 0) ∧
      (Pattern.decode "x = 3, y = 2\nA.A$.A!" r.nStates).toOption.isSome = true ∧
      (∀ t < 4, ∀ c ∈ ((Simulation.start r .plane p.grid 0).stepN t).grid.coords,
        ∀ o ∈ r.reach, (c + o).InRange) ∧
      (evolve r .plane p.grid 1).toOption.isSome = true := by decide +kernel
  obtain ⟨hread, hperiod, hq, hdecode, hcoords, hevolve⟩ := hall
  have hr : Rule.ofText ruleText = .ok r := eq_ok_of_isSome hread .life
  have hp : Pattern.decode "x = 3, y = 2\nA.A$.A!" r.nStates = .ok p := eq_ok_of_isSome hdecode ⟨.empty, 0, 0, none⟩
  have hrun : evolve r .plane p.grid 1 = .ok run := eq_ok_of_isSome hevolve ("", [])
  have hw : ∀ t ≤ 1 + 2, ((Simulation.start r .plane p.grid 0).stepN t).Within := by
    intro t ht c hc o ho
    rw [Simulation.rule_stepN] at ho
    exact hcoords t (by omega) c (Grid.mem_coords.mpr hc) o ho
  clear_value run p r
  exact ⟨r, p, run.1, run.2, hr, hperiod, hq, hp, hw, hrun,
    evolve_resume hr hperiod hq hp hw hrun⟩

end CommandLine

end Cellular
