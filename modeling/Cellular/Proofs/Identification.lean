/-
What a verdict promises.

A verdict rests on one match: after so many generations the grid is the first one again,
in place or moved.  That says nothing yet of the generations after, for the grid is not
all there is to a simulation.  `Proofs/Determinism.lean` supplies the rest: a pattern that
comes back in its phase has the same future, whatever cells count as active.

With a single phase every match is one in its phase, so still lifes, oscillators and
spaceships are what they are called for ever (`identify_forever`).  With several phases a
match may fall into another phase, where the same grid has another future; it is certain
to come back only if the phases do (`identify_in_phase`).
-/
import Cellular.Identification
import Cellular.Rule.Compile
import Cellular.Proofs.Chain
import Cellular.Proofs.Determinism

namespace Cellular

/-- After how many generations the verdict says that the pattern is back in its place. -/
def Verdict.recurrence? : Verdict → Option Nat
  | stillLife => some 1
  | oscillator period => some period
  | _ => none

/-! ### Matches -/

theorem Orientation.classify?_eq_none {o : Offset} : classify? o = none ↔ o = .zero := by
  simp only [classify?, Offset.ext_iff, Offset.zero]
  split
  · simp only [true_iff]
    omega
  · split
    · simp only [reduceCtorEq, false_iff]
      omega
    · split <;> simp only [reduceCtorEq, false_iff] <;> omega

namespace Reference

variable {r : Reference} {g : Grid} {o : Offset} {kind : PatternKind} {period p : Nat}

private theorem eq_moved {cells : List (Coord × State)} :
    ∀ {now : List (Coord × State)}, cells.length = now.length → movedBy o cells now = true →
      cells = now.map fun p => (p.1 + o, p.2) := by
  induction cells with
  | nil =>
      intro now hlength _
      rw [List.length_eq_zero_iff.mp hlength.symm]
      rfl
  | cons x rest ih =>
      obtain ⟨a, s⟩ := x
      intro now hlength hmoved
      cases now with
      | nil => simp at hlength
      | cons y others =>
          obtain ⟨b, t⟩ := y
          unfold movedBy at hmoved
          simp only [List.zip_cons_cons, List.all_cons, Bool.and_eq_true,
            decide_eq_true_eq] at hmoved
          obtain ⟨⟨rfl, rfl⟩, hrest⟩ := hmoved
          rw [List.map_cons, ← ih (by simpa using hlength) hrest]
          congr 2
          ext <;> simp

/-- A grid that matches is the reference moved. -/
theorem get_of_translation? (hr : r.cells = r.grid.toList) (h : r.translation? g = some o)
    (c : Coord) : r.grid.get (c + o) = g.get c := by
  unfold translation? at h
  split at h
  · simp at h
  · rename_i hsize
    simp only at h
    split at h
    · rename_i a _ _ b _ _ hcells hnow
      split at h
      · rename_i hmoved
        obtain rfl := Option.some.inj h
        refine Grid.moved_of_toList ?_ c
        rw [← hr]
        refine eq_moved ?_ hmoved
        rw [← not_not.mp hsize]
        exact (Grid.length_toList g).symm
      · simp at h
    · simp at h

/-! ### Verdicts -/

theorem speed?_eq_none : speed? o period = none ↔ o = .zero := by
  unfold speed?
  rw [Option.map_eq_none_iff, Orientation.classify?_eq_none]

theorem eq_of_speed? {v : Speed} (h : speed? o period = some v) :
    v.dx = o.dx.natAbs ∧ v.dy = o.dy.natAbs ∧ v.period = period := by
  unfold speed? at h
  obtain ⟨_, -, rfl⟩ := Option.map_eq_some_iff.mp h
  exact ⟨rfl, rfl, rfl⟩

/-- Only what is displaced by nothing comes back in place. -/
theorem of_recurrence (h : (periodicVerdict o period).recurrence? = some p) :
    o = .zero ∧ p = period := by
  unfold periodicVerdict at h
  split at h
  · simp [Verdict.recurrence?] at h
  · rename_i hspeed
    refine ⟨speed?_eq_none.mp hspeed, ?_⟩
    split at h
    · rename_i hone
      rw [hone]
      simpa [Verdict.recurrence?] using h.symm
    · simpa [Verdict.recurrence?] using h.symm

theorem of_spaceship {v : Speed} (h : periodicVerdict o period = .spaceship v) :
    o ≠ .zero ∧ v.dx = o.dx.natAbs ∧ v.dy = o.dy.natAbs ∧ v.period = period := by
  unfold periodicVerdict at h
  split at h
  · rename_i speed hspeed
    injection h with h
    subst h
    refine ⟨fun hzero => ?_, eq_of_speed? hspeed⟩
    simp [speed?_eq_none.mpr hzero] at hspeed
  · split at h <;> simp at h

/-- A match is periodic, a replicator or a gun. -/
theorem verdict?_cases {v : Verdict} (h : r.verdict? kind g period = some v) :
    (∃ o, r.translation? g = some o ∧ v = periodicVerdict o period) ∨
      (∃ speed, v = .replicator speed) ∨ ∃ p, v = .gun p := by
  unfold verdict? at h
  simp only at h
  rcases Option.or_eq_some_iff.mp h with hperiodic | ⟨-, hother⟩
  · left
    split at hperiodic
    · obtain ⟨o, ho, rfl⟩ := Option.map_eq_some_iff.mp hperiodic
      exact ⟨o, ho, rfl⟩
    · simp at hperiodic
  · right
    rcases Option.or_eq_some_iff.mp hother with hcopies | ⟨-, hgun⟩
    · left
      split at hcopies
      · obtain ⟨speed, -, rfl⟩ := Option.map_eq_some_iff.mp hcopies
        exact ⟨speed, rfl⟩
      · simp at hcopies
    · right
      split at hgun
      · exact ⟨period, (Option.some.inj hgun).symm⟩
      · simp at hgun

/-- **The search ends without a match, or with the verdict on a later generation.** -/
theorem search_cases (r : Reference) (kind : PatternKind) (cancelled : Nat → Bool) (left : Nat) :
    ∀ (period : Nat) (m : Simulation),
      r.search kind cancelled left period m = .failed ∨
      r.search kind cancelled left period m = .cancelled ∨
      ∃ t < left, r.verdict? kind (m.stepN (t + 1)).grid (period + t)
        = some (r.search kind cancelled left period m) := by
  induction left with
  | zero => intro period m; exact Or.inl rfl
  | succ left ih =>
      intro period m
      unfold search
      by_cases hcancelled : cancelled period = true
      · rw [if_pos hcancelled]
        exact Or.inr (Or.inl rfl)
      · rw [if_neg hcancelled]
        simp only
        by_cases hempty : m.step.grid.isEmpty = true
        · rw [if_pos hempty]
          exact Or.inl rfl
        · rw [if_neg hempty]
          cases hv : r.verdict? kind m.step.grid period with
          | some v => exact Or.inr (Or.inr ⟨0, Nat.succ_pos left, hv⟩)
          | none =>
              rcases ih (period + 1) m.step with hfailed | hgiven | ⟨t, ht, hlater⟩
              · exact Or.inl hfailed
              · exact Or.inr (Or.inl hgiven)
              · refine Or.inr (Or.inr ⟨t + 1, by omega, ?_⟩)
                rw [show period + (t + 1) = period + 1 + t by omega]
                exact hlater

end Reference

section

variable {r : Rule} {s : Surface} {kind : PatternKind} {generation : Nat}
  {cancelled : Nat → Bool} {g : Grid}

/-- A verdict that is no failure is the one on a later generation of the run. -/
theorem verdict?_of_identify {v : Verdict}
    (h : identify r s kind generation cancelled g = v) (hfailed : v ≠ .failed)
    (hcancelled : v ≠ .cancelled) :
    ∃ b n, 0 < n ∧ Reference.verdict? ⟨g, g.toList, b⟩ kind
      ((Simulation.start r s g generation).stepN n).grid n = some v := by
  unfold identify Reference.ofGrid? at h
  cases hb : g.tightBounds with
  | none =>
      rw [hb] at h
      exact absurd h.symm hfailed
  | some b =>
      rw [hb] at h
      simp only [Option.map_some] at h
      subst h
      rcases Reference.search_cases ⟨g, g.toList, b⟩ kind cancelled maxPeriod 1
        (.start r s g generation) with hno | hno | ⟨t, -, ht⟩
      · exact absurd hno hfailed
      · exact absurd hno hcancelled
      · rw [Nat.add_comm 1 t] at ht
        exact ⟨b, t + 1, Nat.succ_pos t, ht⟩

/-- What comes back in place has done so after the generations that the verdict names. -/
theorem get_of_recurrence {p : Nat}
    (h : (identify r s kind generation cancelled g).recurrence? = some p) :
    0 < p ∧ ∀ c, ((Simulation.start r s g generation).stepN p).grid.get c = g.get c := by
  obtain ⟨b, n, hn, hv⟩ := verdict?_of_identify rfl
    (fun hno => by rw [hno] at h; simp [Verdict.recurrence?] at h)
    (fun hno => by rw [hno] at h; simp [Verdict.recurrence?] at h)
  rcases Reference.verdict?_cases hv with ⟨o, ho, hperiodic⟩ | ⟨speed, hother⟩ | ⟨q, hother⟩
  · rw [hperiodic] at h
    obtain ⟨rfl, rfl⟩ := Reference.of_recurrence h
    refine ⟨hn, fun c => ?_⟩
    rw [← Reference.get_of_translation? rfl ho c, Coord.add_zero]
  · rw [hother] at h
    simp [Verdict.recurrence?] at h
  · rw [hother] at h
    simp [Verdict.recurrence?] at h

/-- A spaceship has moved after the generations that the verdict names, as far as it says. -/
theorem get_of_spaceship {v : Speed}
    (h : identify r s kind generation cancelled g = .spaceship v) :
    0 < v.period ∧ ∃ d : Offset, d ≠ .zero ∧ v.dx = d.dx.natAbs ∧ v.dy = d.dy.natAbs ∧
      ∀ c, ((Simulation.start r s g generation).stepN v.period).grid.get (c + d) = g.get c := by
  obtain ⟨b, n, hn, hv⟩ := verdict?_of_identify h (by simp) (by simp)
  rcases Reference.verdict?_cases hv with ⟨o, ho, hperiodic⟩ | ⟨speed, hother⟩ | ⟨q, hother⟩
  · obtain ⟨hne, hdx, hdy, rfl⟩ := Reference.of_spaceship hperiodic.symm
    refine ⟨hn, -o, fun hzero => hne ?_, by simpa using hdx, by simpa using hdy, fun c => ?_⟩
    · simp only [Offset.ext_iff, Offset.neg_dy, Offset.neg_dx, Offset.zero] at hzero ⊢
      omega
    · rw [← Reference.get_of_translation? rfl ho (c + -o), Coord.neg_add_cancel]
  · simp at hother
  · simp at hother

/-- A pattern that comes back when the phases do follows itself. -/
theorem follows_of_return {o : Offset} {n : Nat} (hq : r.Quiescent)
    (hg : ∀ c, g.get c ≠ 0 → s.contains c = true) (hphase : r.period ∣ n)
    (h : ∀ c, ((Simulation.start r s g generation).stepN n).grid.get (c + o) = g.get c) :
    Simulation.Follows o ((Simulation.start r s g generation).stepN n) (.start r s g generation) where
  rule := (Simulation.rule_stepN _ n).symm
  surface := (Simulation.surface_stepN _ n).symm
  phase := by
    obtain ⟨q, rfl⟩ := hphase
    rw [Simulation.rule_stepN, Simulation.generation_stepN]
    exact (Nat.add_mul_mod_self_left generation r.period q).symm
  sound := Simulation.sound_stepN hq (Simulation.sound_start hq hg generation) n
  sound' := Simulation.sound_start hq hg generation
  moved := h

/-- With a single phase it does not matter from which generation a run counts. -/
theorem get_stepN_of_single (hperiod : r.period = 1) (hq : r.Quiescent)
    (hg : ∀ c, g.get c ≠ 0 → s.contains c = true) (first n : Nat) (c : Coord) :
    ((Simulation.start r s g first).stepN n).grid.get c
      = ((Simulation.start r s g generation).stepN n).grid.get c := by
  have hsame : Simulation.Follows .zero (.start r s g first) (.start r s g generation) :=
    .of_single hperiod rfl rfl (Simulation.sound_start hq hg first)
      (Simulation.sound_start hq hg generation) (Grid.sameCells_iff.mpr fun _ => rfl)
  exact (hsame.stepN hq n).get c

/-- A pattern that is called recurrent comes back whenever the phases do. -/
theorem sameCells_of_recurrence {p : Nat} (hq : r.Quiescent)
    (hg : ∀ c, g.get c ≠ 0 → s.contains c = true)
    (h : (identify r s kind generation cancelled g).recurrence? = some p)
    (hphase : r.period ∣ p) (k : Nat) :
    ((Simulation.start r s g generation).stepN (k * p)).grid.sameCells g = true := by
  have hreturn : Simulation.Follows .zero ((Simulation.start r s g generation).stepN p)
      (.start r s g generation) := by
    refine follows_of_return hq hg hphase fun c => ?_
    rw [Coord.add_zero]
    exact (get_of_recurrence h).2 c
  exact Grid.sameCells_iff.mpr (hreturn.recurs hq k).get

/--
**Periodic verdicts hold for ever.**  Let a rule have a single phase and keep the
background.  A pattern that is called a still life or an oscillator, on a surface that
holds its cells, is the same again after any multiple of its period.  A pattern of the
plane that is called a spaceship has moved on by as many displacements of the length that
the verdict gives, as long as it stays clear of the last coordinate.
-/
theorem identify_forever (hperiod : r.period = 1) (hq : r.Quiescent) :
    ((∀ c, g.get c ≠ 0 → s.contains c = true) → ∀ p,
      (identify r s kind generation cancelled g).recurrence? = some p →
      0 < p ∧ ∀ first k,
        ((Simulation.start r s g first).stepN (k * p)).grid.sameCells g = true) ∧
    ∀ v, identify r .plane kind generation cancelled g = .spaceship v →
      0 < v.period ∧ ∃ d : Offset, d ≠ .zero ∧
        v.dx = d.dx.natAbs ∧ v.dy = d.dy.natAbs ∧ ∀ first k,
        (∀ t < k * v.period, ((Simulation.start r .plane g first).stepN t).Clear) →
        ((Simulation.start r .plane g first).stepN (k * v.period)).grid.sameCells
          (g.translate (d.times k)) = true := by
  constructor
  · intro hg p h
    refine ⟨(get_of_recurrence h).1, fun first k => Grid.sameCells_iff.mpr fun c => ?_⟩
    rw [get_stepN_of_single hperiod hq hg first]
    exact Grid.sameCells_iff.mp (sameCells_of_recurrence hq hg h (by simp [hperiod]) k) c
  · intro v h
    obtain ⟨hpos, d, hne, hdx, hdy, hmoved⟩ := get_of_spaceship h
    refine ⟨hpos, d, hne, hdx, hdy, fun first k hclear => Grid.sameCells_iff.mpr fun c => ?_⟩
    have hreturn : Simulation.Follows d ((Simulation.start r .plane g first).stepN v.period)
        (.start r .plane g first) := by
      refine follows_of_return hq (fun _ _ => rfl) (by simp [hperiod]) fun c => ?_
      rw [get_stepN_of_single hperiod hq (fun _ _ => rfl) first]
      exact hmoved c
    have hk := (hreturn.drifts rfl hq k hclear).moved (c + -d.times k)
    have htranslate := Grid.get_translate g (d.times k) (c + -d.times k)
    rw [Coord.neg_add_cancel] at hk htranslate
    rw [hk, htranslate]
    rfl

theorem identify_forever_of_drifting_cells :
    let r : Rule := {
      name := "Drift", nStates := 2, neighbourhoods := [.ofOffsets [⟨0, -1⟩]]
      stateWeights := [[0, 1]], space := .custom, conditions := .weighted
      transition := .function fun _ neighbours _ => neighbours.headD 0
      palette := none, neighbourhoods_ne := by simp }
    let torus := Surface.box .torus 3 1
    let g := Grid.ofList [(⟨0, 0⟩, 1), (⟨0, 2⟩, 1)]
    let v : Speed := ⟨1, 0, 1, .orthogonal⟩
    r.period = 1 ∧ r.Quiescent ∧ (∀ c, g.get c ≠ 0 → torus.contains c = true) ∧
      (identify r torus .any 0 (fun _ => false) g).recurrence? = some 3 ∧
      (∀ first k, ((Simulation.start r torus g first).stepN (k * 3)).grid.sameCells g = true) ∧
      identify r .plane .any 0 (fun _ => false) g = .spaceship v ∧
      (∀ t < 4 * v.period, ((Simulation.start r .plane g 5).stepN t).Clear) ∧
      ∃ d : Offset, v.dx = d.dx.natAbs ∧ v.dy = d.dy.natAbs ∧
        ((Simulation.start r .plane g 5).stepN (4 * v.period)).grid.sameCells
          (g.translate (d.times 4)) = true := by
  intro r torus g v
  have hall : r.period = 1 ∧ r.Quiescent ∧
      (∀ c ∈ g.coords, torus.contains c = true) ∧
      (identify r torus .any 0 (fun _ => false) g).recurrence? = some 3 ∧
      identify r .plane .any 0 (fun _ => false) g = .spaceship v ∧
      ∀ t < 4 * v.period, ∀ c ∈ ((Simulation.start r .plane g 5).stepN t).grid.coords,
        ∀ o ∈ r.reach, c + o ≠ Surface.nowhere := by decide +kernel
  obtain ⟨hperiod, hq, hcoords, htorus, hplane, hreached⟩ := hall
  have hg : ∀ c, g.get c ≠ 0 → torus.contains c = true :=
    Grid.forall_live hcoords
  have hclear : ∀ t < 4 * v.period, ((Simulation.start r .plane g 5).stepN t).Clear := by
    intro t ht c hc o ho
    rw [Simulation.rule_stepN] at ho
    exact hreached t ht c (Grid.mem_coords.mpr hc) o ho
  clear_value g r
  obtain ⟨hback, hgone⟩ := @identify_forever r torus .any 0 (fun _ => false) g hperiod hq
  obtain ⟨-, d, -, hdx, hdy, hmoves⟩ := hgone v hplane
  exact ⟨hperiod, hq, hg, htorus, (hback hg 3 htorus).2, hplane, hclear, d, hdx, hdy,
    hmoves 5 4 hclear⟩

end

end Cellular
