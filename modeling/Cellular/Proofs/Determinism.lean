/-
The pattern and the phase decide the future.

A simulation holds more than its pattern: the cells that changed last, and the table that
the last step left for the next.  Neither matters.  A sound simulation takes every cell to
the state that its neighbours ask for, whichever cells it takes for active.  `Follows o`
relates a simulation to one that shows the same pattern in the same phase, moved by `o`,
and a step keeps the relation.  In place this holds on every surface.  On the plane it
holds for every displacement, as long as both patterns are clear of the coordinate that
stands for no cell (`Clear`).

So a pattern that comes back in its phase comes back again and again, and if it comes
back elsewhere it goes on by the same displacement each time: `Follows.recurs` and
`Follows.drifts` make of one match the whole future.
-/
import Cellular.Proofs.Run

namespace Cellular

namespace Simulation

variable {m m' m'' : Simulation} {o p : Offset}

/-! ### A step takes every cell to its next state -/

theorem get_step_of_sound (h : m.Sound) {c : Coord} (hc : m.surface.contains c = true)
    (hne : m.surface.mirrors = true ∨ c ≠ Surface.nowhere) :
    m.step.grid.get c = m.rule.nextAt m.surface (m.rule.phase m.generation) m.grid.get c := by
  by_cases hex : m.rule.Examined m.surface m.grid m.active c
  · exact get_step_of_examined h.toContained hex
  · rw [h.quiet c hc hne hex]
    exact get_step_of_not_examined h.toContained hex

/-- Where nothing is mirrored the coordinate that stands for no cell is never written. -/
theorem get_step_nowhere (h : m.Contained) (hs : m.surface.mirrors = false) :
    m.step.grid.get Surface.nowhere = m.grid.get Surface.nowhere := by
  refine get_step_of_not_examined h ?_
  rintro ⟨a, -, hmem⟩
  exact Surface.nowhere_not_mem_affected hs hmem

/-! ### The same run, perhaps elsewhere -/

/-- The first simulation shows the pattern of the second one moved by `o`, in the same
phase; the active cells of the two may be others. -/
structure Follows (o : Offset) (m m' : Simulation) : Prop where
  rule : m'.rule = m.rule
  surface : m'.surface = m.surface
  phase : m.rule.phase m'.generation = m.rule.phase m.generation
  sound : m.Sound
  sound' : m'.Sound
  moved : ∀ c, m.grid.get (c + o) = m'.grid.get c

theorem Follows.refl (h : m.Sound) : Follows .zero m m :=
  ⟨rfl, rfl, rfl, h, h, fun c => by rw [Coord.add_zero]⟩

theorem Follows.trans (h : Follows o m m') (h' : Follows p m' m'') {q : Offset}
    (hadd : ∀ c : Coord, c + q = c + p + o) : Follows q m m'' where
  rule := h'.rule.trans h.rule
  surface := h'.surface.trans h.surface
  phase := by
    rw [← h.phase, ← h.rule]
    exact h'.phase
  sound := h.sound
  sound' := h'.sound'
  moved := fun c => by rw [hadd, h.moved, h'.moved]

/-- With a single phase the same cells are enough. -/
theorem Follows.of_single (hperiod : m.rule.period = 1) (hrule : m'.rule = m.rule)
    (hsurface : m'.surface = m.surface) (hs : m.Sound) (hs' : m'.Sound)
    (hsame : m.grid.sameCells m'.grid = true) : Follows .zero m m' where
  rule := hrule
  surface := hsurface
  phase := by
    have hsingle : ¬1 < m.rule.period := by omega
    rw [phase_of_single hsingle, phase_of_single hsingle]
  sound := hs
  sound' := hs'
  moved := fun c => by rw [Coord.add_zero, Grid.sameCells_iff.mp hsame]

theorem Follows.get (h : Follows .zero m m') (c : Coord) : m.grid.get c = m'.grid.get c := by
  have hc := h.moved c
  rwa [Coord.add_zero] at hc

theorem Follows.toList (h : Follows .zero m m') : m.grid.toList = m'.grid.toList :=
  Grid.toList_congr h.get

/-- The phases of the next generations are the same again. -/
theorem Follows.phase_step (h : Follows o m m') :
    m.rule.phase m'.step.generation = m.rule.phase m.step.generation :=
  Nat.ModEq.add_right 1 h.phase

/-! ### In place -/

/-- **One step of both, on any surface.** -/
theorem Follows.step (h : Follows .zero m m') (hq : m.rule.Quiescent) :
    Follows .zero m.step m'.step where
  rule := h.rule
  surface := h.surface
  phase := h.phase_step
  sound := sound_step hq h.sound
  sound' := sound_step (h.rule ▸ hq) h.sound'
  moved := by
    intro c
    rw [Coord.add_zero]
    have hsame : m.grid.get = m'.grid.get := funext h.get
    by_cases hc : m.surface.contains c = true
    · by_cases hne : m.surface.mirrors = true ∨ c ≠ Surface.nowhere
      · rw [get_step_of_sound h.sound hc hne,
          get_step_of_sound h.sound' (h.surface ▸ hc) (h.surface ▸ hne), h.rule, h.surface, h.phase,
          hsame]
      · obtain ⟨hs, hnowhere⟩ := not_or.mp hne
        rw [Bool.not_eq_true] at hs
        rw [not_not.mp hnowhere, get_step_nowhere h.sound.toContained hs,
          get_step_nowhere h.sound'.toContained (h.surface ▸ hs), h.get]
    · rw [(contained_step h.sound.toContained).get_eq_zero hc,
        (contained_step h.sound'.toContained).get_eq_zero (h.surface ▸ hc)]

/-- A whole run of both. -/
theorem Follows.stepN (h : Follows .zero m m') (hq : m.rule.Quiescent) (n : Nat) :
    Follows .zero (m.stepN n) (m'.stepN n) := by
  induction n with
  | zero => exact h
  | succ n ih =>
      rw [stepN_succ, stepN_succ]
      exact ih.step (by rw [rule_stepN]; exact hq)

/-- **What comes back in its phase comes back again and again.** -/
theorem Follows.recurs {n : Nat} (h : Follows .zero (m.stepN n) m) (hq : m.rule.Quiescent)
    (k : Nat) : Follows .zero (m.stepN (k * n)) m := by
  induction k with
  | zero =>
      rw [Nat.zero_mul]
      exact .refl h.sound'
  | succ k ih =>
      rw [Nat.succ_mul, stepN_add]
      exact (ih.stepN (by rw [rule_stepN]; exact hq) n).trans h fun c => by simp

/-! ### Elsewhere on the plane -/

/-- No live cell, and no cell that one can reach, is the coordinate that stands for no
cell. -/
def Clear (m : Simulation) : Prop :=
  ∀ c, m.grid.get c ≠ 0 → ∀ o ∈ m.rule.reach, c + o ≠ Surface.nowhere

theorem Clear.get_nowhere (h : m.Clear) : m.grid.get Surface.nowhere = 0 := by
  by_contra hlive
  exact h _ hlive _ m.rule.zero_mem_reach (Coord.add_zero _)

/-- What is clear of `nowhere` bears nothing there. -/
theorem Clear.nextAt_nowhere (h : m.Clear) (hq : m.rule.Quiescent) (hplane : m.surface = .plane) :
    m.rule.nextAt m.surface (m.rule.phase m.generation) m.grid.get Surface.nowhere = 0 := by
  refine hq.nextAt_eq_zero h.get_nowhere fun o ho => ?_
  rw [hplane]
  show m.grid.get (Surface.nowhere + o) = 0
  by_contra hlive
  exact h _ hlive _ (Rule.neg_mem_reach ho) (Coord.add_neg_cancel _ o)

/-- What a step makes of a cell of the plane; `nowhere` is no exception while the pattern
is clear of it. -/
theorem Clear.get_step (h : m.Clear) (hq : m.rule.Quiescent) (hs : m.Sound)
    (hplane : m.surface = .plane) (c : Coord) :
    m.step.grid.get c = m.rule.nextAt m.surface (m.rule.phase m.generation) m.grid.get c := by
  by_cases hc : c = Surface.nowhere
  · rw [hc, h.nextAt_nowhere hq hplane,
      get_step_nowhere hs.toContained (by rw [hplane]; rfl), h.get_nowhere]
  · exact get_step_of_sound hs (by rw [hplane]; rfl) (Or.inr hc)

theorem Follows.nextAt (h : Follows o m m') (hplane : m.surface = .plane) (c : Coord) :
    m'.rule.nextAt m'.surface (m'.rule.phase m'.generation) m'.grid.get c
      = m.rule.nextAt m.surface (m.rule.phase m.generation) m.grid.get (c + o) := by
  rw [h.rule, h.surface, h.phase, hplane, Rule.nextAt_eq, Rule.nextAt_eq, h.moved]
  congr 1
  refine List.map_congr_left fun p _ => ?_
  show m'.grid.get (c + p) = m.grid.get (c + o + p)
  rw [Coord.add_right_comm, h.moved]

/-- **One step of both, on the plane.** -/
theorem Follows.step_plane (h : Follows o m m') (hplane : m.surface = .plane)
    (hq : m.rule.Quiescent) (hclear : m.Clear) (hclear' : m'.Clear) :
    Follows o m.step m'.step where
  rule := h.rule
  surface := h.surface
  phase := h.phase_step
  sound := sound_step hq h.sound
  sound' := sound_step (h.rule ▸ hq) h.sound'
  moved := fun c => by
    rw [hclear.get_step hq h.sound hplane,
      hclear'.get_step (h.rule ▸ hq) h.sound' (h.surface.trans hplane), h.nextAt hplane]

/-- A whole run of both, if they stay clear as long as one follows the other. -/
theorem Follows.stepN_plane (h : Follows o m m') (hplane : m.surface = .plane)
    (hq : m.rule.Quiescent) (n : Nat) :
    (∀ t < n, Follows o (m.stepN t) (m'.stepN t) → (m.stepN t).Clear ∧ (m'.stepN t).Clear) →
      Follows o (m.stepN n) (m'.stepN n) := by
  induction n with
  | zero => intro _; exact h
  | succ n ih =>
      intro hclear
      have hn := ih fun t ht => hclear t (Nat.lt_succ_of_lt ht)
      obtain ⟨hc, hc'⟩ := hclear n (Nat.lt_succ_self n) hn
      rw [stepN_succ, stepN_succ]
      exact hn.step_plane (by rw [surface_stepN]; exact hplane) (by rw [rule_stepN]; exact hq) hc hc'

end Simulation

/-- A number of equal displacements. -/
def Offset.times (k : Nat) (o : Offset) : Offset := ⟨k * o.dy, k * o.dx⟩

namespace Simulation

variable {m : Simulation} {o : Offset}

/-- **What comes back elsewhere goes on by the same displacement.** -/
theorem Follows.drifts {n : Nat} (h : Follows o (m.stepN n) m) (hplane : m.surface = .plane)
    (hq : m.rule.Quiescent) (k : Nat) :
    (∀ t < k * n, (m.stepN t).Clear) → Follows (o.times k) (m.stepN (k * n)) m := by
  induction k with
  | zero =>
      intro _
      rw [Nat.zero_mul, show o.times 0 = .zero by simp [Offset.times, Offset.zero]]
      exact .refl h.sound'
  | succ k ih =>
      intro hclear
      rw [Nat.succ_mul] at hclear ⊢
      have hk := ih fun t ht => hclear t (by omega)
      rw [stepN_add]
      refine (hk.stepN_plane (by rw [surface_stepN]; exact hplane) (by rw [rule_stepN]; exact hq) n
        fun t ht _ => ⟨?_, hclear t (by omega)⟩).trans h fun c => ?_
      · rw [← stepN_add]
        exact hclear (k * n + t) (by omega)
      · ext <;> simp only [Coord.add_row, Coord.add_col, Offset.times] <;> push_cast <;> ring

end Simulation

end Cellular
