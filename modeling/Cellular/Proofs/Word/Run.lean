/-
Runs within words.

A pattern spreads no faster than its rule reaches, so what a simulation looks at is known to lie in
a square that grows by the margin of the rule in every generation (`Inside.step`).  As long as
the square is far enough from the limits no step gives up (`Inside.stepNInWords`).

A run gives up at the first step that does, and one that does not goes through the generations of
`stepN`.  What is recorded of it and what is printed at its end is then the same as well
(`evolveInWords_eq_ok`).
-/
import Cellular.Proofs.Resume
import Cellular.Proofs.Word.Step

namespace Cellular

namespace Simulation

variable {m m' : Simulation} {b : Int} {r : Rule} {s : Surface} {g : Grid}

/-! ### How far a run reaches -/

/-- All that a simulation looks at is no further from the origin than `b`. -/
structure Inside (m : Simulation) (b : Int) : Prop where
  surface : m.surface.Within b
  live : ∀ c, m.grid.get c ≠ 0 → c.Within b
  active : ∀ c ∈ m.active, c.Within b
  valid : m.stepper.candidates.Valid

theorem Inside.seeds (h : m.Inside b) : ∀ a ∈ m.rule.seeds m.grid m.active, a.Within b := by
  intro a ha
  rcases Rule.mem_seeds_iff.mp ha with hactive | ⟨-, hlive⟩
  · exact h.active a hactive
  · exact h.live a hlive

theorem inside_start (hs : s.Within b) (hg : ∀ c, g.get c ≠ 0 → c.Within b) (generation : Nat) :
    (start r s g generation).Inside b where
  surface := hs
  live := hg
  active c hc := hg c (Grid.mem_coords.mp hc)
  valid := Stepper.valid_fresh

/-- **In one generation a pattern spreads no further than the rule reaches.** -/
theorem Inside.step (h : m.Inside b) : m.step.Inside (b + m.rule.margin) where
  surface := h.surface.mono (by omega)
  live c hc := by
    by_cases hcandidate : m.rule.Candidate m.surface m.grid m.active c
    · exact hcandidate.within h.surface h.seeds
    · have hget : m.step.grid.get c = m.grid.get c :=
        Stepper.get_step_of_not_examined h.valid m.generation
          fun hexamined => hcandidate (Rule.examined_iff_candidate.mp hexamined)
      rw [hget] at hc
      exact (h.live c hc).mono (by omega)
  active c hc :=
    Rule.Candidate.within (Rule.examined_iff_candidate.mp ((Stepper.mem_changed h.valid).mp hc).1)
      h.surface h.seeds
  valid := Stepper.valid_step h.valid m.generation m.grid m.active

theorem Inside.stepN (h : m.Inside b) (n : Nat) : (m.stepN n).Inside (b + n * m.rule.margin) := by
  induction n with
  | zero =>
      rw [Int.natCast_zero, Int.zero_mul, Int.add_zero]
      exact h
  | succ n ih =>
      have hnext := ih.step
      rw [← stepN_succ, rule_stepN] at hnext
      have hsum : b + (n + 1 : Nat) * (m.rule.margin : Int)
          = b + n * m.rule.margin + m.rule.margin := by
        rw [Int.natCast_succ, Int.add_mul, Int.one_mul, Int.add_assoc]
      rwa [hsum]

/-- An edit names no cell that is further away than the surface or the coordinate. -/
theorem Inside.setCell {c : Coord} (h : m.Inside b) (hc : c.Within b) (state : State) :
    (m.setCell c state).Inside b := by
  unfold Simulation.setCell
  simp only
  split
  · exact h
  · rename_i hcell
    have hnamed := Surface.within_resolve h.surface hc hcell
    refine ⟨h.surface, fun a ha => ?_, fun a ha => ?_, h.valid⟩
    · rw [Grid.get_set] at ha
      split at ha
      · rename_i hsame
        exact hsame ▸ hnamed
      · exact h.live a ha
    · split at ha
      · exact h.active a ha
      · rcases List.mem_append.mp ha with hbefore | hedited
        · exact h.active a hbefore
        · exact List.mem_singleton.mp hedited ▸ hnamed

/-! ### Answers -/

theorem setCellInWords_eq_ok {c : Coord} {state : State} : m.setCellInWords c state = .ok m' ↔
    AllFit (m.surface.resolveArithmetic c) ∧ m.setCell c state = m' := perform_then

/-- Does a step of the simulation answer? -/
def FitsWords (m : Simulation) : Prop := AllFit m.stepArithmetic

theorem stepInWords_eq_ok : m.stepInWords = .ok m' ↔ m.FitsWords ∧ m.step = m' := perform_then

/-- What follows on a step is answered if the step is. -/
theorem stepInWords_then_eq_ok {α : Type} {f : Simulation → Except Calculation α} {x : α} :
    (m.stepInWords >>= f) = .ok x ↔ m.FitsWords ∧ f m.step = .ok x := perform_return_then_eq_ok

/-- Far enough from the limits a step answers. -/
theorem Inside.fitsWords (h : m.Inside b) (hb : 0 ≤ b)
    (hword : 2 * b + 2 * m.rule.margin < 2 ^ 63) (hnext : m.generation + 1 < 2 ^ 64) :
    m.FitsWords := by
  unfold FitsWords stepArithmetic
  rw [allFit_append, Stepper.allFit_stepArithmetic h.valid, allFit_cons]
  exact ⟨Rule.fitsWords h.surface h.seeds hb hword m.generation, hnext, allFit_nil⟩

/-- **A run answers exactly if each of its steps does.** -/
theorem stepNInWords_eq_ok {n : Nat} : m.stepNInWords n = .ok m' ↔
    (∀ t < n, (m.stepN t).FitsWords) ∧ m.stepN n = m' := by
  induction n generalizing m with
  | zero => simp [stepNInWords, stepN]
  | succ n ih =>
      rw [stepNInWords, stepInWords_then_eq_ok, ih, Nat.forall_lt_succ_left, and_assoc]
      rfl

/-- **A run answers if the pattern cannot come near the limits before its last generation.** -/
theorem Inside.stepNInWords (h : m.Inside b) (hb : 0 ≤ b) {n : Nat}
    (hword : 2 * (b + n * m.rule.margin) < 2 ^ 63) (hgeneration : m.generation + n < 2 ^ 64) :
    m.stepNInWords n = .ok (m.stepN n) := by
  refine stepNInWords_eq_ok.mpr ⟨fun t ht => ?_, rfl⟩
  have hreach : ((t + 1 : Nat) : Int) * m.rule.margin ≤ n * m.rule.margin :=
    Int.mul_le_mul_of_nonneg_right (by omega) (by omega)
  rw [Int.natCast_succ, Int.add_mul, Int.one_mul] at hreach
  have hfar : 0 ≤ (t : Int) * m.rule.margin := Int.mul_nonneg (by omega) (by omega)
  refine (h.stepN t).fitsWords (by omega) ?_ ?_
  · rw [rule_stepN]
    omega
  · rw [generation_stepN]
    omega

/-- Recording the populations takes no other calculations. -/
theorem recordFromInWords_eq_ok {n : Nat} {past : List Nat} {answer : List Nat × Simulation} :
    m.recordFromInWords past n = .ok answer ↔
      (∀ t < n, (m.stepN t).FitsWords) ∧ m.recordFrom past n = answer := by
  induction n generalizing m past with
  | zero => simp [recordFromInWords, recordFrom]
  | succ n ih =>
      rw [recordFromInWords, stepInWords_then_eq_ok, ih, Nat.forall_lt_succ_left, and_assoc]
      rfl

end Simulation

namespace CommandLine

variable {r : Rule} {s : Surface} {g : Grid} {n : Nat} {answer : String × List Nat}

/-- **A run within words prints what the run prints,** exactly if each step and the window of the
last pattern fit. -/
theorem evolveInWords_eq_ok : evolveInWords r s g n = .ok answer ↔
    let last := (Simulation.start r s g 0).stepN n
    (∀ t < n, ((Simulation.start r s g 0).stepN t).FitsWords) ∧
      (∀ b, last.grid.tightBounds = some b → InWord (b.right + 1) ∧ InWord (b.bottom + 1)) ∧
      last.grid.window.Fits ∧ evolve r s g n = .ok answer := by
  obtain ⟨text, pops⟩ := answer
  simp only [evolve_eq_ok]
  constructor
  · intro h
    obtain ⟨recorded, hrecord, hrest⟩ := ok_of_bind h
    obtain ⟨hfits, hrecorded⟩ := Simulation.recordFromInWords_eq_ok.mp (ok_of_mapError hrecord)
    obtain rfl := (Simulation.record_eq _ n).symm.trans hrecorded
    obtain ⟨written, hwritten, hpair⟩ := ok_of_bind hrest
    obtain ⟨hedges, hwindow, hwritten⟩ := Pattern.encodeGridInWords_eq_ok.mp hwritten
    injection hpair with hpair
    injection hpair with htext hpops
    exact ⟨hfits, hedges, hwindow, htext ▸ hwritten, hpops.symm⟩
  · rintro ⟨hfits, hedges, hwindow, hwritten, rfl⟩
    have hrecord : (Simulation.start r s g 0).recordInWords n = .ok _ :=
      Simulation.recordFromInWords_eq_ok.mpr ⟨hfits, Simulation.record_eq _ n⟩
    unfold evolveInWords
    rw [hrecord]
    show (Pattern.encodeGridInWords _ r.name >>= fun written => Except.ok (written, _)) = _
    rw [Pattern.encodeGridInWords_eq_ok.mpr ⟨hedges, hwindow, hwritten⟩]
    rfl

end CommandLine

end Cellular
