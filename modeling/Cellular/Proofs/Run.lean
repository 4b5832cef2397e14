/-
What a run keeps.

A run is one step after the other.  It never changes the rule, the surface or the count of
the generations, its live cells stay on the surface, and its states stay states of the
rule as long as no transition leaves them.  A record of a run lists the populations of its
generations.
-/
import Cellular.Proofs.Dense

namespace Cellular

namespace Simulation

variable {m : Simulation}

/-! ### Generation after generation -/

theorem stepN_succ (m : Simulation) (n : Nat) : m.stepN (n + 1) = (m.stepN n).step := by
  induction n generalizing m with
  | zero => rfl
  | succ n ih =>
      show m.step.stepN (n + 1) = _
      rw [ih m.step]
      rfl

theorem stepN_add (m : Simulation) (a b : Nat) : m.stepN (a + b) = (m.stepN a).stepN b := by
  induction b with
  | zero => rfl
  | succ b ih => rw [← Nat.add_assoc, stepN_succ, ih, stepN_succ]

/-- What a step keeps, a run keeps. -/
theorem stepN_induction {P : Simulation → Prop} (hstep : ∀ m, P m → P m.step) (h : P m) (n : Nat) :
    P (m.stepN n) := by
  induction n with
  | zero => exact h
  | succ n ih =>
      rw [stepN_succ]
      exact hstep _ ih

@[simp] theorem rule_stepN (m : Simulation) (n : Nat) : (m.stepN n).rule = m.rule :=
  stepN_induction (P := fun m' => m'.rule = m.rule) (fun _ h => h) rfl n

@[simp] theorem surface_stepN (m : Simulation) (n : Nat) : (m.stepN n).surface = m.surface :=
  stepN_induction (P := fun m' => m'.surface = m.surface) (fun _ h => h) rfl n

@[simp] theorem generation_stepN (m : Simulation) (n : Nat) :
    (m.stepN n).generation = m.generation + n := by
  induction n with
  | zero => rfl
  | succ n ih =>
      rw [stepN_succ, ← Nat.add_assoc, ← ih]
      rfl

theorem contained_stepN (h : m.Contained) (n : Nat) : (m.stepN n).Contained :=
  stepN_induction (P := Contained) (fun _ h => contained_step h) h n

theorem sound_stepN (hq : m.rule.Quiescent) (h : m.Sound) (n : Nat) : (m.stepN n).Sound :=
  (stepN_induction (P := fun m' => m'.rule.Quiescent ∧ m'.Sound)
    (fun _ h => ⟨h.1, sound_step h.1 h.2⟩) ⟨hq, h⟩ n).2

/-! ### The states of a run -/

theorem get_step_lt {n : Nat} (h : m.stepper.candidates.Valid)
    (hnext : ∀ phase ns s, s < n → m.rule.next phase ns s < n) (hstates : ∀ c, m.grid.get c < n) :
    ∀ c, m.step.grid.get c < n := by
  intro c
  by_cases hex : m.rule.Examined m.surface m.grid m.active c
  · have hget : m.step.grid.get c = _ := Stepper.get_step_of_examined h m.generation hex
    rw [hget]
    exact hnext _ _ _ (hstates c)
  · have hget : m.step.grid.get c = _ := Stepper.get_step_of_not_examined h m.generation hex
    rw [hget]
    exact hstates c

theorem get_stepN_lt {n : Nat} (h : m.Contained)
    (hnext : ∀ phase ns s, s < n → m.rule.next phase ns s < n) (hstates : ∀ c, m.grid.get c < n)
    (t : Nat) : ∀ c, (m.stepN t).grid.get c < n := by
  induction t with
  | zero => exact hstates
  | succ t ih =>
      rw [stepN_succ]
      refine get_step_lt (contained_stepN h t).scratch ?_ ih
      rw [rule_stepN]
      exact hnext

/-! ### The populations of a run -/

private theorem recordFrom_eq (n : Nat) : ∀ (past : List Nat) (m : Simulation),
    m.recordFrom past n
      = (past.reverse ++ (List.range (n + 1)).map (fun t => (m.stepN t).population), m.stepN n) := by
  induction n with
  | zero =>
      intro past m
      show ((m.population :: past).reverse, m) = _
      rw [List.reverse_cons]
      rfl
  | succ n ih =>
      intro past m
      show m.step.recordFrom (m.population :: past) n = _
      rw [ih, List.reverse_cons, List.append_assoc, List.range_succ_eq_map (n := n + 1),
        List.map_cons, List.map_map]
      rfl

/-- A record counts the cells of every generation. -/
theorem record_eq (m : Simulation) (n : Nat) :
    m.record n = ((List.range (n + 1)).map (fun t => (m.stepN t).population), m.stepN n) :=
  recordFrom_eq n [] m

end Simulation

end Cellular
