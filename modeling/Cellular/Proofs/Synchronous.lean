/-
What a step looks at, and what comes of it.

A step gathers candidates in a table, finds their new states and writes them afterwards.  Nothing
of that shows: the candidates are said here without the table and without the lists of
coordinates that it is filled from (`Candidate`).  The cells that are reported are those whose
state is another, each once, so neither the order of the active cells nor their repetitions matter
(`get_step_congr`, `changed_perm`).
-/
import Mathlib.Data.List.Perm.Basic
import Cellular.Proofs.Step

namespace Cellular

/-- May a change of the cell that `a` names affect the cell `c`?  Where a seam mirrors, the reach
is measured from every coordinate near the box that names the same cell. -/
def Surface.MayAffect (s : Surface) (reach : List Offset) (margin : Nat) (a c : Coord) : Prop :=
  if s.mirrors then
    s.contains c = true ∧
      ∃ p, (s.resolve p = s.resolve a ∧ s.Near margin p) ∧ ∃ o ∈ reach, c = p + o
  else c ≠ nowhere ∧ ∃ o ∈ reach, c = s.resolve (a + o)

theorem Surface.mayAffect_iff {s : Surface} {reach : List Offset} {margin : Nat} {a c : Coord} :
    s.MayAffect reach margin a c ↔ c ∈ s.affected reach margin a := by
  unfold MayAffect
  split
  · rename_i hs
    exact (mem_affected_of_mirrors hs).symm
  · rename_i hs
    exact (mem_affected_of_not_mirrors (Bool.eq_false_iff.mpr hs)).symm

namespace Rule

variable {r : Rule} {s : Surface} {g : Grid} {active active' : ActiveSet} {c : Coord}

/-- The cells that a step looks at: those that a change of an active cell may affect, and under
a rule of several phases those that a live cell may affect. -/
def Candidate (r : Rule) (s : Surface) (g : Grid) (active : ActiveSet) (c : Coord) : Prop :=
  ∃ a, (a ∈ active ∨ 1 < r.period ∧ g.get a ≠ 0) ∧ s.MayAffect r.reach r.margin a c

theorem mem_seeds_iff {a : Coord} :
    a ∈ r.seeds g active ↔ a ∈ active ∨ 1 < r.period ∧ g.get a ≠ 0 := by
  unfold seeds
  split
  · rename_i hperiod
    rw [List.mem_append, Grid.mem_coords, and_iff_right hperiod]
  · rename_i hperiod
    exact ⟨Or.inl, fun h => h.resolve_right fun hlive => hperiod hlive.1⟩

theorem examined_iff_candidate : r.Examined s g active c ↔ r.Candidate s g active c := by
  unfold Examined Candidate
  simp only [mem_seeds_iff, Surface.mayAffect_iff]

/-- The order of the active cells and their repetitions do not matter. -/
theorem examined_congr (h : ∀ a, a ∈ active' ↔ a ∈ active) :
    r.Examined s g active' c ↔ r.Examined s g active c := by
  unfold Examined
  simp only [mem_seeds_iff, h]

end Rule

namespace Stepper

/-- The steppers there are: an unused one, and what a step leaves of another. -/
inductive InUse : Stepper → Prop
  | fresh : InUse fresh
  | step {t : Stepper} (h : InUse t) (r : Rule) (s : Surface) (generation : Nat) (g : Grid)
      (active : ActiveSet) : InUse (t.step r s generation g active).1

theorem InUse.valid {t : Stepper} (h : t.InUse) : t.candidates.Valid := by
  induction h with
  | fresh => exact valid_fresh
  | step _ r s generation g active ih => exact valid_step ih generation g active

variable {t : Stepper} {r : Rule} {s : Surface} {generation : Nat} {g : Grid}
  {active active' : ActiveSet}

/-- **The cells that are reported are those that differ.** -/
theorem mem_changed_iff_ne (h : t.candidates.Valid) {c : Coord} :
    c ∈ (t.step r s generation g active).2.2 ↔
      (t.step r s generation g active).2.1.get c ≠ g.get c := by
  rw [mem_changed h]
  by_cases hc : r.Examined s g active c
  · rw [get_step_of_examined h generation hc, and_iff_right hc]
  · rw [get_step_of_not_examined h generation hc]
    exact ⟨fun hboth => absurd hboth.1 hc, fun hne => absurd rfl hne⟩

theorem get_step_congr (h : t.candidates.Valid) (hsame : ∀ a, a ∈ active' ↔ a ∈ active)
    (c : Coord) :
    (t.step r s generation g active').2.1.get c = (t.step r s generation g active).2.1.get c := by
  by_cases hc : r.Examined s g active c
  · rw [get_step_of_examined h generation hc,
      get_step_of_examined h generation ((Rule.examined_congr hsame).mpr hc)]
  · rw [get_step_of_not_examined h generation hc, get_step_of_not_examined h generation
      fun hc' => hc ((Rule.examined_congr hsame).mp hc')]

theorem changed_perm (h : t.candidates.Valid) (hsame : ∀ a, a ∈ active' ↔ a ∈ active) :
    (t.step r s generation g active').2.2.Perm (t.step r s generation g active).2.2 := by
  refine (List.perm_ext_iff_of_nodup (nodup_changed h generation g active')
    (nodup_changed h generation g active)).mpr fun c => ?_
  rw [mem_changed_iff_ne h, mem_changed_iff_ne h, get_step_congr h hsame]

end Stepper

end Cellular
