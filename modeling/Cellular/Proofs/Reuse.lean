/-
A stepper may be used again.

A step leaves its table of candidates to the next one: as large as any step before needed it, and
full of slots that only their stamps tell from members.  It also leaves its buffers as they were
filled last: the states around a candidate, the changes, the coordinates of a seed.  The next step
may be asked under another rule, on another surface and for another pattern, and on its way
through the table it meets all that earlier steps wrote there.  Nothing of it shows in the answers.
Forgetting the members leaves a set like any other (`CoordSet.Valid.clear`, also when the stamps
run out), and the candidates are then listed in the order in which the seeds lead to them
(`gather_spec`); every buffer is emptied before it is filled (`toList_refill`), so the changes are
those of the candidates alone (`evaluate_spec`).
-/
import Cellular.Proofs.Synchronous

namespace Cellular

namespace Stepper

/-- All that one step is asked with. -/
structure Call where
  rule : Rule
  surface : Surface
  generation : Nat
  grid : Grid
  active : ActiveSet

/-- The answer to a call for itself, with nothing to reuse. -/
def Call.alone (c : Call) : Grid × ActiveSet := c.rule.step c.surface c.generation c.grid c.active

/-- A call put to a stepper: what the step leaves of it, and the answer. -/
def ask (t : Stepper) (c : Call) : Stepper × Grid × ActiveSet :=
  t.step c.rule c.surface c.generation c.grid c.active

/-- The answers to a list of calls that are put to one stepper, first to last. -/
def answers (t : Stepper) : List Call → List (Grid × ActiveSet)
  | [] => []
  | c :: rest => (t.ask c).2 :: (t.ask c).1.answers rest

variable {t : Stepper}

theorem InUse.ask (h : t.InUse) (c : Call) : (t.ask c).1.InUse := h.step ..

/-- A stepper in use answers a call as an unused one does. -/
theorem InUse.answer_eq_alone (h : t.InUse) (c : Call) : (t.ask c).2 = c.alone :=
  step_congr valid_fresh h.valid rfl rfl (fun _ => rfl) c.active

/-- The calls before do not matter, nor do those that are still to come. -/
theorem InUse.answers_eq_alone (h : t.InUse) (calls : List Call) :
    t.answers calls = calls.map Call.alone := by
  induction calls generalizing t with
  | nil => rfl
  | cons c rest ih =>
      have hrest := ih (h.ask c)
      unfold answers
      rw [h.answer_eq_alone, hrest, List.map_cons]

/--
**Using a stepper again never changes an answer.**  Let any calls be put to one stepper, one after
the other, each with a rule, a surface, a generation, a pattern and active cells of its own.  Every
one of them is answered with the pattern, box and all, and the changed cells, in the same order,
that a stepper without a past answers.
-/
theorem reuse_invisible (calls : List Call) : fresh.answers calls = calls.map Call.alone :=
  InUse.fresh.answers_eq_alone calls

end Stepper

end Cellular
