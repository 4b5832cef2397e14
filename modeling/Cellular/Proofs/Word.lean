/-
What is found within words.

The program answers the value of a function if all of its calculations fit, and gives up
otherwise (`perform_then`).  So whatever is true of the function is true of every answer of the
program, and that there is an answer is a statement about a list of calculations.  Such a list is
put together as the function is, and `AllFit` is taken apart along with it.
-/
import Cellular.Word
import Cellular.Proofs.Chain

namespace Cellular

/-! ### Lists of calculations -/

section

variable {c : Calculation} {cs ds : List Calculation}

@[simp] theorem allFit_nil : AllFit [] := fun _ h => absurd h List.not_mem_nil

@[simp] theorem allFit_cons : AllFit (c :: cs) ↔ c.Fits ∧ AllFit cs := List.forall_mem_cons

@[simp] theorem allFit_append : AllFit (cs ++ ds) ↔ AllFit cs ∧ AllFit ds :=
  List.forall_mem_append

@[simp] theorem allFit_flatMap {α : Type} {xs : List α} {f : α → List Calculation} :
    AllFit (xs.flatMap f) ↔ ∀ x ∈ xs, AllFit (f x) := by
  unfold AllFit
  simp only [List.mem_flatMap]
  exact ⟨fun h x hx c hc => h c ⟨x, hx, hc⟩, fun h c ⟨x, hx, hc⟩ => h x hx c hc⟩

@[simp] theorem allFit_map {α : Type} {xs : List α} {f : α → Calculation} :
    AllFit (xs.map f) ↔ ∀ x ∈ xs, (f x).Fits := List.forall_mem_map

@[simp] theorem allFit_ite {p : Prop} [Decidable p] :
    AllFit (if p then cs else ds) ↔ (p → AllFit cs) ∧ (¬p → AllFit ds) := by
  split <;> simp [*]

end

/-! ### Performing them -/

section

variable {ε α β : Type} {cs : List Calculation} {a b : α}

theorem perform_eq_ok : perform cs = .ok () ↔ AllFit cs := by
  induction cs with
  | nil => exact ⟨fun _ => allFit_nil, fun _ => rfl⟩
  | cons c rest ih =>
      rw [perform, allFit_cons, ← ih]
      split
      · rename_i hc
        rw [and_iff_right hc]
      · rename_i hc
        exact ⟨fun h => by simp at h, fun h => absurd h.1 hc⟩

/-- **What follows on calculations is answered exactly if they all fit.** -/
theorem perform_then_eq_ok {x : Except Calculation α} :
    (perform cs >>= fun _ => x) = .ok b ↔ AllFit cs ∧ x = .ok b := by
  constructor
  · intro h
    obtain ⟨_, hperform, hx⟩ := ok_of_bind h
    exact ⟨perform_eq_ok.mp hperform, hx⟩
  · rintro ⟨hfit, hx⟩
    rw [perform_eq_ok.mpr hfit]
    exact hx

theorem perform_then : (do perform cs; return a) = Except.ok b ↔ AllFit cs ∧ a = b :=
  perform_then_eq_ok.trans (and_congr_right fun _ => ⟨Except.ok.inj, congrArg Except.ok⟩)

/-- Likewise for what is made of a value afterwards. -/
theorem perform_return_then_eq_ok {f : α → Except Calculation β} {x : β} :
    ((do perform cs; return a) >>= f) = .ok x ↔ AllFit cs ∧ f a = .ok x := by
  rw [bind_assoc]
  exact perform_then_eq_ok

/-- Likewise where the program has errors of other kinds as well. -/
theorem perform_mapError_then_eq_ok {f : Calculation → ε} {x : Except ε α} :
    ((perform cs).mapError f >>= fun _ => x) = .ok b ↔ AllFit cs ∧ x = .ok b := by
  constructor
  · intro h
    obtain ⟨_, hperform, hx⟩ := ok_of_bind h
    exact ⟨perform_eq_ok.mp (ok_of_mapError hperform), hx⟩
  · rintro ⟨hfit, hx⟩
    rw [perform_eq_ok.mpr hfit]
    exact hx

end

end Cellular
