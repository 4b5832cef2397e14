/-
Cycles and their rotations.

A sequence that goes round a cycle of `p` different elements can be entered anywhere: the
elements of one turn are then listed in another rotation.  The smallest rotation is the
same for all of them, also when it is taken at several places, because it is at most every
rotation and is one itself.  For the second reason it tells the sequences of different cycles
apart as well (`canonical_complete`).
-/
import Mathlib.Data.List.Rotate
import Mathlib.Data.Nat.Periodic
import Cellular.Batch.Rotation

namespace Cellular

namespace Cycle

/-! ### The smallest rotation -/

/-- The sequences that are compared are the rotations. -/
theorem mem_rotations {α : Type} {xs ys : List α} :
    ys ∈ xs :: (List.range xs.length).map (rotation xs) ↔ xs ~r ys := by
  rw [List.mem_cons, List.mem_map]
  constructor
  · rintro (rfl | ⟨i, hi, rfl⟩)
    · exact List.IsRotated.refl ys
    · exact ⟨i, List.rotate_eq_drop_append_take (List.mem_range.mp hi).le⟩
  · intro h
    obtain ⟨n, hn, rfl⟩ := List.isRotated_iff_mod.mp h
    rcases hn.lt_or_eq with hlt | rfl
    · exact Or.inr ⟨n, List.mem_range.mpr hlt, (List.rotate_eq_drop_append_take hn).symm⟩
    · exact Or.inl (List.rotate_length xs)

section

variable {α : Type} [LinearOrder α]

theorem smaller_eq_min (a b : List α) : smaller a b = min a b := by
  unfold smaller
  split
  · rename_i h
    exact (min_eq_right h.le).symm
  · rename_i h
    exact (min_eq_left (not_lt.mp h)).symm

/-- The smallest rotation is the least of the sequences that are compared. -/
theorem min?_rotations (xs : List α) :
    (xs :: (List.range xs.length).map (rotation xs)).min? = some (canonical xs) := by
  rw [List.min?_cons', List.foldl_map]
  simp only [← smaller_eq_min]
  rfl

/-- The smallest rotation is a rotation. -/
theorem isRotated_canonical (xs : List α) : xs ~r canonical xs :=
  mem_rotations.mp (List.min?_eq_some_iff.mp (min?_rotations xs)).1

/-- The smallest rotation is at most every rotation. -/
theorem canonical_le {xs ys : List α} (h : xs ~r ys) : canonical xs ≤ ys :=
  (List.min?_eq_some_iff.mp (min?_rotations xs)).2 ys (mem_rotations.mpr h)

/-- **Rotations of one sequence have the same smallest rotation.** -/
theorem canonical_eq {xs ys : List α} (h : xs ~r ys) : canonical xs = canonical ys :=
  le_antisymm (canonical_le (h.trans (isRotated_canonical ys)))
    (canonical_le (h.symm.trans (isRotated_canonical xs)))

/-- Sequences with the same smallest rotation are rotations of each other. -/
theorem isRotated_of_canonical_eq {xs ys : List α} (h : canonical xs = canonical ys) :
    xs ~r ys := by
  have hxs := isRotated_canonical xs
  rw [h] at hxs
  exact hxs.trans (isRotated_canonical ys).symm

/--
**The smallest rotation stands for the cycle.**  For all sequences, the empty one and those with
several smallest places included: it is a rotation, in lexicographic order it is at most the
rotation by any number of places, two sequences have it in common if and only if one is a
rotation of the other, and it is its own smallest rotation.
-/
theorem canonical_complete (xs ys : List α) :
    xs ~r canonical xs ∧ (∀ n, canonical xs ≤ xs.rotate n) ∧
      (canonical xs = canonical ys ↔ xs ~r ys) ∧ canonical (canonical xs) = canonical xs :=
  ⟨isRotated_canonical xs, fun n => canonical_le ⟨n, rfl⟩,
    ⟨isRotated_of_canonical_eq, canonical_eq⟩, (canonical_eq (isRotated_canonical xs)).symm⟩

end

end Cycle

/-! ### Going round -/

/-- The sequence goes round a cycle of `p` different elements. -/
structure Cycles {α : Type} (a : Nat → α) (p : Nat) : Prop where
  pos : 0 < p
  periodic : Function.Periodic a p
  distinct : Set.InjOn a (Set.Iio p)

namespace Cycles

variable {α β : Type} {a b : Nat → α} {p q i j : Nat}

/-- An element comes back after whole turns only. -/
theorem dvd (h : Cycles a p) {n : Nat} (hback : a (i + n) = a i) : p ∣ n := by
  rw [← h.periodic.map_mod_nat, ← h.periodic.map_mod_nat i] at hback
  have hmod := h.distinct (Nat.mod_lt _ h.pos) (Nat.mod_lt _ h.pos) hback
  exact (Nat.modEq_zero_iff_dvd).mp (Nat.ModEq.add_left_cancel' i (show i + n ≡ i + 0 [MOD p] from hmod))

/-- **Sequences that join go round as many elements.** -/
theorem period_eq (h : Cycles a p) (h' : Cycles b q) (hjoin : ∀ t, a (i + t) = b (j + t)) :
    p = q := by
  refine Nat.dvd_antisymm (h.dvd (i := i) ?_) (h'.dvd (i := j) ?_)
  · rw [hjoin, h'.periodic j]
    exact (hjoin 0).symm
  · rw [← hjoin, h.periodic i]
    exact hjoin 0

/-- The first sequence passes somewhere what the second one starts with. -/
theorem exists_start (h' : Cycles b q) (hjoin : ∀ t, a (i + t) = b (j + t)) :
    ∃ n, ∀ t, a (n + t) = b t := by
  -- From the place where they join the second sequence completes its `j`-th turn.
  have hturns : j ≤ j * q := Nat.le_mul_of_pos_right j h'.pos
  refine ⟨i + (j * q - j), fun t => ?_⟩
  rw [Nat.add_assoc, hjoin, ← h'.periodic.nat_mul j t, ← Nat.add_assoc, Nat.add_sub_cancel' hturns,
    Nat.add_comm]
  rfl

/-- **Sequences that join list rotations of the same turn.** -/
theorem isRotated (h : Cycles a p) (h' : Cycles b p) (hjoin : ∀ t, a (i + t) = b (j + t))
    (f : α → β) :
    ((List.range p).map fun k => f (a k)) ~r ((List.range p).map fun k => f (b k)) := by
  obtain ⟨n, hn⟩ := h'.exists_start hjoin
  refine ⟨n, List.ext_getElem (by simp) fun k _ _ => ?_⟩
  simp only [List.getElem_rotate, List.getElem_map, List.getElem_range, List.length_map,
    List.length_range]
  rw [h.periodic.map_mod_nat, Nat.add_comm, hn]

end Cycles

end Cellular
