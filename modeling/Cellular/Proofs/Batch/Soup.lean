/-
What the outcome of a soup says.

The search keeps the fingerprint of every generation with its number (`Explored`), so it
stops at the first fingerprint that is there already, or when no generation is left.
Either outcome therefore describes the run: `Describes` says how.  Nothing is asked of the
fingerprints, which may well be the same for different grids.
-/
import Mathlib.Data.Set.Function
import Cellular.Batch.Agar
import Cellular.Proofs.Run

namespace Cellular

namespace SoupOutcome

section

variable {κ : Type} (fingerprint : List (Coord × State) → κ) (m : Simulation)

/-- The fingerprint of a generation of the run. -/
def print (t : Nat) : κ := fingerprint (m.stepN t).grid.toList

/-- What the search has noted before it looks at generation `t`. -/
structure Explored [BEq κ] [Hashable κ] (t : Nat) (seen : Std.HashMap κ Nat)
    (populations : Array Nat) (predecessor : Grid) : Prop where
  seen : ∀ (k : κ) (i : Nat), seen[k]? = some i ↔ i < t ∧ print fingerprint m i = k
  populations : populations.toList = (List.range t).map fun i => (m.stepN i).population
  predecessor : 0 < t → predecessor = (m.stepN (t - 1)).grid

/-- The run comes back for the first time after `prePeriod + period` generations, and then
to generation `prePeriod`. -/
structure Settles (prePeriod period : Nat) (populations : List Nat)
    (pattern predecessor : Grid) : Prop where
  pos : 0 < period
  back : print fingerprint m (prePeriod + period) = print fingerprint m prePeriod
  distinct : Set.InjOn (print fingerprint m) (Set.Iio (prePeriod + period))
  populations : populations
    = (List.range period).map fun k => (m.stepN (prePeriod + k)).population
  pattern : pattern = (m.stepN (prePeriod + period)).grid
  predecessor : predecessor = (m.stepN (prePeriod + period - 1)).grid

/-- What an outcome says of the run up to generation `cap`. -/
def Describes (cap : Nat) : SoupOutcome → Prop
  | periodic prePeriod period populations pattern predecessor =>
    prePeriod + period ≤ cap ∧
      Settles fingerprint m prePeriod period populations pattern predecessor
  | unresolved => Set.InjOn (print fingerprint m) (Set.Iic cap)

end

/-- The generation that comes back first, and the one that it comes back to, are fixed. -/
theorem Settles.unique {κ : Type} {fingerprint : List (Coord × State) → κ} {m : Simulation}
    {prePeriod prePeriod' period period' : Nat} {populations populations' : List Nat}
    {pattern pattern' predecessor predecessor' : Grid}
    (h : Settles fingerprint m prePeriod period populations pattern predecessor)
    (h' : Settles fingerprint m prePeriod' period' populations' pattern' predecessor') :
    periodic prePeriod period populations pattern predecessor
      = periodic prePeriod' period' populations' pattern' predecessor' := by
  have hpos := h.pos
  have hpos' := h'.pos
  have hsum : prePeriod + period = prePeriod' + period' := by
    rcases Nat.lt_trichotomy (prePeriod + period) (prePeriod' + period') with hlt | heq | hlt
    · have hsame := h'.distinct (Set.mem_Iio.mpr hlt) (Set.mem_Iio.mpr (by omega)) h.back
      omega
    · exact heq
    · have hsame := h.distinct (Set.mem_Iio.mpr hlt) (Set.mem_Iio.mpr (by omega)) h'.back
      omega
  have hpre : prePeriod = prePeriod' := by
    refine h.distinct (Set.mem_Iio.mpr (by omega)) (Set.mem_Iio.mpr (by omega)) ?_
    rw [← h.back, hsum, h'.back]
  subst hpre
  obtain rfl := Nat.add_left_cancel hsum
  rw [h.populations, h'.populations, h.pattern, h'.pattern, h.predecessor, h'.predecessor]

section

variable {κ : Type} [BEq κ] [Hashable κ] {fingerprint : List (Coord × State) → κ}
  {m : Simulation} {t first : Nat} {seen : Std.HashMap κ Nat} {populations : Array Nat}
  {predecessor : Grid}

theorem Explored.distinct (h : Explored fingerprint m t seen populations predecessor) :
    Set.InjOn (print fingerprint m) (Set.Iio t) := by
  intro i hi j hj heq
  have hseen := (h.seen _ i).mpr ⟨hi, heq⟩
  rw [(h.seen _ j).mpr ⟨hj, rfl⟩] at hseen
  exact (Option.some.inj hseen).symm

theorem Explored.not_mem (h : Explored fingerprint m t seen populations predecessor)
    (hnew : seen[print fingerprint m t]? = none) {i : Nat} (hi : i < t) :
    print fingerprint m i ≠ print fingerprint m t := by
  intro heq
  have hseen := (h.seen _ i).mpr ⟨hi, heq⟩
  rw [hnew] at hseen
  simp at hseen

/-- A fingerprint that is noted is that of an earlier generation. -/
theorem Explored.settles (h : Explored fingerprint m t seen populations predecessor)
    (hold : seen[print fingerprint m t]? = some first) : first < t ∧
      Settles fingerprint m first (t - first) (populations.toList.drop first)
        (m.stepN t).grid predecessor := by
  obtain ⟨hlt, hback⟩ := (h.seen _ first).mp hold
  have hsum : first + (t - first) = t := Nat.add_sub_cancel' hlt.le
  refine ⟨hlt, Nat.sub_pos_of_lt hlt, ?_, ?_, ?_, ?_, ?_⟩
  · rw [hsum, hback]
  · rw [hsum]
    exact h.distinct
  · rw [h.populations]
    exact List.ext_getElem (by simp) (by simp)
  · rw [hsum]
  · rw [hsum]
    exact h.predecessor (Nat.zero_lt_of_lt hlt)

/-- The search stops where it finds a fingerprint. -/
theorem Explored.describes (h : Explored fingerprint m t seen populations predecessor)
    (hstart : m.generation = 0) (hold : seen[print fingerprint m t]? = some first) (left : Nat) :
    Describes fingerprint m (t + left)
      (search fingerprint seen populations predecessor (m.stepN t) left) := by
  obtain ⟨hlt, hsettles⟩ := h.settles hold
  unfold print at hold
  unfold search
  simp only [hold, Simulation.generation_stepN, hstart, Nat.zero_add]
  exact ⟨by omega, hsettles⟩

variable [LawfulBEq κ]

theorem explored_zero : Explored fingerprint m 0 ∅ #[] .empty where
  seen := by simp
  populations := rfl
  predecessor := by simp

/-- **A generation that is new is noted.** -/
theorem Explored.insert (h : Explored fingerprint m t seen populations predecessor)
    (hnew : seen[print fingerprint m t]? = none) :
    Explored fingerprint m (t + 1) (seen.insert (print fingerprint m t) t)
      (populations.push (m.stepN t).population) (m.stepN t).grid where
  seen := by
    intro k i
    rw [Std.HashMap.getElem?_insert]
    split
    · rename_i hk
      rw [beq_iff_eq] at hk
      subst hk
      constructor
      · intro hi
        obtain rfl := Option.some.inj hi
        exact ⟨Nat.lt_succ_self t, rfl⟩
      · rintro ⟨hi, heq⟩
        rcases Nat.lt_succ_iff_lt_or_eq.mp hi with hlt | rfl
        · exact absurd heq (h.not_mem hnew hlt)
        · rfl
    · rename_i hk
      rw [h.seen]
      constructor
      · rintro ⟨hi, heq⟩
        exact ⟨Nat.lt_succ_of_lt hi, heq⟩
      · rintro ⟨hi, rfl⟩
        rcases Nat.lt_succ_iff_lt_or_eq.mp hi with hlt | rfl
        · exact ⟨hlt, rfl⟩
        · simp at hk
  populations := by
    rw [Array.toList_push, h.populations, List.range_succ, List.map_append]
    rfl
  predecessor := fun _ => rfl

/-- **The search stops at the first fingerprint that comes back, or at the last
generation.** -/
theorem describes_search (hstart : m.generation = 0) (left : Nat) :
    ∀ {t : Nat} {seen : Std.HashMap κ Nat} {populations : Array Nat} {predecessor : Grid},
      Explored fingerprint m t seen populations predecessor →
      Describes fingerprint m (t + left)
        (search fingerprint seen populations predecessor (m.stepN t) left) := by
  -- What has been noted so far is carried along while the generations left grow fewer.
  induction left with
  | zero =>
      intro t seen populations predecessor h
      cases hfound : seen[fingerprint (m.stepN t).grid.toList]? with
      | some first => exact h.describes hstart hfound 0
      | none =>
          unfold search
          simp only [hfound]
          exact (h.insert hfound).distinct.mono fun i hi => Nat.lt_succ_of_le hi
  | succ left ih =>
      intro t seen populations predecessor h
      cases hfound : seen[fingerprint (m.stepN t).grid.toList]? with
      | some first => exact h.describes hstart hfound (left + 1)
      | none =>
          unfold search
          simp only [hfound, Simulation.generation_stepN, hstart, Nat.zero_add]
          have hrest := ih (h.insert hfound)
          rwa [Simulation.stepN_succ, Nat.add_right_comm] at hrest

/-- What the outcome of a soup says. -/
theorem describes_ofSoupBy (fingerprint : List (Coord × State) → κ) (r : Rule) (s : Surface)
    (soup : Grid) (cap : Nat) :
    Describes fingerprint (.start r s soup 0) cap (ofSoupBy fingerprint r s soup cap) := by
  have h : Describes fingerprint (.start r s soup 0) (0 + cap)
      (ofSoupBy fingerprint r s soup cap) := describes_search rfl cap explored_zero
  rwa [Nat.zero_add] at h

/-- **The search finds a cycle exactly if there is one within the cap.** -/
theorem ofSoupBy_eq_periodic_iff {r : Rule} {s : Surface} {soup : Grid}
    {cap prePeriod period : Nat} {populations : List Nat} {pattern predecessor : Grid} :
    ofSoupBy fingerprint r s soup cap
        = periodic prePeriod period populations pattern predecessor ↔
      prePeriod + period ≤ cap ∧
        Settles fingerprint (.start r s soup 0) prePeriod period populations pattern
          predecessor := by
  have hdescribes := describes_ofSoupBy fingerprint r s soup cap
  constructor
  · intro h
    rwa [h] at hdescribes
  · rintro ⟨hcap, hsettles⟩
    cases houtcome : ofSoupBy fingerprint r s soup cap with
    | periodic _ _ _ _ _ =>
        rw [houtcome] at hdescribes
        exact hdescribes.2.unique hsettles
    | unresolved =>
        rw [houtcome] at hdescribes
        have hpos := hsettles.pos
        have hsame := hdescribes (Set.mem_Iic.mpr hcap) (Set.mem_Iic.mpr (by omega)) hsettles.back
        omega

end

end SoupOutcome

end Cellular
