/-
The first repetition of a soup.

A search compares fingerprints, and `Proofs/Batch/Soup.lean` says what its outcome means for these,
whether or not they tell patterns apart.  Where they do, at least as far as the search goes, its
outcome is about the patterns themselves: the search ends at the first generation that repeats an
earlier one, or else no two generations up to the cap are the same (`outcome_iff`).
-/
import Mathlib.Order.Bounds.Defs
import Cellular.Proofs.Batch.Soup

namespace Cellular

namespace SoupOutcome

/-- The fingerprint tells the patterns of the run apart, up to a last generation. -/
def TellsApart {κ : Type} (fingerprint : List (Coord × State) → κ) (m : Simulation) (last : Nat) :
    Prop :=
  ∀ i ≤ last, ∀ j ≤ last, print fingerprint m i = print fingerprint m j →
    (m.stepN i).grid.sameCells (m.stepN j).grid = true

/-- No two of the first `n` patterns are the same. -/
def Distinct (m : Simulation) (n : Nat) : Prop :=
  ∀ i < n, ∀ j < n, (m.stepN i).grid.sameCells (m.stepN j).grid = true → i = j

/-- The pattern has been there before. -/
def Repeats (m : Simulation) (n : Nat) : Prop :=
  ∃ i < n, (m.stepN i).grid.sameCells (m.stepN n).grid = true

variable {m : Simulation} {cap i j n : Nat}

/-- **A repetition is the first one exactly if all patterns before it are different.** -/
theorem isLeast_repeats_iff :
    IsLeast {n | n ≤ cap ∧ Repeats m n} n ↔ n ≤ cap ∧ Repeats m n ∧ Distinct m n := by
  constructor
  · rintro ⟨⟨hcap, hrepeats⟩, hleast⟩
    have hnew : ∀ i j, i < j → j < n → (m.stepN i).grid.sameCells (m.stepN j).grid ≠ true := by
      intro i j hij hjn hsame
      have hle : n ≤ j := hleast ⟨hjn.le.trans hcap, i, hij, hsame⟩
      omega
    refine ⟨hcap, hrepeats, fun i hi j hj hsame => ?_⟩
    rcases Nat.lt_trichotomy i j with hlt | heq | hgt
    · exact absurd hsame (hnew i j hlt hj)
    · exact heq
    · exact absurd (Grid.sameCells_symm hsame) (hnew j i hgt hi)
  · rintro ⟨hcap, hrepeats, hdistinct⟩
    refine ⟨⟨hcap, hrepeats⟩, ?_⟩
    rintro k ⟨-, i, hik, hsame⟩
    by_contra hkn
    have heq := hdistinct i (by omega) k (by omega) hsame
    omega

section

variable {κ : Type} {fingerprint : List (Coord × State) → κ}

theorem TellsApart.print_eq_iff (h : TellsApart fingerprint m cap) (hi : i ≤ cap) (hj : j ≤ cap) :
    print fingerprint m i = print fingerprint m j ↔
      (m.stepN i).grid.sameCells (m.stepN j).grid = true :=
  ⟨h i hi j hj, fun hsame => congrArg fingerprint (of_decide_eq_true hsame)⟩

/-- Different patterns are those of different fingerprints. -/
theorem TellsApart.injOn_iff (h : TellsApart fingerprint m cap) (hn : n ≤ cap + 1) :
    Set.InjOn (print fingerprint m) (Set.Iio n) ↔ Distinct m n := by
  constructor
  · intro hinj i hi j hj hsame
    exact hinj hi hj ((h.print_eq_iff (by omega) (by omega)).mpr hsame)
  · intro hdistinct i hi j hj heq
    rw [Set.mem_Iio] at hi hj
    exact hdistinct i hi j hj (h i (by omega) j (by omega) heq)

variable [BEq κ] [Hashable κ] [LawfulBEq κ]

/-- The search finds nothing exactly if there is nothing to find. -/
theorem ofSoupBy_eq_unresolved_iff {r : Rule} {s : Surface} {soup : Grid} :
    ofSoupBy fingerprint r s soup cap = .unresolved ↔
      Set.InjOn (print fingerprint (.start r s soup 0)) (Set.Iio (cap + 1)) := by
  have hdescribes := describes_ofSoupBy fingerprint r s soup cap
  constructor
  · intro h
    rw [h] at hdescribes
    exact hdescribes.mono fun i hi => Nat.le_of_lt_succ hi
  · intro hinj
    cases houtcome : ofSoupBy fingerprint r s soup cap with
    | unresolved => rfl
    | periodic prePeriod period _ _ _ =>
        rw [houtcome] at hdescribes
        obtain ⟨hcap, hsettles⟩ := hdescribes
        have hpos := hsettles.pos
        have hsame := hinj (Set.mem_Iio.mpr (by omega)) (Set.mem_Iio.mpr (by omega)) hsettles.back
        omega

/--
**A search reports the first repetition, exactly.**  Let the fingerprints tell the patterns apart
that the run goes through up to the cap.  The search is unresolved exactly if no two generations
up to the cap show the same pattern.  Otherwise its outcome is the one that is described here:
`prePeriod + period` is the first generation within the cap that repeats an earlier pattern,
`prePeriod` is the one earlier generation that it repeats, and all patterns before are different;
the populations are those from `prePeriod` up to the repetition, one for each generation of the
period; the pattern is the one that came back, and the predecessor the one right before it.
-/
theorem outcome_iff (r : Rule) (s : Surface) (soup : Grid)
    (h : TellsApart fingerprint (.start r s soup 0) cap) :
    let m := Simulation.start r s soup 0
    let now := fun n => (m.stepN n).grid
    let outcome := ofSoupBy fingerprint r s soup cap
    (outcome = .unresolved ↔ Distinct m (cap + 1)) ∧
      ∀ prePeriod period populations pattern predecessor,
        outcome = .periodic prePeriod period populations pattern predecessor ↔
          IsLeast {n | n ≤ cap ∧ Repeats m n} (prePeriod + period) ∧
            (∀ i, i < prePeriod + period ∧ (now i).sameCells (now (prePeriod + period)) = true ↔
              i = prePeriod) ∧
            Distinct m (prePeriod + period) ∧
            populations = (List.range period).map (fun k => (now (prePeriod + k)).size) ∧
            populations.length = period ∧
            pattern = now (prePeriod + period) ∧ pattern.sameCells (now prePeriod) = true ∧
            predecessor = now (prePeriod + period - 1) := by
  intro m now outcome
  refine ⟨ofSoupBy_eq_unresolved_iff.trans (h.injOn_iff (Nat.le_refl _)), ?_⟩
  intro prePeriod period populations pattern predecessor
  refine ofSoupBy_eq_periodic_iff.trans ⟨?_, ?_⟩
  · rintro ⟨hcap, hsettles⟩
    have hpos := hsettles.pos
    have hdistinct : Distinct m (prePeriod + period) :=
      (h.injOn_iff (by omega)).mp hsettles.distinct
    have hback : (now prePeriod).sameCells (now (prePeriod + period)) = true :=
      (h.print_eq_iff (by omega) hcap).mp hsettles.back.symm
    refine ⟨isLeast_repeats_iff.mpr ⟨hcap, ⟨prePeriod, by omega, hback⟩, hdistinct⟩, ?_, hdistinct,
      hsettles.populations, ?_, hsettles.pattern, ?_, hsettles.predecessor⟩
    · intro i
      constructor
      · rintro ⟨hi, hsame⟩
        exact hdistinct i hi prePeriod (by omega)
          (Grid.sameCells_trans hsame (Grid.sameCells_symm hback))
      · rintro rfl
        exact ⟨by omega, hback⟩
    · rw [hsettles.populations, List.length_map, List.length_range]
    · rw [hsettles.pattern]
      exact (h.print_eq_iff hcap (by omega)).mp hsettles.back
  · rintro ⟨hleast, hearlier, hdistinct, hpopulations, -, hpattern, -, hpredecessor⟩
    have hcap := (isLeast_repeats_iff.mp hleast).1
    obtain ⟨hlt, hback⟩ := (hearlier prePeriod).mpr rfl
    exact ⟨hcap, by omega, ((h.print_eq_iff (by omega) hcap).mpr hback).symm,
      (h.injOn_iff (by omega)).mpr hdistinct, hpopulations, hpattern, hpredecessor⟩

end

/-- Cells that pulse with a period of two, after two generations in which one of them dies out;
their fingerprint is a word of 64 bits, and the cap is the generation of the repetition. -/
theorem outcome_of_pulsing_cells :
    let r : Rule := {
      name := "Pulse", nStates := 5, neighbourhoods := [.ofOffsets [⟨0, -1⟩]]
      stateWeights := [[0, 1, 1, 1, 1]], space := .custom, conditions := .weighted
      transition := .function fun _ neighbours current =>
        if current = 0 then if neighbours = [1] then 3 else 0
        else if current = 1 then 2 else if current = 2 then 1 else 0
      palette := none, neighbourhoods_ne := by simp }
    let fingerprint : List (Coord × State) → UInt64 := fun cells =>
      cells.foldl (fun w p => CoordHash.fold (CoordHash.fold (CoordHash.fold w p.1.row) p.1.col) p.2)
        (UInt64.ofNat cells.length)
    let torus := Surface.box .torus 2 1
    let soup := Grid.ofList [(⟨0, 0⟩, 1), (⟨0, 1⟩, 4)]
    let m := Simulation.start r torus soup 0
    TellsApart fingerprint m 4 ∧ ofSoupBy fingerprint r torus soup 3 = .unresolved ∧
      ofSoupBy fingerprint r torus soup 4
        = .periodic 2 2 [1, 2] (m.stepN 4).grid (m.stepN 3).grid := by
  intro r fingerprint torus soup m
  have hall : (∀ i ≤ 4, ∀ j ≤ 4, print fingerprint m i = print fingerprint m j →
        (m.stepN i).grid.sameCells (m.stepN j).grid = true) ∧
      (∀ i < 4, ∀ j < 4, (m.stepN i).grid.sameCells (m.stepN j).grid = true → i = j) ∧
      (m.stepN 2).grid.sameCells (m.stepN 4).grid = true ∧
      [1, 2] = (List.range 2).map fun k => (m.stepN (2 + k)).grid.size := by
    decide +kernel
  obtain ⟨happart, hdistinct, hback, hpopulations⟩ := hall
  clear_value fingerprint soup r
  have happart' : TellsApart fingerprint m 3 := fun i hi j hj =>
    happart i (by omega) j (by omega)
  refine ⟨happart, (outcome_iff r torus soup happart').1.mpr hdistinct, ?_⟩
  refine ((outcome_iff r torus soup happart).2 2 2 _ _ _).mpr ⟨isLeast_repeats_iff.mpr
    ⟨Nat.le_refl 4, ⟨2, by omega, hback⟩, hdistinct⟩, fun i => ⟨?_, ?_⟩, hdistinct, hpopulations,
    rfl, rfl, ?_, rfl⟩
  · rintro ⟨hi, hsame⟩
    exact hdistinct i hi 2 (by omega) (Grid.sameCells_trans hsame (Grid.sameCells_symm hback))
  · rintro rfl
    exact ⟨by omega, hback⟩
  · exact Grid.sameCells_symm hback

end SoupOutcome

end Cellular
