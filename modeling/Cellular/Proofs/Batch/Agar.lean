/-
One record for each agar.

With a single phase and a background that lasts, the pattern decides the future, so a
fingerprint that tells patterns apart and comes back closes a cycle, although the cells
that count as active need not be the same at both visits.  Two soups that have one pattern
of their cycles in common then go through the same patterns from there on: they list the
populations of one cycle, each from where it entered, and that is one sequence rotated.

A report adds a record only for a period and a signature that it does not have, so such
soups leave at most one record.
-/
import Cellular.Proofs.Batch.Report
import Cellular.Proofs.Batch.Rotation
import Cellular.Proofs.Batch.Soup
import Cellular.Proofs.Determinism

namespace Cellular

/-! ### The cycle of a soup -/

namespace SoupOutcome

variable {κ : Type} {fingerprint : List (Coord × State) → κ} {m m' : Simulation}
  {prePeriod period i j : Nat} {populations : List Nat} {pattern predecessor : Grid}

/-- The fingerprint tells the patterns of the run apart. -/
def Faithful (fingerprint : List (Coord × State) → κ) (m : Simulation) : Prop :=
  ∀ t u, print fingerprint m t = print fingerprint m u →
    (m.stepN t).grid.sameCells (m.stepN u).grid = true

/-- Once two patterns are the same, all that come after them are. -/
theorem toList_of_meeting (hperiod : m.rule.period = 1) (hq : m.rule.Quiescent) (h : m.Sound)
    (h' : m'.Sound) (hrule : m'.rule = m.rule) (hsurface : m'.surface = m.surface)
    (hmeet : (m.stepN i).grid.sameCells (m'.stepN j).grid = true) (t : Nat) :
    (m.stepN (i + t)).grid.toList = (m'.stepN (j + t)).grid.toList := by
  have hfollows : Simulation.Follows .zero (m.stepN i) (m'.stepN j) :=
    .of_single (by simpa using hperiod) (by simpa using hrule) (by simpa using hsurface)
      (Simulation.sound_stepN hq h i) (Simulation.sound_stepN (hrule ▸ hq) h' j) hmeet
  rw [Simulation.stepN_add, Simulation.stepN_add]
  exact (hfollows.stepN (by simpa using hq) t).toList

/-- **A fingerprint that comes back closes a cycle.** -/
theorem Settles.cycles (h : Settles fingerprint m prePeriod period populations pattern predecessor)
    (hperiod : m.rule.period = 1) (hq : m.rule.Quiescent) (hm : m.Sound)
    (hfaithful : Faithful fingerprint m) :
    Cycles (fun t => (m.stepN (prePeriod + t)).grid.toList) period where
  pos := h.pos
  periodic := by
    intro t
    have hback := toList_of_meeting hperiod hq hm hm rfl rfl (hfaithful _ _ h.back) t
    rwa [Nat.add_assoc, Nat.add_comm period] at hback
  distinct := by
    intro t ht u hu heq
    rw [Set.mem_Iio] at ht hu
    refine Nat.add_left_cancel (h.distinct (Set.mem_Iio.mpr ?_) (Set.mem_Iio.mpr ?_)
      (congrArg fingerprint heq)) <;> omega

/-- The populations of a cycle are the lengths of its lists of cells. -/
theorem Settles.populations_eq
    (h : Settles fingerprint m prePeriod period populations pattern predecessor) :
    populations
      = (List.range period).map fun t => (m.stepN (prePeriod + t)).grid.toList.length := by
  rw [h.populations]
  exact List.map_congr_left fun t _ => (Grid.length_toList _).symm

end SoupOutcome

/-! ### The records of soups that share a cycle -/

namespace AgarReport

open SoupOutcome

section

variable {κ : Type} [BEq κ] [LawfulBEq κ] [Hashable κ] {fingerprint : List (Coord × State) → κ}
  {r : Rule} {s : Surface} {soup soup' : Grid}
  {cap cap' prePeriod prePeriod' period period' i j : Nat} {populations populations' : List Nat}
  {pattern pattern' predecessor predecessor' : Grid}

/--
**Soups that fall into the same cycle are one agar.**  Let a rule have a single phase and
keep the background, and let the fingerprints tell the patterns of either run apart.  If
the searches of two soups end with cycles that have a pattern in common, then the cycles
have the same period and the same signature, and no report has records of both.
-/
theorem one_record_of_common_pattern (hperiod : r.period = 1) (hq : r.Quiescent)
    (hsoup : ∀ c, soup.get c ≠ 0 → s.contains c = true)
    (hsoup' : ∀ c, soup'.get c ≠ 0 → s.contains c = true)
    (hfaithful : Faithful fingerprint (.start r s soup 0))
    (hfaithful' : Faithful fingerprint (.start r s soup' 0))
    (h : ofSoupBy fingerprint r s soup cap
      = .periodic prePeriod period populations pattern predecessor)
    (h' : ofSoupBy fingerprint r s soup' cap'
      = .periodic prePeriod' period' populations' pattern' predecessor')
    (hmeet : ((Simulation.start r s soup 0).stepN (prePeriod + i)).grid.sameCells
      ((Simulation.start r s soup' 0).stepN (prePeriod' + j)).grid = true) :
    period = period' ∧ Cycle.canonical populations = Cycle.canonical populations' ∧
      ∀ ruleName window soups seed outcomes report,
        ofOutcomes ruleName window soups seed outcomes = .ok report →
        ∀ a ∈ report.records, ∀ b ∈ report.records,
          outcomes[a.soupIndex]? = some (ofSoupBy fingerprint r s soup cap) ∨
            outcomes[a.soupIndex]? = some (ofSoupBy fingerprint r s soup' cap') →
          outcomes[b.soupIndex]? = some (ofSoupBy fingerprint r s soup cap) ∨
            outcomes[b.soupIndex]? = some (ofSoupBy fingerprint r s soup' cap') → a = b := by
  have hsound := Simulation.sound_start hq hsoup 0
  have hsound' := Simulation.sound_start hq hsoup' 0
  have hsettles := (ofSoupBy_eq_periodic_iff.mp h).2
  have hsettles' := (ofSoupBy_eq_periodic_iff.mp h').2
  have hcycles := hsettles.cycles hperiod hq hsound hfaithful
  have hcycles' := hsettles'.cycles hperiod hq hsound' hfaithful'
  have hjoin : ∀ t, ((Simulation.start r s soup 0).stepN (prePeriod + (i + t))).grid.toList
      = ((Simulation.start r s soup' 0).stepN (prePeriod' + (j + t))).grid.toList := by
    intro t
    rw [← Nat.add_assoc, ← Nat.add_assoc]
    exact toList_of_meeting hperiod hq hsound hsound' rfl rfl hmeet t
  obtain rfl := hcycles.period_eq hcycles' hjoin
  have hsignature : Cycle.canonical populations = Cycle.canonical populations' := by
    rw [hsettles.populations_eq, hsettles'.populations_eq]
    exact Cycle.canonical_eq (hcycles.isRotated hcycles' hjoin List.length)
  refine ⟨rfl, hsignature, fun ruleName window soups seed outcomes report hreport => ?_⟩
  have hkeeps := keeps_ofOutcomes hreport
  have hkey : ∀ record ∈ report.records,
      outcomes[record.soupIndex]? = some (ofSoupBy fingerprint r s soup cap) ∨
        outcomes[record.soupIndex]? = some (ofSoupBy fingerprint r s soup' cap') →
      record.key = (period, Cycle.canonical populations) := by
    rintro record hrecord (hof | hof)
    · rw [h] at hof
      exact hkeeps.key hrecord hof
    · rw [h'] at hof
      rw [hsignature]
      exact hkeeps.key hrecord hof
  intro a ha b hb hofa hofb
  exact List.inj_on_of_nodup_map hkeeps.distinct ha hb ((hkey a ha hofa).trans (hkey b hb hofb).symm)

end

theorem one_record_of_pulsing_cells :
    let r : Rule := {
      name := "Pulse", nStates := 5, neighbourhoods := [.ofOffsets [⟨0, -1⟩]]
      stateWeights := [[0, 1, 1, 1, 1]], space := .custom, conditions := .weighted
      transition := .function fun _ neighbours current =>
        if current = 0 then if neighbours = [1] then 3 else 0
        else if current = 1 then 2 else if current = 2 then 1 else 0
      palette := none, neighbourhoods_ne := by simp }
    let torus := Surface.box .torus 2 1
    let soup := Grid.ofList [(⟨0, 0⟩, 1), (⟨0, 1⟩, 4)]
    let soup' := Grid.ofList [(⟨0, 0⟩, 2), (⟨0, 1⟩, 3)]
    let m := Simulation.start r torus soup 0
    let m' := Simulation.start r torus soup' 0
    r.period = 1 ∧ r.Quiescent ∧ (∀ c, soup.get c ≠ 0 → torus.contains c = true) ∧
      (∀ c, soup'.get c ≠ 0 → torus.contains c = true) ∧ Faithful id m ∧ Faithful id m' ∧
      ofSoupBy id r torus soup 9 = .periodic 2 2 [1, 2] (m.stepN 4).grid (m.stepN 3).grid ∧
      ofSoupBy id r torus soup' 9 = .periodic 0 2 [2, 1] (m'.stepN 2).grid (m'.stepN 1).grid ∧
      (m.stepN (2 + 0)).grid.sameCells (m'.stepN (0 + 1)).grid = true ∧
      Cycle.canonical [1, 2] = Cycle.canonical [2, 1] ∧
      ∃ report, ofOutcomes r.name ⟨0, 0, 2, 1⟩ 2 0
        [ofSoupBy id r torus soup 9, ofSoupBy id r torus soup' 9] = .ok report ∧
          ∀ a ∈ report.records, ∀ b ∈ report.records, a = b := by
  intro r torus soup soup' m m'
  have hall : r.period = 1 ∧ r.Quiescent ∧
      (∀ c ∈ soup.coords, torus.contains c = true) ∧
      (∀ c ∈ soup'.coords, torus.contains c = true) ∧
      (m.stepN 4).grid.toList = (m.stepN 2).grid.toList ∧
      (∀ t < 4, ∀ u < 4, (m.stepN t).grid.toList = (m.stepN u).grid.toList → t = u) ∧
      [1, 2] = (List.range 2).map (fun t => (m.stepN (2 + t)).population) ∧
      (m'.stepN 2).grid.toList = (m'.stepN 0).grid.toList ∧
      (∀ t < 2, ∀ u < 2, (m'.stepN t).grid.toList = (m'.stepN u).grid.toList → t = u) ∧
      [2, 1] = (List.range 2).map (fun t => (m'.stepN (0 + t)).population) ∧
      (m.stepN (2 + 0)).grid.sameCells (m'.stepN (0 + 1)).grid = true ∧
      (ofOutcomes r.name ⟨0, 0, 2, 1⟩ 2 0
        [.periodic 2 2 [1, 2] (m.stepN 4).grid (m.stepN 3).grid,
          .periodic 0 2 [2, 1] (m'.stepN 2).grid (m'.stepN 1).grid]).toOption.isSome = true := by
    decide +kernel
  obtain ⟨hperiod, hq, hcoords, hcoords', hback, hdistinct, hpopulations, hback', hdistinct',
    hpopulations', hmeet, hok⟩ := hall
  have hsoup : ∀ c, soup.get c ≠ 0 → torus.contains c = true :=
    Grid.forall_live hcoords
  have hsoup' : ∀ c, soup'.get c ≠ 0 → torus.contains c = true :=
    Grid.forall_live hcoords'
  clear_value soup soup' r
  have h : ofSoupBy id r torus soup 9 = .periodic 2 2 [1, 2] (m.stepN 4).grid (m.stepN 3).grid :=
    ofSoupBy_eq_periodic_iff.mpr ⟨by simp, by simp, hback, fun t ht u hu => hdistinct t ht u hu,
      hpopulations, rfl, rfl⟩
  have h' : ofSoupBy id r torus soup' 9 = .periodic 0 2 [2, 1] (m'.stepN 2).grid (m'.stepN 1).grid :=
    ofSoupBy_eq_periodic_iff.mpr ⟨by simp, by simp, hback', fun t ht u hu => hdistinct' t ht u hu,
      hpopulations', rfl, rfl⟩
  have hfaithful : Faithful id m := fun _ _ h => decide_eq_true h
  have hfaithful' : Faithful id m' := fun _ _ h => decide_eq_true h
  let outcomes := [ofSoupBy id r torus soup 9, ofSoupBy id r torus soup' 9]
  rw [← h, ← h'] at hok
  obtain ⟨report, hreport⟩ : ∃ report, ofOutcomes r.name ⟨0, 0, 2, 1⟩ 2 0 outcomes = .ok report :=
    ⟨_, eq_ok_of_isSome hok (.start 0 0)⟩
  have hof : ∀ record ∈ report.records,
      outcomes[record.soupIndex]? = some (ofSoupBy id r torus soup 9) ∨
      outcomes[record.soupIndex]? = some (ofSoupBy id r torus soup' 9) := by
    intro record hrecord
    obtain ⟨_, _, _, _, _, houtcome, -⟩ := (keeps_ofOutcomes hreport).shows record hrecord
    have hmem := List.mem_of_getElem? houtcome
    rw [houtcome]
    simpa [outcomes] using hmem
  obtain ⟨-, hsignature, hone⟩ := one_record_of_common_pattern hperiod hq hsoup hsoup' hfaithful
    hfaithful' h h' hmeet
  exact ⟨hperiod, hq, hsoup, hsoup', hfaithful, hfaithful', h, h', hmeet, hsignature, report,
    hreport, fun a ha b hb => hone _ _ _ _ _ _ hreport a ha b hb (hof a ha) (hof b hb)⟩

end AgarReport

end Cellular
