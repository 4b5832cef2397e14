/-
A run on a closed surface comes back.

A closed surface has finitely many cells, `width * height` of them or, on the rectangle,
one row and one column more.  Live cells never leave it and the states of a rule that was
read stay below its number of states, so a run shows no more than
`nStates ^ (number of cells)` patterns.  A search that may go on for as many generations
meets one of them again, whatever the rule does to the background and however the
fingerprints are taken.
-/
import Mathlib.Data.Finset.NAry
import Mathlib.SetTheory.Cardinal.NatCard
import Cellular.Proofs.Batch.Soup
import Cellular.Proofs.Rule.Compile

namespace Cellular

/-! ### The cells of a closed surface -/

namespace Surface

/-- The cells in the first rows and columns. -/
def firstCells (rows cols : Nat) : Finset Coord :=
  Finset.image₂ (fun row col : Nat => (⟨row, col⟩ : Coord)) (Finset.range rows) (Finset.range cols)

theorem mem_firstCells {rows cols : Nat} {c : Coord} :
    c ∈ firstCells rows cols ↔ (0 ≤ c.row ∧ c.row < rows) ∧ 0 ≤ c.col ∧ c.col < cols := by
  unfold firstCells
  simp only [Finset.mem_image₂, Finset.mem_range]
  constructor
  · rintro ⟨row, hrow, col, hcol, rfl⟩
    simp only
    omega
  · rintro ⟨hrow, hcol⟩
    exact ⟨c.row.toNat, by omega, c.col.toNat, by omega, by ext <;> simp only <;> omega⟩

theorem card_firstCells (rows cols : Nat) : (firstCells rows cols).card = rows * cols := by
  unfold firstCells
  rw [Finset.card_image₂, Finset.card_range, Finset.card_range]
  intro row row' col col' heq
  simpa using heq

/-- The cells of a closed surface. -/
def cells : Surface → Finset Coord
  | plane => ∅
  | box joining width height =>
    if joining = .rectangle then
      (firstCells (height + 1).toNat (width + 1).toNat).erase nowhere
    else firstCells height.toNat width.toNat

variable {s : Surface} {joining : Joining} {width height : Int}

theorem mem_cells (hs : s.isClosed = true) {c : Coord} : c ∈ s.cells ↔ s.contains c = true := by
  cases s with
  | plane => simp [isClosed, dimensions?] at hs
  | box joining width height =>
      simp only [isClosed, dimensions?, Bool.and_eq_true, decide_eq_true_eq] at hs
      by_cases hj : joining = .rectangle
      · subst hj
        rw [contains_rectangle, cells, if_pos rfl, Finset.mem_erase, mem_firstCells, resolve]
        split
        · simp only [ne_eq, not_true_eq_false, iff_false, not_and]
          omega
        · simp only [ne_eq, and_iff_left_iff_imp]
          omega
      · rw [contains_box hj, Axis.outside_eq_false, Axis.outside_eq_false, cells, if_neg hj,
          mem_firstCells]
        omega

theorem finite_contained (hs : s.isClosed = true) : Finite {c : Coord // s.contains c = true} :=
  Set.Finite.to_subtype (s.cells.finite_toSet.subset fun _ hc => (mem_cells hs).mpr hc)

/-- Joined sides enclose the cells of the box. -/
theorem card_contained_box (hj : joining ≠ .rectangle)
    (hs : (box joining width height).isClosed = true) :
    Nat.card {c : Coord // (box joining width height).contains c = true}
      = height.toNat * width.toNat := by
  rw [Nat.subtype_card _ fun _ => mem_cells hs, cells, if_neg hj, card_firstCells]

/-- A rectangle has one row and one column more, unless its corner is no cell. -/
theorem card_contained_rectangle (hs : (box .rectangle width height).isClosed = true)
    (hcorner : height < nowhere.row ∨ width < nowhere.col) :
    Nat.card {c : Coord // (box .rectangle width height).contains c = true}
      = (height + 1).toNat * (width + 1).toNat := by
  rw [Nat.subtype_card _ fun _ => mem_cells hs, cells, if_pos rfl, Finset.erase_eq_of_notMem,
    card_firstCells]
  rw [mem_firstCells]
  omega

end Surface

/-! ### Only so many patterns -/

namespace Simulation

variable {m : Simulation} {n : Nat}

/-- Patterns that agree on the cells of the surface are the same. -/
theorem toList_stepN_congr (h : m.Contained) {i j : Nat}
    (hsame : ∀ c, m.surface.contains c = true →
      (m.stepN i).grid.get c = (m.stepN j).grid.get c) :
    (m.stepN i).grid.toList = (m.stepN j).grid.toList := by
  refine Grid.toList_congr fun c => ?_
  by_cases hc : m.surface.contains c = true
  · exact hsame c hc
  · rw [(contained_stepN h i).get_eq_zero (by simpa using hc),
      (contained_stepN h j).get_eq_zero (by simpa using hc)]

/-- **A run shows no more different patterns than there are.** -/
theorem card_le_of_distinct (h : m.Contained) (hs : m.surface.isClosed = true)
    (hstates : ∀ t c, (m.stepN t).grid.get c < n) {count : Nat}
    (hdistinct : Set.InjOn (fun t => (m.stepN t).grid.toList) (Set.Iio count)) :
    count ≤ n ^ Nat.card {c : Coord // m.surface.contains c = true} := by
  have := Surface.finite_contained hs
  let pattern (t : Fin count) (c : {c : Coord // m.surface.contains c = true}) : Fin n :=
    ⟨(m.stepN t).grid.get c, hstates t c⟩
  have hinjective : Function.Injective pattern := by
    intro i j hij
    refine Fin.ext (hdistinct i.isLt j.isLt (toList_stepN_congr h fun c hc => ?_))
    exact congrArg Fin.val (congrFun hij ⟨c, hc⟩)
  have hcard := Nat.card_le_card_of_injective pattern hinjective
  rwa [Nat.card_fun, Nat.card_fin, Nat.card_fin] at hcard

end Simulation

namespace SoupOutcome

variable {κ : Type} [BEq κ] [LawfulBEq κ] [Hashable κ]

/--
**A large enough cap always resolves.**  Let a rule that was read run on a closed surface,
from a soup of its cells and of states of the rule.  If the cap is at least the number of
states to the power of the number of cells, then the search ends with a cycle, and no more
generations than that have passed.
-/
theorem periodic_of_large_cap (fingerprint : List (Coord × State) → κ) {text : String} {r : Rule}
    (hread : Rule.ofText text = .ok r) {s : Surface} (hs : s.isClosed = true) {soup : Grid}
    (hsoup : ∀ c, soup.get c ≠ 0 → s.contains c = true)
    (hstates : ∀ c, soup.get c < r.nStates) {cap : Nat}
    (hcap : r.nStates ^ Nat.card {c : Coord // s.contains c = true} ≤ cap) :
    ∃ prePeriod period populations pattern predecessor,
      ofSoupBy fingerprint r s soup cap
        = .periodic prePeriod period populations pattern predecessor ∧
      prePeriod + period ≤ r.nStates ^ Nat.card {c : Coord // s.contains c = true} := by
  have hcontained := Simulation.contained_start (r := r) hsoup 0
  have hcount : ∀ count, Set.InjOn (print fingerprint (.start r s soup 0)) (Set.Iio count) →
      count ≤ r.nStates ^ Nat.card {c : Coord // s.contains c = true} := by
    intro count hdistinct
    refine Simulation.card_le_of_distinct hcontained hs ?_ hdistinct.of_comp
    exact Simulation.get_stepN_lt hcontained (fun phase neighbours _ =>
      Rule.next_lt hread phase neighbours) hstates
  have hdescribes := describes_ofSoupBy fingerprint r s soup cap
  cases houtcome : ofSoupBy fingerprint r s soup cap with
  | periodic prePeriod period populations pattern predecessor =>
      rw [houtcome] at hdescribes
      exact ⟨prePeriod, period, populations, pattern, predecessor, rfl,
        hcount _ hdescribes.2.distinct⟩
  | unresolved =>
      -- The generations from 0 to the cap would all be different, one too many.
      rw [houtcome] at hdescribes
      have hlate := hcount (cap + 1) (hdescribes.mono fun t ht => Nat.lt_succ_iff.mp ht)
      omega

theorem periodic_of_large_cap_on_rectangle :
    let ruleText := "Rulespace: Outer Totalistic\nState Weights: 0,1\nRulestring: b0s\n" ++
      "Neighbourhood Range: 1\nNeighbourhood:\n0,0,0\n1,0,0\n0,0,0\n"
    let rectangle := Surface.box .rectangle 2 1
    let soup := Grid.ofList [(⟨0, 1⟩, 1), (⟨1, 2⟩, 1)]
    ∃ r, Rule.ofText ruleText = .ok r ∧ rectangle.isClosed = true ∧
      (∀ c, soup.get c ≠ 0 → rectangle.contains c = true) ∧ (∀ c, soup.get c < r.nStates) ∧
      r.nStates ^ Nat.card {c : Coord // rectangle.contains c = true} = 64 ∧
      ∃ prePeriod period populations pattern predecessor,
        ofSoupBy id r rectangle soup 64
          = .periodic prePeriod period populations pattern predecessor ∧
        prePeriod + period ≤ 64 := by
  intro ruleText rectangle soup
  have hall : (Rule.ofText ruleText).toOption.map Rule.nStates = some 2 ∧
      (∀ c ∈ soup.coords, rectangle.contains c = true) ∧ ∀ c ∈ soup.coords, soup.get c < 2 := by
    decide +kernel
  obtain ⟨hstates, hcoords, hbelow⟩ := hall
  obtain ⟨r, hr, hcount⟩ := Option.map_eq_some_iff.mp hstates
  have hread := ok_of_toOption hr
  have hsoup : ∀ c, soup.get c ≠ 0 → rectangle.contains c = true := Grid.forall_live hcoords
  have hstates : ∀ c, soup.get c < r.nStates := by
    intro c
    rw [hcount]
    by_cases hc : soup.get c = 0
    · simp [hc]
    · exact Grid.forall_live hbelow c hc
  have hcard : r.nStates ^ Nat.card {c : Coord // rectangle.contains c = true} = 64 := by
    rw [Surface.card_contained_rectangle rfl (by decide), hcount]
    rfl
  have hperiodic := periodic_of_large_cap id hread rfl hsoup hstates hcard.le
  rw [hcard] at hperiodic
  exact ⟨r, hread, rfl, hsoup, hstates, hcard, hperiodic⟩

end SoupOutcome

end Cellular
