/-
What a report keeps.

A report takes the outcomes in turn, and there are four things that an outcome can do to
it: `Adds` lists them.  What all of them keep holds of every report (`Keeps`): each record
is that of an outcome, and no two records have both their period and their signature in
common.
-/
import Mathlib.Data.List.Nodup
import Cellular.Batch.Agar
import Cellular.Proofs.Chain

namespace Cellular

/-- The record shows what became of a soup. -/
structure AgarRecord.Shows (ruleName : String) (window : Window) (record : AgarRecord)
    (prePeriod period : Nat) (populations : List Nat) (pattern predecessor : Grid) : Prop where
  prePeriod : record.prePeriod = prePeriod
  period : record.period = period
  signature : record.signature = Cycle.canonical populations
  pattern : Pattern.encode pattern window ruleName = .ok record.pattern
  predecessor : Pattern.encode predecessor window ruleName = .ok record.predecessor

/-- What agars are told apart by. -/
def AgarRecord.key (record : AgarRecord) : Nat × List Nat := (record.period, record.signature)

theorem AgarRecord.Shows.key {ruleName : String} {window : Window} {record : AgarRecord}
    {prePeriod period : Nat} {populations : List Nat} {pattern predecessor : Grid}
    (h : record.Shows ruleName window prePeriod period populations pattern predecessor) :
    record.key = (period, Cycle.canonical populations) :=
  Prod.ext h.period h.signature

namespace AgarReport

/-- The report with one more soup that ended in a cycle of the given period. -/
def counting (r : AgarReport) (period : Nat) : AgarReport :=
  { r with counts := r.counts.insert period (r.counts.getD period 0 + 1) }

/-- What the outcome of soup `i` can do to a report. -/
inductive Adds (ruleName : String) (window : Window) (r : AgarReport) (i : Nat) :
    SoupOutcome → AgarReport → Prop
  | unresolved : Adds ruleName window r i .unresolved { r with unresolved := r.unresolved + 1 }
  | still {prePeriod period : Nat} {populations : List Nat} {pattern predecessor : Grid}
      (hperiod : period ≤ 1) :
      Adds ruleName window r i (.periodic prePeriod period populations pattern predecessor) r
  | known {prePeriod period : Nat} {populations : List Nat} {pattern predecessor : Grid}
      (hperiod : 1 < period) (hknown : r.isKnown period (Cycle.canonical populations) = true) :
      Adds ruleName window r i (.periodic prePeriod period populations pattern predecessor)
        (r.counting period)
  | new {prePeriod period : Nat} {populations : List Nat} {pattern predecessor : Grid}
      (hperiod : 1 < period) (hnew : r.isKnown period (Cycle.canonical populations) = false)
      {record : AgarRecord} (hindex : record.soupIndex = i)
      (hshows : record.Shows ruleName window prePeriod period populations pattern predecessor) :
      Adds ruleName window r i (.periodic prePeriod period populations pattern predecessor)
        { r.counting period with records := r.records ++ [record] }

variable {ruleName : String} {window : Window} {r r' : AgarReport} {i : Nat}
  {outcome : SoupOutcome} {outcomes : List SoupOutcome}

/-- **An outcome does one of these things.** -/
theorem adds_of_add (h : r.add ruleName window i outcome = .ok r') :
    Adds ruleName window r i outcome r' := by
  cases outcome with
  | unresolved =>
      obtain rfl := Except.ok.inj h
      exact .unresolved
  | periodic prePeriod period populations pattern predecessor =>
      unfold add at h
      simp only at h
      split at h
      · rename_i hperiod
        obtain rfl := Except.ok.inj h
        exact .still hperiod
      · rename_i hperiod
        split at h
        · rename_i hknown
          obtain rfl := Except.ok.inj h
          exact .known (by omega) hknown
        · rename_i hnew
          obtain ⟨written, hwritten, h⟩ := ok_of_bind h
          obtain ⟨before, hbefore, h⟩ := ok_of_bind h
          obtain rfl := Except.ok.inj h
          exact .new (by omega) (Bool.not_eq_true _ ▸ hnew) rfl
            ⟨rfl, rfl, rfl, ok_of_mapError hwritten, ok_of_mapError hbefore⟩

theorem isKnown_iff {period : Nat} {signature : List Nat} :
    r.isKnown period signature = true ↔ (period, signature) ∈ r.records.map AgarRecord.key := by
  simp [isKnown, AgarRecord.key]

/-- Every record is that of an outcome, and no two are of one agar. -/
structure Keeps (ruleName : String) (window : Window) (outcomes : List SoupOutcome)
    (r : AgarReport) : Prop where
  shows : ∀ record ∈ r.records, ∃ prePeriod period populations pattern predecessor,
    outcomes[record.soupIndex]?
      = some (.periodic prePeriod period populations pattern predecessor) ∧
    record.Shows ruleName window prePeriod period populations pattern predecessor
  distinct : (r.records.map AgarRecord.key).Nodup

/-- A record of a soup has the key of its cycle. -/
theorem Keeps.key (h : Keeps ruleName window outcomes r) {record : AgarRecord}
    (hrecord : record ∈ r.records) {prePeriod period : Nat} {populations : List Nat}
    {pattern predecessor : Grid} (hof : outcomes[record.soupIndex]?
      = some (.periodic prePeriod period populations pattern predecessor)) :
    record.key = (period, Cycle.canonical populations) := by
  obtain ⟨_, _, _, _, _, houtcome, hshows⟩ := h.shows record hrecord
  rw [hof, Option.some.injEq, SoupOutcome.periodic.injEq] at houtcome
  rw [hshows.key, houtcome.2.1, houtcome.2.2.1]

/-- **What an outcome does to a report leaves the records in order.** -/
theorem Keeps.adds (h : Keeps ruleName window outcomes r)
    (hadds : Adds ruleName window r i outcome r') (hi : outcomes[i]? = some outcome) :
    Keeps ruleName window outcomes r' := by
  cases hadds with
  | unresolved => exact ⟨h.shows, h.distinct⟩
  | still => exact h
  | known => exact ⟨h.shows, h.distinct⟩
  | @new prePeriod period populations pattern predecessor _ hnew record hindex hshows =>
      refine ⟨fun known hmem => ?_, ?_⟩
      · rcases List.mem_append.mp hmem with hmem | hmem
        · exact h.shows known hmem
        · rw [List.mem_singleton.mp hmem]
          exact ⟨prePeriod, period, populations, pattern, predecessor, hindex ▸ hi, hshows⟩
      · rw [List.map_append, List.map_singleton, hshows.key, ← List.concat_eq_append]
        refine h.distinct.concat fun hmem => ?_
        rw [isKnown_iff.mpr hmem] at hnew
        simp at hnew

/-- **Every report keeps its records in order.** -/
theorem keeps_ofOutcomes {soups : Nat} {seed : UInt64}
    (h : ofOutcomes ruleName window soups seed outcomes = .ok r) :
    Keeps ruleName window outcomes r := by
  refine invariant_of_foldlM (Keeps ruleName window outcomes) ?_ ?_ h
  · intro r x hx r' hkeeps hadd
    exact hkeeps.adds (adds_of_add hadd) (List.mem_zipIdx_iff_getElem?.mp hx)
  · exact ⟨by simp [start], List.nodup_nil⟩

end AgarReport

end Cellular
