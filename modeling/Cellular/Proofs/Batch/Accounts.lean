/-
A report accounts for every soup.

An outcome may leave the report early in three ways: it is unresolved, its cycle is one
generation long, or its agar is known.  `Tallies` says what the counters and the records are
after the outcomes so far, each by the outcomes alone: a counter is a count of outcomes, and
there is a record for each agar among them, at the place where the agar first occurs.  One
more outcome keeps this, whichever way it leaves, so it holds of the whole report.

From there on the order of the updates is forgotten.  The counters add up because every
outcome is counted in exactly one place, and a report is made exactly if the first soup of
each agar can be written.
-/
import Mathlib.Data.List.Dedup
import Cellular.Proofs.Batch.Rotation
import Cellular.Proofs.Batch.Records

namespace Cellular

namespace SoupOutcome

/-- The number of generations after which the cycle of a soup starts over. -/
def period? : SoupOutcome → Option Nat
  | periodic _ period _ _ _ => some period
  | unresolved => none

/-- What the agar of a soup is told apart by; a cycle of one generation is none. -/
def agar? : SoupOutcome → Option (Nat × List Nat)
  | periodic _ period populations _ _ =>
    if 1 < period then some (period, Cycle.canonical populations) else none
  | unresolved => none

/-- Both patterns of an outcome can be written. -/
def Writable (ruleName : String) (window : Window) : SoupOutcome → Prop
  | periodic _ _ _ pattern predecessor =>
    (∃ text, Pattern.encode pattern window ruleName = .ok text) ∧
      ∃ text, Pattern.encode predecessor window ruleName = .ok text
  | unresolved => True

theorem agar?_periodic {prePeriod period : Nat} {populations : List Nat}
    {pattern predecessor : Grid} (h : 1 < period) :
    (periodic prePeriod period populations pattern predecessor).agar?
      = some (period, Cycle.canonical populations) := if_pos h

theorem agar?_still {prePeriod period : Nat} {populations : List Nat}
    {pattern predecessor : Grid} (h : period ≤ 1) :
    (periodic prePeriod period populations pattern predecessor).agar? = none :=
  if_neg (Nat.not_lt.mpr h)

/-- There is an agar for each period of more than one generation. -/
theorem map_agar?_eq_some {o : SoupOutcome} {p : Nat} :
    o.agar?.map Prod.fst = some p ↔ o.period? = some p ∧ 1 < p := by
  cases o with
  | unresolved => simp [agar?, period?]
  | periodic prePeriod period populations pattern predecessor =>
      by_cases hperiod : 1 < period
      · simp only [agar?, period?, if_pos hperiod, Option.map_some, Option.some.injEq]
        exact ⟨fun h => ⟨h, h ▸ hperiod⟩, And.left⟩
      · simp only [agar?, period?, if_neg hperiod, Option.map_none, Option.some.injEq]
        exact ⟨fun h => (Option.some_ne_none p h.symm).elim, fun h => absurd (h.1 ▸ h.2) hperiod⟩

/-- A soup that was searched has a population for each generation of its cycle. -/
theorem length_of_agar? {κ : Type} [BEq κ] [Hashable κ] [LawfulBEq κ]
    {fingerprint : List (Coord × State) → κ} {r : Rule} {s : Surface} {soup : Grid} {cap : Nat}
    {key : Nat × List Nat} (h : (ofSoupBy fingerprint r s soup cap).agar? = some key) :
    key.2.length = key.1 := by
  cases houtcome : ofSoupBy fingerprint r s soup cap with
  | unresolved => simp [houtcome, agar?] at h
  | periodic prePeriod period populations pattern predecessor =>
      have hpopulations := (ofSoupBy_eq_periodic_iff.mp houtcome).2.populations
      have hlength := (Cycle.isRotated_canonical populations).perm.length_eq
      simp only [houtcome, agar?, Option.ite_none_right_eq_some, Option.some.injEq] at h
      rw [← h.2, ← hlength, hpopulations, List.length_map, List.length_range]

end SoupOutcome

namespace AgarReport

open SoupOutcome

variable {ruleName : String} {window : Window} {soups : Nat} {seed : UInt64}
  {r r' : AgarReport} {i : Nat}
  {outcome : SoupOutcome} {outcomes : List SoupOutcome}

/-! ### What a report counts -/

/-- The periods of the agars among the outcomes. -/
def agarPeriods (outcomes : List SoupOutcome) : List Nat :=
  outcomes.flatMap fun o => (o.agar?.map Prod.fst).toList

/-- What the counters of a report are after the given outcomes. -/
structure Counted (outcomes : List SoupOutcome) (r : AgarReport) : Prop where
  counts : ∀ p, r.counts[p]?
    = if p ∈ agarPeriods outcomes then some ((agarPeriods outcomes).count p) else none
  unresolved : r.unresolved = outcomes.countP (·.period?.isNone)

theorem agarPeriods_concat (outcomes : List SoupOutcome) (outcome : SoupOutcome) :
    agarPeriods (outcomes ++ [outcome])
      = agarPeriods outcomes ++ (outcome.agar?.map Prod.fst).toList := by
  unfold agarPeriods
  rw [List.flatMap_append, List.flatMap_singleton]

/-- The counter of a period counts one soup more. -/
theorem Counted.counting (h : Counted outcomes r) {key : Nat × List Nat}
    (hagar : outcome.agar? = some key) (p : Nat) : (r.counting key.1).counts[p]?
      = if p ∈ agarPeriods (outcomes ++ [outcome])
        then some ((agarPeriods (outcomes ++ [outcome])).count p) else none := by
  have hone : r.counts.getD key.1 0 = (agarPeriods outcomes).count key.1 := by
    rw [Std.ExtTreeMap.getD_eq_getD_getElem?, h.counts]
    split
    · rfl
    · rename_i hnot
      exact (List.count_eq_zero_of_not_mem hnot).symm
  unfold AgarReport.counting
  simp only
  rw [Std.ExtTreeMap.getElem?_insert, agarPeriods_concat, hagar, h.counts, hone]
  by_cases hp : key.1 = p
  · subst hp
    simp
  · have hp' : p ≠ key.1 := Ne.symm hp
    simp [hp, hp', List.count_append]

/-- **Every outcome is counted once.** -/
theorem Counted.adds (h : Counted outcomes r) (hadds : Adds ruleName window r i outcome r') :
    Counted (outcomes ++ [outcome]) r' := by
  cases hadds with
  | unresolved =>
      refine ⟨fun p => ?_, ?_⟩
      · rw [agarPeriods_concat]
        simpa [agar?] using h.counts p
      · rw [List.countP_append, ← h.unresolved]
        rfl
  | still hperiod =>
      refine ⟨fun p => ?_, ?_⟩
      · rw [agarPeriods_concat]
        simpa [agar?_still hperiod] using h.counts p
      · rw [List.countP_append, ← h.unresolved]
        rfl
  | known hperiod =>
      refine ⟨h.counting (agar?_periodic hperiod), ?_⟩
      rw [List.countP_append, ← h.unresolved]
      rfl
  | new hperiod =>
      refine ⟨h.counting (agar?_periodic hperiod), ?_⟩
      rw [List.countP_append, ← h.unresolved]
      rfl

/-- The counters add up to the number of agars. -/
theorem Counted.sum_counts (h : Counted outcomes r) :
    (r.counts.toList.map Prod.snd).sum = (agarPeriods outcomes).length := by
  have hvalues : r.counts.toList.map Prod.snd
      = r.counts.keys.map fun p => (agarPeriods outcomes).count p := by
    rw [← Std.ExtTreeMap.map_fst_toList_eq_keys, List.map_map]
    refine List.map_congr_left fun ⟨p, n⟩ hmem => ?_
    rw [Std.ExtTreeMap.mem_toList_iff_getElem?_eq_some, h.counts,
      Option.ite_none_right_eq_some] at hmem
    exact (Option.some.inj hmem.2).symm
  have hkeys : r.counts.keys.Perm (agarPeriods outcomes).dedup := by
    rw [List.perm_ext_iff_of_nodup Std.ExtTreeMap.nodup_keys (List.nodup_dedup _)]
    intro p
    rw [Std.ExtTreeMap.mem_keys, Std.ExtTreeMap.mem_iff_isSome_getElem?, h.counts, List.mem_dedup]
    split <;> simp [*]
  rw [hvalues, (hkeys.map _).sum_eq, List.sum_map_count_dedup_eq_length]

/-- An outcome is an agar, unresolved or still. -/
theorem length_agarPeriods_add (outcomes : List SoupOutcome) :
    (agarPeriods outcomes).length + outcomes.countP (·.period?.isNone)
        + outcomes.countP (·.period?.any (· ≤ 1)) = outcomes.length := by
  induction outcomes with
  | nil => rfl
  | cons o rest ih =>
      have hone : (o.agar?.map Prod.fst).toList.length + (if o.period?.isNone then 1 else 0)
          + (if o.period?.any (· ≤ 1) then 1 else 0) = 1 := by
        cases o with
        | unresolved => rfl
        | periodic prePeriod period populations pattern predecessor =>
            by_cases hperiod : 1 < period
            · simp [agar?, period?, hperiod]
            · simp [agar?, period?, hperiod, Nat.not_lt.mp hperiod]
      unfold agarPeriods at ih ⊢
      rw [List.flatMap_cons, List.length_append, List.countP_cons, List.countP_cons,
        List.length_cons]
      omega

theorem mem_agarPeriods {p : Nat} : p ∈ agarPeriods outcomes ↔
    1 < p ∧ ∃ outcome ∈ outcomes, outcome.period? = some p := by
  unfold agarPeriods
  simp only [List.mem_flatMap, Option.mem_toList, map_agar?_eq_some]
  constructor
  · rintro ⟨o, ho, hperiod, hp⟩
    exact ⟨hp, o, ho, hperiod⟩
  · rintro ⟨hp, o, ho, hperiod⟩
    exact ⟨o, ho, hperiod, hp⟩

/-- The agars of a period are the soups that came back after as many generations. -/
theorem count_agarPeriods (outcomes : List SoupOutcome) {p : Nat} (hp : 1 < p) :
    (agarPeriods outcomes).count p = outcomes.countP (·.period? = some p) := by
  induction outcomes with
  | nil => rfl
  | cons o rest ih =>
      unfold agarPeriods at ih ⊢
      rw [List.flatMap_cons, List.count_append, List.countP_cons, ih, Nat.add_comm]
      congr 1
      have hiff := map_agar?_eq_some (o := o) (p := p)
      cases hagar : o.agar?.map Prod.fst with
      | none =>
          rw [hagar] at hiff
          simp only [hp, and_true] at hiff
          simp [← hiff]
      | some q =>
          rw [hagar] at hiff
          simp only [hp, and_true] at hiff
          simp [← hiff, List.count_singleton]

/-! ### What a report records -/

/-- The agars of the outcomes, with nothing where there is none. -/
def agars (outcomes : List SoupOutcome) : List (Option (Nat × List Nat)) := outcomes.map agar?

/-- The records after the given outcomes: one for each agar, where it first occurs. -/
structure Recorded (outcomes : List SoupOutcome) (records : List AgarRecord) : Prop where
  increasing : records.Pairwise fun a b => a.soupIndex < b.soupIndex
  first : ∀ record ∈ records, some record.key ∈ agars outcomes ∧
    record.soupIndex = (agars outcomes).idxOf (some record.key)
  complete : ∀ key, some key ∈ agars outcomes → key ∈ records.map AgarRecord.key

theorem length_agars (outcomes : List SoupOutcome) : (agars outcomes).length = outcomes.length :=
  List.length_map ..

theorem agars_concat (outcomes : List SoupOutcome) (outcome : SoupOutcome) :
    agars (outcomes ++ [outcome]) = agars outcomes ++ [outcome.agar?] := List.map_append

variable {records : List AgarRecord} {record : AgarRecord}

/-- The places of the records are places of outcomes. -/
theorem Recorded.soupIndex_lt (h : Recorded outcomes records) (hrecord : record ∈ records) :
    record.soupIndex < outcomes.length := by
  obtain ⟨hmem, hindex⟩ := h.first record hrecord
  rw [hindex, ← length_agars outcomes]
  exact List.idxOf_lt_length_of_mem hmem

/-- An agar is on record exactly if it occurs. -/
theorem Recorded.mem_keys (h : Recorded outcomes records) {key : Nat × List Nat} :
    key ∈ records.map AgarRecord.key ↔ some key ∈ agars outcomes := by
  refine ⟨fun hmem => ?_, h.complete key⟩
  obtain ⟨record, hrecord, rfl⟩ := List.mem_map.mp hmem
  exact (h.first record hrecord).1

/-- No two records are of one agar. -/
theorem Recorded.nodup_keys (h : Recorded outcomes records) :
    (records.map AgarRecord.key).Nodup := by
  rw [List.nodup_iff_pairwise_ne, List.pairwise_map]
  refine (List.Pairwise.and_mem.mp h.increasing).imp ?_
  rintro a b ⟨ha, hb, hlt⟩ hkey
  rw [(h.first a ha).2, (h.first b hb).2, hkey] at hlt
  exact Nat.lt_irrefl _ hlt

/-- What is recorded stays where it is. -/
theorem Recorded.first_concat (h : Recorded outcomes records) (outcome : SoupOutcome) :
    ∀ record ∈ records, some record.key ∈ agars (outcomes ++ [outcome]) ∧
      record.soupIndex = (agars (outcomes ++ [outcome])).idxOf (some record.key) := by
  intro record hrecord
  obtain ⟨hmem, hindex⟩ := h.first record hrecord
  rw [agars_concat, List.idxOf_append, if_pos hmem]
  exact ⟨List.mem_append_left _ hmem, hindex⟩

/-- An outcome without an agar, or with one on record, needs no record. -/
theorem Recorded.old (h : Recorded outcomes records)
    (hold : ∀ key, outcome.agar? = some key → key ∈ records.map AgarRecord.key) :
    Recorded (outcomes ++ [outcome]) records where
  increasing := h.increasing
  first := h.first_concat outcome
  complete := by
    intro key hkey
    rw [agars_concat, List.mem_append, List.mem_singleton] at hkey
    rcases hkey with hkey | hkey
    · exact h.complete key hkey
    · exact hold key hkey.symm

/-- A new agar is recorded at the end. -/
theorem Recorded.new (h : Recorded outcomes records) (hagar : outcome.agar? = some record.key)
    (hindex : record.soupIndex = outcomes.length)
    (hnew : record.key ∉ records.map AgarRecord.key) :
    Recorded (outcomes ++ [outcome]) (records ++ [record]) where
  increasing := by
    refine List.pairwise_append.mpr ⟨h.increasing, List.pairwise_singleton _ _, ?_⟩
    intro a ha b hb
    rw [List.mem_singleton.mp hb, hindex]
    exact h.soupIndex_lt ha
  first := by
    intro known hknown
    rcases List.mem_append.mp hknown with hknown | hknown
    · exact h.first_concat outcome known hknown
    · obtain rfl := List.mem_singleton.mp hknown
      have hnot : some known.key ∉ agars outcomes := fun hmem => hnew (h.complete _ hmem)
      rw [agars_concat, List.idxOf_append, if_neg hnot, hagar, List.idxOf_cons_self, Nat.zero_add]
      exact ⟨List.mem_append_right _ List.mem_cons_self, hindex.trans (length_agars outcomes).symm⟩
  complete := by
    intro key hkey
    rw [agars_concat, List.mem_append, List.mem_singleton, hagar] at hkey
    rw [List.map_append, List.mem_append]
    rcases hkey with hkey | hkey
    · exact Or.inl (h.complete key hkey)
    · exact Or.inr (List.mem_singleton.mpr (Option.some.inj hkey))

/-- **The first soup of each agar is recorded.** -/
theorem Recorded.adds (h : Recorded outcomes r.records)
    (hadds : Adds ruleName window r outcomes.length outcome r') :
    Recorded (outcomes ++ [outcome]) r'.records := by
  cases hadds with
  | unresolved => exact h.old fun key hkey => by simp [agar?] at hkey
  | still hperiod =>
      exact h.old fun key hkey => by simp [agar?_still hperiod] at hkey
  | known hperiod hknown =>
      refine h.old fun key hkey => ?_
      rw [agar?_periodic hperiod, Option.some.injEq] at hkey
      exact hkey ▸ isKnown_iff.mp hknown
  | new hperiod hnew hindex hshows =>
      refine h.new ?_ hindex fun hmem => ?_
      · rw [hshows.key]
        exact agar?_periodic hperiod
      · rw [hshows.key] at hmem
        rw [isKnown_iff.mpr hmem] at hnew
        simp at hnew

/-! ### What a report needs -/

/-- An outcome makes a report unless it is the first of an agar that cannot be written. -/
theorem exists_add_iff : (∃ r', r.add ruleName window i outcome = .ok r') ↔
    ∀ key, outcome.agar? = some key → key ∉ r.records.map AgarRecord.key →
      outcome.Writable ruleName window := by
  cases outcome with
  | unresolved => exact ⟨fun _ _ _ _ => trivial, fun _ => ⟨_, rfl⟩⟩
  | periodic prePeriod period populations pattern predecessor =>
      unfold add
      simp only
      by_cases hperiod : period ≤ 1
      · rw [if_pos hperiod, agar?_still hperiod]
        exact ⟨fun _ key hkey => by simp at hkey, fun _ => ⟨_, rfl⟩⟩
      · rw [if_neg hperiod, agar?_periodic (by omega)]
        simp only [Option.some.injEq, forall_eq', ← isKnown_iff]
        split
        · rename_i hknown
          exact ⟨fun _ hnew => absurd hknown hnew, fun _ => ⟨_, rfl⟩⟩
        · rename_i hnew
          constructor
          · rintro ⟨r', h⟩ _
            obtain ⟨written, hwritten, h⟩ := ok_of_bind h
            obtain ⟨before, hbefore, -⟩ := ok_of_bind h
            exact ⟨⟨_, ok_of_mapError hwritten⟩, _, ok_of_mapError hbefore⟩
          · intro h
            obtain ⟨⟨written, hwritten⟩, before, hbefore⟩ := h hnew
            rw [hwritten, hbefore]
            exact ⟨_, rfl⟩

/-- The first soup of each agar can be written. -/
def FirstsWritable (ruleName : String) (window : Window) (outcomes : List SoupOutcome) : Prop :=
  ∀ i outcome key, outcomes[i]? = some outcome → outcome.agar? = some key →
    i = (agars outcomes).idxOf (some key) → outcome.Writable ruleName window

theorem firstsWritable_concat : FirstsWritable ruleName window (outcomes ++ [outcome]) ↔
    FirstsWritable ruleName window outcomes ∧ ∀ key, outcome.agar? = some key →
      some key ∉ agars outcomes → outcome.Writable ruleName window := by
  unfold FirstsWritable
  rw [agars_concat]
  constructor
  · intro h
    refine ⟨fun i o key ho hkey hi => ?_, fun key hkey hnew => ?_⟩
    · have hmem : some key ∈ agars outcomes :=
        hkey ▸ List.mem_map_of_mem (List.mem_of_getElem? ho)
      refine h i o key ?_ hkey (by rw [List.idxOf_append, if_pos hmem, hi])
      rw [List.getElem?_append_left (List.getElem?_eq_some_iff.mp ho).1, ho]
    · refine h outcomes.length outcome key (by simp) hkey ?_
      rw [List.idxOf_append, if_neg hnew, hkey, List.idxOf_cons_self, Nat.zero_add]
      exact (length_agars outcomes).symm
  · rintro ⟨hfirst, hlast⟩ i o key ho hkey hi
    by_cases hmem : some key ∈ agars outcomes
    · rw [List.idxOf_append, if_pos hmem] at hi
      have hlt : i < outcomes.length := by
        rw [hi, ← length_agars outcomes]
        exact List.idxOf_lt_length_of_mem hmem
      rw [List.getElem?_append_left hlt] at ho
      exact hfirst i o key ho hkey hi
    · rcases List.mem_append.mp (List.mem_of_getElem? ho) with ho | ho
      · exact absurd (hkey ▸ List.mem_map_of_mem ho) hmem
      · obtain rfl := List.mem_singleton.mp ho
        exact hlast key hkey hmem

/-! ### Whole reports -/

theorem ofOutcomes_concat (outcomes : List SoupOutcome) (outcome : SoupOutcome) :
    ofOutcomes ruleName window soups seed (outcomes ++ [outcome])
      = ofOutcomes ruleName window soups seed outcomes >>= fun r =>
          r.add ruleName window outcomes.length outcome := by
  unfold ofOutcomes
  rw [List.zipIdx_append, List.foldlM_append, Nat.zero_add]
  congr 1
  funext r
  exact bind_pure _

/-- **A report has counted and recorded its outcomes.** -/
theorem tallies_ofOutcomes (outcomes : List SoupOutcome) :
    ∀ {r : AgarReport}, ofOutcomes ruleName window soups seed outcomes = .ok r →
      r.soups = soups ∧ Counted outcomes r ∧ Recorded outcomes r.records := by
  induction outcomes using List.reverseRecOn with
  | nil =>
      intro r h
      obtain rfl := Except.ok.inj h
      exact ⟨rfl, ⟨fun p => by simp [start, agarPeriods], rfl⟩, ⟨.nil, by simp [start],
        by simp [agars]⟩⟩
  | append_singleton outcomes outcome ih =>
      intro r h
      rw [ofOutcomes_concat] at h
      obtain ⟨before, hbefore, hadd⟩ := ok_of_bind h
      obtain ⟨hsoups, hcounted, hrecorded⟩ := ih hbefore
      have hadds := adds_of_add hadd
      refine ⟨?_, hcounted.adds hadds, hrecorded.adds hadds⟩
      cases hadds <;> exact hsoups

/-- **There is a report exactly if its records can be written.** -/
theorem exists_ofOutcomes_iff (outcomes : List SoupOutcome) :
    (∃ r, ofOutcomes ruleName window soups seed outcomes = .ok r) ↔
      FirstsWritable ruleName window outcomes := by
  induction outcomes using List.reverseRecOn with
  | nil => exact ⟨fun _ i o key ho => by simp at ho, fun _ => ⟨_, rfl⟩⟩
  | append_singleton outcomes outcome ih =>
      rw [ofOutcomes_concat, firstsWritable_concat, ← ih]
      constructor
      · rintro ⟨r, h⟩
        obtain ⟨before, hbefore, hadd⟩ := ok_of_bind h
        obtain ⟨-, -, hrecorded⟩ := tallies_ofOutcomes outcomes hbefore
        refine ⟨⟨before, hbefore⟩, fun key hkey hnew => exists_add_iff.mp ⟨r, hadd⟩ key hkey ?_⟩
        exact fun hmem => hnew (hrecorded.mem_keys.mp hmem)
      · rintro ⟨⟨before, hbefore⟩, hlast⟩
        obtain ⟨-, -, hrecorded⟩ := tallies_ofOutcomes outcomes hbefore
        rw [hbefore]
        refine exists_add_iff.mpr fun key hkey hnew => hlast key hkey fun hmem => hnew ?_
        exact hrecorded.mem_keys.mpr hmem

/-- What a report owes to the outcomes of its soups, however these were found. -/
structure Accounts (outcomes : List SoupOutcome) (r : AgarReport) : Prop where
  soups : r.soups = outcomes.length
  /-- Every soup is counted, unresolved or still. -/
  total : (r.counts.toList.map Prod.snd).sum + r.unresolved
    + outcomes.countP (·.period?.any (· ≤ 1)) = r.soups
  counts : ∀ p, 1 < p → r.counts.getD p 0 = outcomes.countP (·.period? = some p)
  periods : ∀ p, p ∈ r.counts ↔ 1 < p ∧ ∃ outcome ∈ outcomes, outcome.period? = some p
  increasing : r.records.Pairwise fun a b => a.soupIndex < b.soupIndex
  distinct : (r.records.map AgarRecord.key).Nodup
  /-- Every agar has one record, of the soup in which it first occurs. -/
  recorded : ∀ outcome ∈ outcomes, ∀ key, outcome.agar? = some key →
    ∃ record ∈ r.records, record.key = key ∧
      record.soupIndex = (agars outcomes).idxOf (some key) ∧
      ∀ other ∈ r.records, other.key = key → other = record
  /-- There are no other records. -/
  genuine : ∀ record ∈ r.records, some record.key ∈ agars outcomes

/-- What was counted and recorded of outcomes accounts for them. -/
theorem accounts_of_tallies (hsoups : r.soups = outcomes.length) (hcounted : Counted outcomes r)
    (hrecorded : Recorded outcomes r.records) : Accounts outcomes r where
  soups := hsoups
  total := by
    rw [hcounted.sum_counts, hcounted.unresolved, length_agarPeriods_add, hsoups]
  counts := by
    intro p hp
    rw [Std.ExtTreeMap.getD_eq_getD_getElem?, hcounted.counts, ← count_agarPeriods outcomes hp]
    split
    · rfl
    · rename_i hnot
      exact (List.count_eq_zero_of_not_mem hnot).symm
  periods := by
    intro p
    rw [Std.ExtTreeMap.mem_iff_isSome_getElem?, hcounted.counts, ← mem_agarPeriods]
    split <;> simp [*]
  increasing := hrecorded.increasing
  distinct := hrecorded.nodup_keys
  recorded := by
    intro outcome houtcome key hkey
    have hagar : some key ∈ agars outcomes := List.mem_map.mpr ⟨outcome, houtcome, hkey⟩
    have hmem := hrecorded.mem_keys.mpr hagar
    obtain ⟨record, hrecord, rfl⟩ := List.mem_map.mp hmem
    exact ⟨record, hrecord, rfl, (hrecorded.first record hrecord).2, fun other hother hsame =>
      List.inj_on_of_nodup_map hrecorded.nodup_keys hother hrecord hsame⟩
  genuine := fun record hrecord => (hrecorded.first record hrecord).1

section

variable {κ : Type} [BEq κ] [Hashable κ] [LawfulBEq κ] {source : RandomSource}
  {fingerprint : List (Coord × State) → κ}

/-- The signature of an agar that was found by a search has as many populations as the agar has
generations. -/
theorem Accounts.length_signature (h : Accounts outcomes r)
    (hsearched : ∀ outcome ∈ outcomes, ∃ rule surface soup cap,
      outcome = ofSoupBy fingerprint rule surface soup cap) :
    ∀ record ∈ r.records, record.signature.length = record.period := by
  intro record hrecord
  obtain ⟨outcome, houtcome, hkey⟩ := List.mem_map.mp (h.genuine record hrecord)
  obtain ⟨rule, surface, soup, cap, rfl⟩ := hsearched outcome houtcome
  exact length_of_agar? hkey

omit [LawfulBEq κ] in
/-- The report of a run accounts for the soups of the run. -/
theorem accounts_of_run {rule : Rule} {s : Settings} {report : AgarReport}
    (h : run source fingerprint rule s = .ok report) :
    ∃ (surface : Surface) (soup : Nat → Grid),
      Accounts ((List.range s.soups).map fun index =>
        ofSoupBy fingerprint rule surface (soup index) s.cap) report := by
  obtain ⟨joining, width, height, chance, -, -, -, houtcomes⟩ := of_run h
  obtain ⟨hsoups, hcounted, hrecorded⟩ := tallies_ofOutcomes _ houtcomes
  refine ⟨_, _, accounts_of_tallies ?_ hcounted hrecorded⟩
  rw [hsoups, List.length_map, List.length_range]

/--
**A report accounts for every soup.**  There is a report on a list of outcomes exactly if the
first soup of each agar can be written.  In every report the counters, the unresolved soups and
the still ones add up to the number of soups, each counter is the number of soups of its period,
and the records are of one soup for each agar, the first that shows it, in the order of the
soups.  If each outcome is that of a soup that was searched, under whatever rule, on whatever
surface and up to whatever generation, then each signature has as many populations as its period
has generations.
-/
theorem accounts_for_every_soup (fingerprint : List (Coord × State) → κ) :
    ((∃ r, ofOutcomes ruleName window outcomes.length seed outcomes = .ok r) ↔
      FirstsWritable ruleName window outcomes) ∧
    ∀ r, ofOutcomes ruleName window outcomes.length seed outcomes = .ok r →
      Accounts outcomes r ∧
        ((∀ outcome ∈ outcomes, ∃ rule surface soup cap,
            outcome = ofSoupBy fingerprint rule surface soup cap) →
          ∀ record ∈ r.records, record.signature.length = record.period) := by
  refine ⟨exists_ofOutcomes_iff outcomes, fun r h => ?_⟩
  obtain ⟨hsoups, hcounted, hrecorded⟩ := tallies_ofOutcomes outcomes h
  have haccounts := accounts_of_tallies hsoups hcounted hrecorded
  exact ⟨haccounts, haccounts.length_signature⟩

end

/-- Of three soups on a torus the first and the last end in one agar, entered at different
places, and the one between them is given no time. -/
theorem accounts_for_every_soup_of_pulsing_cells :
    let r : Rule := {
      name := "Pulse", nStates := 5, neighbourhoods := [.ofOffsets [⟨0, -1⟩]]
      stateWeights := [[0, 1, 1, 1, 1]], space := .custom, conditions := .weighted
      transition := .function fun _ neighbours current =>
        if current = 0 then if neighbours = [1] then 3 else 0
        else if current = 1 then 2 else if current = 2 then 1 else 0
      palette := none, neighbourhoods_ne := by simp }
    let torus := Surface.box .torus 2 1
    let soup := Grid.ofList [(⟨0, 0⟩, 1), (⟨0, 1⟩, 4)]
    let soup' := Grid.ofList [(⟨0, 0⟩, 2), (⟨0, 1⟩, 3)]
    let outcomes :=
      [ofSoupBy id r torus soup 9, ofSoupBy id r torus soup 0, ofSoupBy id r torus soup' 9]
    FirstsWritable r.name ⟨0, 0, 2, 1⟩ outcomes ∧
      ∃ report, ofOutcomes r.name ⟨0, 0, 2, 1⟩ outcomes.length 0 outcomes = .ok report ∧
        report.counts.toList = [(2, 2)] ∧ report.unresolved = 1 ∧
        report.records.map (fun record => (record.soupIndex, record.key)) = [(0, 2, [1, 2])] ∧
        Accounts outcomes report ∧
        ∀ record ∈ report.records, record.signature.length = record.period := by
  intro r torus soup soup' outcomes
  let m := Simulation.start r torus soup 0
  let m' := Simulation.start r torus soup' 0
  have hall : (m.stepN 4).grid.toList = (m.stepN 2).grid.toList ∧
      (∀ t < 4, ∀ u < 4, (m.stepN t).grid.toList = (m.stepN u).grid.toList → t = u) ∧
      [1, 2] = (List.range 2).map (fun t => (m.stepN (2 + t)).population) ∧
      (m'.stepN 2).grid.toList = (m'.stepN 0).grid.toList ∧
      (∀ t < 2, ∀ u < 2, (m'.stepN t).grid.toList = (m'.stepN u).grid.toList → t = u) ∧
      [2, 1] = (List.range 2).map (fun t => (m'.stepN (0 + t)).population) ∧
      ((ofOutcomes r.name ⟨0, 0, 2, 1⟩ 3 0
        [.periodic 2 2 [1, 2] (m.stepN 4).grid (m.stepN 3).grid, .unresolved,
          .periodic 0 2 [2, 1] (m'.stepN 2).grid (m'.stepN 1).grid]).toOption.any fun report =>
        report.counts.toList = [(2, 2)] ∧ report.unresolved = 1 ∧
          report.records.map (fun record => (record.soupIndex, record.key))
            = [(0, 2, [1, 2])]) = true := by
    decide +kernel
  obtain ⟨hback, hdistinct, hpopulations, hback', hdistinct', hpopulations', hreport⟩ := hall
  clear_value soup soup' r
  have h : ofSoupBy id r torus soup 9 = .periodic 2 2 [1, 2] (m.stepN 4).grid (m.stepN 3).grid :=
    ofSoupBy_eq_periodic_iff.mpr ⟨by simp, by simp, hback, fun t ht u hu => hdistinct t ht u hu,
      hpopulations, rfl, rfl⟩
  have hnone : ofSoupBy id r torus soup 0 = .unresolved := by
    simp [ofSoupBy, search]
  have h' : ofSoupBy id r torus soup' 9 = .periodic 0 2 [2, 1] (m'.stepN 2).grid (m'.stepN 1).grid :=
    ofSoupBy_eq_periodic_iff.mpr ⟨by simp, by simp, hback', fun t ht u hu => hdistinct' t ht u hu,
      hpopulations', rfl, rfl⟩
  rw [← h, ← h', ← hnone] at hreport
  obtain ⟨report, hreport, hshape⟩ := exists_ok_of_any hreport
  obtain ⟨hcounts, hunresolved, hrecords⟩ := of_decide_eq_true hshape
  have hsearched : ∀ outcome ∈ outcomes, ∃ rule surface soup cap,
      outcome = ofSoupBy id rule surface soup cap := by
    intro outcome houtcome
    simp only [outcomes, List.mem_cons, List.not_mem_nil, or_false] at houtcome
    rcases houtcome with rfl | rfl | rfl <;> exact ⟨_, _, _, _, rfl⟩
  obtain ⟨hwritable, haccounts⟩ :=
    @accounts_for_every_soup r.name ⟨0, 0, 2, 1⟩ 0 outcomes (List (Coord × State)) _ _ _ id
  obtain ⟨hreported, hsignatures⟩ := haccounts report hreport
  exact ⟨hwritable.mp ⟨report, hreport⟩, report, hreport, hcounts, hunresolved, hrecords,
    hreported, hsignatures hsearched⟩

end AgarReport

end Cellular
