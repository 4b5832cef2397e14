/-
Run lengths and the masks they stand for.

The states of a Generations rule that survive like state 1 are given by run lengths: so many
states that are active, so many that are not, and so on from state 1.  A run may be empty, and
the next one is then of the same kind as the one before.  Reading accepts exactly the texts
whose numbers cover all the states but the background (`activity_eq_ok_iff`), and whether a state
is active is told by the place of the run that it is in.  Every mask that leaves the background
inactive can be written in this way: its runs are the groups of equal entries, with an empty run
in front if state 1 is inactive.
-/
import Mathlib
import Cellular.Proofs.Chain
import Cellular.Proofs.Text
import Cellular.Rule.Rulestring

namespace Cellular

namespace Rulestring

variable {nStates : Nat} {cs : List Char} {active : List Bool} {runs : List Nat}

/-! ### Runs -/

/-- Is state `s` in the run at place `i`?  The runs follow one another from state 1 on. -/
def InRun (runs : List Nat) (i s : Nat) : Prop :=
  1 + (runs.take i).sum ≤ s ∧ s < 1 + (runs.take (i + 1)).sum

theorem length_mask (runs : List Nat) : ∀ on : Bool, (mask on runs).length = runs.sum := by
  induction runs with
  | nil => intro on; rfl
  | cons n rest ih =>
      intro on
      rw [mask, List.length_append, List.length_replicate, ih, List.sum_cons]

/-- The entries of a run are on or off by its place. -/
theorem getElem?_mask (runs : List Nat) :
    ∀ {on : Bool} {i p : Nat}, (runs.take i).sum ≤ p → p < (runs.take (i + 1)).sum →
      (mask on runs)[p]? = some (if Even i then on else !on) := by
  induction runs with
  | nil => intro on i p _ hp; simp at hp
  | cons n rest ih =>
      intro on i p hle hlt
      rw [List.take_succ_cons, List.sum_cons] at hlt
      rw [mask]
      cases i with
      | zero =>
          have hp : p < n := by simpa using hlt
          rw [List.getElem?_append_left (by simpa using hp), List.getElem?_replicate, if_pos hp]
          rfl
      | succ i =>
          rw [List.take_succ_cons, List.sum_cons] at hle
          rw [List.getElem?_append_right (by simp; omega), List.length_replicate,
            ih (i := i) (by omega) (by omega)]
          by_cases heven : Even i <;> simp [Nat.even_add_one, heven]

/-- Every place of a mask is in one run only. -/
theorem existsUnique_run (runs : List Nat) :
    ∀ {p : Nat}, p < runs.sum →
      ∃! i, (runs.take i).sum ≤ p ∧ p < (runs.take (i + 1)).sum := by
  induction runs with
  | nil => intro p hp; simp at hp
  | cons n rest ih =>
      intro p hp
      rw [List.sum_cons] at hp
      by_cases hfirst : p < n
      · refine ⟨0, by simpa using hfirst, fun i hi => ?_⟩
        cases i with
        | zero => rfl
        | succ i =>
            obtain ⟨hle, -⟩ := hi
            rw [List.take_succ_cons, List.sum_cons] at hle
            omega
      · obtain ⟨i, ⟨hle, hlt⟩, hunique⟩ := ih (p := p - n) (by omega)
        refine ⟨i + 1, ?_, fun j hj => ?_⟩
        · simp only [List.take_succ_cons, List.sum_cons]
          omega
        · obtain ⟨hle', hlt'⟩ := hj
          cases j with
          | zero =>
              simp only [Nat.zero_add, List.take_succ_cons, List.sum_cons, List.take_zero,
                List.sum_nil] at hlt'
              omega
          | succ j =>
              simp only [List.take_succ_cons, List.sum_cons] at hle' hlt'
              rw [hunique j ⟨by omega, by omega⟩]

/-! ### Reading -/

/-- Does the text write these run lengths?  There is a dash between any two of them, and there may
be blanks around each. -/
def WritesRuns (cs : List Char) (runs : List Nat) : Prop :=
  List.Forall₂ Text.Unsigned ((Text.pieces '-' cs).map Text.trim) runs

theorem WritesRuns.unique {runs' : List Nat} (h : WritesRuns cs runs) (h' : WritesRuns cs runs') :
    runs = runs' :=
  List.right_unique_forall₂' (R := Text.Unsigned) (fun _ _ _ => Text.Unsigned.unique) h h'

theorem runLength_eq_ok_iff {n : Nat} :
    runLength cs = .ok n ↔ Text.Unsigned cs n ∧ n < 2 ^ 64 := by
  rw [← Text.unsigned?_eq_some_iff]
  unfold runLength
  cases Text.unsigned? 64 cs <;> simp

/-- No run is longer than all of them together. -/
theorem reads_of_writes {pieces : List (List Char)}
    (h : List.Forall₂ Text.Unsigned pieces runs) (hsum : runs.sum < 2 ^ 64) :
    List.Forall₂ (fun piece n => runLength piece = .ok n) pieces runs := by
  induction h with
  | nil => exact .nil
  | cons hpiece _ ih =>
      rw [List.sum_cons] at hsum
      exact .cons (runLength_eq_ok_iff.mpr ⟨hpiece, by omega⟩) (ih (by omega))

theorem foldl_covered (runs : List Nat) (n : Nat) : runs.foldl (· + ·) n = n + runs.sum :=
  List.foldl_eq_apply_foldr

/-- **Reading accepts exactly the run lengths that cover all the states.** -/
theorem activity_eq_ok_iff (hn : nStates < 2 ^ 64) :
    activity nStates cs = .ok active ↔
      ∃ runs, WritesRuns cs runs ∧ 1 + runs.sum = nStates ∧ active = false :: mask true runs := by
  constructor
  · intro h
    obtain ⟨runs, hruns, h⟩ := ok_of_bind h
    rw [mapM_eq_ok_iff] at hruns
    dsimp only at h
    rw [foldl_covered] at h
    split at h
    · rename_i htotal
      injection h with h
      exact ⟨runs, hruns.imp fun _ _ hrun => (runLength_eq_ok_iff.mp hrun).1, htotal, h.symm⟩
    · simp at h
  · rintro ⟨runs, hwrites, htotal, rfl⟩
    have hread : ((Text.pieces '-' cs).map Text.trim).mapM runLength = .ok runs :=
      mapM_eq_ok_iff.mpr (reads_of_writes hwrites (by omega))
    unfold activity
    rw [hread]
    show (if runs.foldl (· + ·) 1 = nStates then _ else _) = _
    rw [foldl_covered, if_pos htotal]
    rfl

/-! ### Writing -/

/-- Groups of equal entries that are on and off in turn. -/
inductive Alternating : Bool → List (List Bool) → Prop
  | nil {on : Bool} : Alternating on []
  | cons {on : Bool} {n : Nat} {groups : List (List Bool)} (h : Alternating (!on) groups) :
      Alternating on (List.replicate n on :: groups)

theorem Alternating.mask_lengths {on : Bool} {groups : List (List Bool)}
    (h : Alternating on groups) : mask on (groups.map List.length) = groups.flatten := by
  induction h with
  | nil => rfl
  | cons _ ih =>
      rw [List.map_cons, mask, ih, List.length_replicate, List.flatten_cons]

/-- The lengths of the runs of a mask from state 1 on, with an empty run in front if that state is
inactive. -/
def runLengths (active : List Bool) : List Nat :=
  (if active[1]? = some false then [0] else []) ++ (active.tail.splitBy (· == ·)).map List.length

/-- The text of a mask: its run lengths with dashes between them. -/
def runText (active : List Bool) : List Char :=
  ['-'].intercalate ((runLengths active).map fun n => (toString n).toList)

theorem alternating_of_chain {groups : List (List Bool)} :
    ∀ {on : Bool}, (∀ g ∈ groups.head?, g.head? = some on) →
      (∀ g ∈ groups, g.IsChain fun a b => (a == b) = true) →
      groups.IsChain
        (fun g h => ∃ (hg : g ≠ []) (hh : h ≠ []), (g.getLast hg == h.head hh) = false) →
      Alternating on groups := by
  induction groups with
  | nil => intro on _ _ _; exact .nil
  | cons g rest ih =>
      intro on hhead hequal hdiffer
      have hg : g = List.replicate g.length on :=
        List.isChain_eq_iff_eq_replicate.mp
          ((hequal g List.mem_cons_self).imp fun _ _ h => eq_of_beq h) on (hhead g rfl)
      have hnext : ∀ h ∈ rest.head?, h.head? = some !on := by
        intro h hh
        cases rest with
        | nil => simp at hh
        | cons h' rest =>
            obtain rfl := Option.some.inj hh
            obtain ⟨⟨hne, hne', hdiff⟩, -⟩ := List.isChain_cons_cons.mp hdiffer
            have hlast : g.getLast hne = on :=
              (List.eq_replicate_iff.mp hg).2 _ (List.getLast_mem hne)
            rw [hlast, beq_eq_false_iff_ne] at hdiff
            rw [List.head?_eq_some_head hne', Bool.eq_not_of_ne hdiff.symm]
      rw [hg]
      exact .cons (ih hnext (fun h hh => hequal h (List.mem_cons_of_mem g hh)) hdiffer.tail)

/-- The groups of equal entries of a mask are its runs. -/
theorem alternating_splitBy (on : Bool) (rest : List Bool) :
    Alternating on ((on :: rest).splitBy (· == ·)) := by
  refine alternating_of_chain ?_ (fun g hg => List.isChain_of_mem_splitBy hg)
    (List.isChain_getLast_head_splitBy _ _)
  have hwhole := List.flatten_splitBy (· == ·) (on :: rest)
  cases hgroups : (on :: rest).splitBy (· == ·) with
  | nil => simp
  | cons g groups =>
      have hne : g ≠ [] := List.ne_nil_of_mem_splitBy (hgroups ▸ List.mem_cons_self)
      rw [hgroups, List.flatten_cons] at hwhole
      intro h hh
      obtain rfl := Option.some.inj hh
      rw [← List.head?_append_of_ne_nil _ hne, hwhole, List.head?_cons]

/-- **The run lengths of a mask give the mask back.** -/
theorem mask_runLengths (on : Bool) (rest : List Bool) :
    mask true (runLengths (false :: on :: rest)) = on :: rest := by
  have hback : mask on (((on :: rest).splitBy (· == ·)).map List.length) = on :: rest := by
    rw [(alternating_splitBy on rest).mask_lengths, List.flatten_splitBy]
  cases on with
  | true => exact hback
  | false => exact hback

/-- Numbers that are joined by dashes are cut apart there and read back. -/
theorem writesRuns_intercalate {runs : List Nat} (hne : runs ≠ []) :
    WritesRuns (['-'].intercalate (runs.map fun n => (toString n).toList)) runs := by
  have hcut : ∀ piece ∈ runs.map fun n => (toString n).toList, '-' ∉ piece := by
    intro piece hpiece
    obtain ⟨n, -, rfl⟩ := List.mem_map.mp hpiece
    exact Text.not_mem_toString (by decide)
  have htrim : ∀ n : Nat, Text.trim (toString n).toList = (toString n).toList := fun n =>
    Text.trim_of_not_blank fun _ => Text.isBlank_of_mem_toString
  unfold WritesRuns
  rw [Text.pieces_intercalate (by simpa using hne) hcut, List.map_map, List.forall₂_map_left_iff]
  refine List.forall₂_same.mpr fun n _ => ?_
  rw [Function.comp_apply, htrim]
  exact Text.unsigned_toString n

theorem runLengths_ne_nil (on : Bool) (rest : List Bool) :
    runLengths (false :: on :: rest) ≠ [] := by
  intro h
  have hmask := mask_runLengths on rest
  rw [h] at hmask
  exact List.cons_ne_nil _ _ hmask.symm

/-- A mask is read back from its text. -/
theorem activity_runText {on : Bool} {rest : List Bool}
    (hn : (false :: on :: rest).length < 2 ^ 64) :
    activity (false :: on :: rest).length (runText (false :: on :: rest))
      = .ok (false :: on :: rest) := by
  refine (activity_eq_ok_iff hn).mpr
    ⟨_, writesRuns_intercalate (runLengths_ne_nil on rest), ?_, by rw [mask_runLengths]⟩
  rw [← length_mask _ true, mask_runLengths, List.length_cons (a := false), Nat.add_comm]

/--
**Run lengths are a code for the masks that leave the background inactive.**  A text is read for a
number of states exactly if the pieces between its dashes, trimmed, are numbers without a sign or
with a plus sign, and 1 and their sum make the number of states.  The mask then has an entry for
every state.  The background is inactive; each other state is in one run only, and is active
exactly if the place of that run, counted from 0, is even.  Every mask of two states or more that
leaves the background inactive is read from its run lengths, joined by dashes, with a nought in
front if state 1 is inactive.
-/
theorem activity_exact (hn : nStates < 2 ^ 64) :
    (∀ cs, (∃ active, activity nStates cs = .ok active) ↔
      ∃ runs, WritesRuns cs runs ∧ 1 + runs.sum = nStates) ∧
    (∀ cs active runs, activity nStates cs = .ok active → WritesRuns cs runs →
      active.length = nStates ∧ active[0]? = some false ∧
        (∀ s, 1 ≤ s → s < nStates → ∃! i, InRun runs i s) ∧
        ∀ i s, InRun runs i s → active[s]? = some (decide (Even i))) ∧
    ∀ active : List Bool, active.length = nStates → 2 ≤ nStates → active[0]? = some false →
      activity nStates (runText active) = .ok active := by
  refine ⟨fun cs => ?_, fun cs active runs hread hwrites => ?_, fun active hlen hmany hzero => ?_⟩
  · constructor
    · rintro ⟨active, h⟩
      obtain ⟨runs, hwrites, htotal, -⟩ := (activity_eq_ok_iff hn).mp h
      exact ⟨runs, hwrites, htotal⟩
    · rintro ⟨runs, hwrites, htotal⟩
      exact ⟨_, (activity_eq_ok_iff hn).mpr ⟨runs, hwrites, htotal, rfl⟩⟩
  · obtain ⟨runs', hwrites', htotal, rfl⟩ := (activity_eq_ok_iff hn).mp hread
    obtain rfl := hwrites.unique hwrites'
    refine ⟨?_, rfl, fun s hs hlt => ?_, fun i s hrun => ?_⟩
    · rw [List.length_cons, length_mask, Nat.add_comm]
      exact htotal
    · obtain ⟨i, ⟨hle, hlt⟩, hunique⟩ := existsUnique_run runs (p := s - 1) (by omega)
      refine ⟨i, ⟨by omega, by omega⟩, fun j hj => hunique j ?_⟩
      obtain ⟨hle', hlt'⟩ := hj
      exact ⟨by omega, by omega⟩
    · obtain ⟨hle, hlt⟩ := hrun
      obtain ⟨p, rfl⟩ := Nat.exists_eq_add_of_le' (Nat.le_of_add_right_le hle)
      rw [List.getElem?_cons_succ, getElem?_mask runs (i := i) (by omega) (by omega)]
      by_cases heven : Even i <;> simp [heven]
  · obtain ⟨first, on, rest, rfl⟩ : ∃ first on rest, active = first :: on :: rest := by
      cases active with
      | nil => simp at hzero
      | cons first tail =>
          cases tail with
          | nil => simp at hlen; omega
          | cons on rest => exact ⟨first, on, rest, rfl⟩
    obtain rfl : first = false := Option.some.inj hzero
    rw [← hlen] at hn ⊢
    exact activity_runText hn

/-- Blanks, a plus sign and a zero in front, and an empty run that joins its neighbours; and a mask
whose first state after the background is inactive. -/
theorem activity_exact_of_empty_run :
    4 < 2 ^ 64 ∧ activity 4 " 1-0 -+02".toList = .ok [false, true, true, true] ∧
      WritesRuns " 1-0 -+02".toList [1, 0, 2] ∧ InRun [1, 0, 2] 2 3 ∧
      [false, true, true, true][3]? = some (decide (Even 2)) ∧ (∃! i, InRun [1, 0, 2] i 2) ∧
      runText [false, false, true, true] = "0-1-2".toList ∧
      activity 4 (runText [false, false, true, true]) = .ok [false, false, true, true] := by
  obtain ⟨-, hmeans, hwritten⟩ := @activity_exact 4 (by decide)
  have hread : activity 4 " 1-0 -+02".toList = .ok [false, true, true, true] := by decide
  have hwrites : WritesRuns " 1-0 -+02".toList [1, 0, 2] := by
    refine .cons ?_ (.cons ?_ (.cons ?_ .nil))
    · exact @Text.Unsigned.digits ['1'] ⟨by decide, by simp⟩
    · exact @Text.Unsigned.digits ['0'] ⟨by decide, by simp⟩
    · exact @Text.Unsigned.plus ['0', '2'] ⟨by decide, by simp⟩
  have hrun : InRun [1, 0, 2] 2 3 := ⟨by decide, by decide⟩
  obtain ⟨-, -, hone, hactive⟩ := hmeans _ _ _ hread hwrites
  exact ⟨by decide, hread, hwrites, hrun, hactive 2 3 hrun, hone 2 (by decide) (by decide),
    by decide, hwritten _ rfl (by decide) rfl⟩

end Rulestring

end Cellular
