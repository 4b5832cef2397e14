/-
The families of eight cells read the clauses that a text spells.

A group of these families is a clause whose names are single letters, and it stands for what the
clause denotes (`Ring.mem_expand`).

The reader keeps the group that it is in, and adds it to the set at the next digit or at the end.
Going over a text, the groups that are closed and the open one spell what has been read
(`Ring.exists_groups`).  The other way round, the text of groups is read as the groups
(`Ring.exists_read`), and every spelling of a clause is the text of its group.
-/
import Mathlib.Data.Set.List
import Cellular.Proofs.Isotropic.Alphabet
import Cellular.Proofs.Isotropic.Clauses
import Cellular.Proofs.Isotropic.Writing

namespace Cellular

namespace Ring

variable {f : Family} {g : Group}

/-- The clause that a group is. -/
def Group.clause (g : Group) : Clause := ⟨g.count, g.negated, g.letters.map fun c => [c]⟩

theorem flatten_names (g : Group) : g.clause.names.flatten = g.letters := by
  unfold Group.clause
  induction g.letters with
  | nil => rfl
  | cons c rest ih => exact congrArg (c :: ·) ih

theorem names_iff (hf : f ≠ .vonNeumann) {count : Nat} {letter : Char} {c : Configuration} :
    f.Names count [letter] c ↔ f.letter? count letter = some c := by
  unfold Family.Names
  rw [if_neg hf]
  simp

/-- A letter stands for the images of the configuration that it names. -/
theorem mem_named (hf : f ≠ .vonNeumann) {count : Nat} {letter : Char} {cs : List Configuration}
    (h : named f count letter = .ok cs) (c : Configuration) :
    c ∈ cs ↔ ∃ d, f.Names count [letter] d ∧ f.Image d c := by
  unfold named at h
  split at h
  · rename_i d hd
    injection h with h
    subst h
    have hname : f.Names count [letter] d := (names_iff hf).mpr hd
    rw [Family.mem_images_of_names hname]
    constructor
    · exact fun himage => ⟨d, hname, himage⟩
    · rintro ⟨d', hd', himage⟩
      rwa [Option.some.inj (hd.symm.trans ((names_iff hf).mp hd'))]
  · cases h

/-- A group stands for what its clause denotes. -/
theorem mem_expand (hf : f ≠ .vonNeumann) {cs : List Configuration} (h : g.expand f = .ok cs)
    (c : Configuration) : c ∈ cs ↔ g.clause.Denotes f c := by
  unfold Group.expand at h
  split at h
  · rename_i hnil
    injection h with h
    subst h
    have hnames : g.clause.names = [] := by
      unfold Group.clause
      rw [List.isEmpty_iff.mp hnil]
      rfl
    exact (Clause.denotes_of_no_names hnames).symm
  · rename_i hne
    obtain ⟨all, hall, h⟩ := ok_of_bind h
    injection h with h
    subst h
    have hnames : g.clause.names ≠ [] := by
      intro hnil
      exact hne (List.isEmpty_iff.mpr (List.map_eq_nil_iff.mp hnil))
    exact Clause.mem_chosen hnames fun c =>
      Clause.mem_flatten hall rfl fun letter cs hcs c => mem_named hf hcs c

/-- A group can be expanded if the family has its names. -/
theorem exists_expand_iff (hf : f ≠ .vonNeumann) :
    (∃ cs, g.expand f = .ok cs) ↔ ∀ name ∈ g.clause.names, ∃ c, f.Names g.count name c := by
  have hnamed : ∀ letter, (∃ cs, named f g.count letter = .ok cs) ↔
      ∃ c, f.Names g.count [letter] c := by
    intro letter
    simp only [names_iff hf]
    unfold named
    cases f.letter? g.count letter with
    | none => simp
    | some c => simp
  have hall : (∀ name ∈ g.clause.names, ∃ c, f.Names g.count name c) ↔
      ∀ letter ∈ g.letters, ∃ cs, named f g.count letter = .ok cs := by
    unfold Group.clause
    rw [List.forall_mem_map]
    simp only [hnamed]
  rw [hall]
  unfold Group.expand
  constructor
  · rintro ⟨cs, hcs⟩ letter hletter
    rw [if_neg (by simpa using List.ne_nil_of_mem hletter)] at hcs
    obtain ⟨all, hmapM, -⟩ := ok_of_bind hcs
    obtain ⟨cs, -, hread⟩ := (ok_of_mapM hmapM).1 letter hletter
    exact ⟨cs, hread⟩
  · intro hread
    split
    · exact ⟨_, rfl⟩
    · obtain ⟨all, hmapM⟩ := exists_ok_mapM hread
      rw [hmapM]
      exact ⟨_, rfl⟩

/-- The group is one that is read. -/
def Group.Readable (f : Family) (g : Group) : Prop := g.Written f ∧ ∃ cs, g.expand f = .ok cs

theorem toString_digitValue {d : Char} (hd : d.isDigit = true) :
    (toString (Text.digitValue d)).toList = [d] := by
  obtain ⟨e, he, hdigit, hvalue⟩ := toString_eq_digit (Text.digitValue_lt hd)
  have hrange := Text.isDigit_range hd
  have hrange' := Text.isDigit_range hdigit
  have hsame : e.toNat - 48 = d.toNat - 48 := hvalue
  rw [he, Char.toNat_inj.mp (show e.toNat = d.toNat by omega)]

/-- The letters of a table are lower case, so a clause of the family is a group. -/
theorem exists_group (hf : f ≠ .vonNeumann) {k : Clause} {part : List Char} (hk : k.Legal f)
    (hpart : k.SpelledAs f part) :
    ∃ g : Group, g.clause = k ∧ g.text = part ∧ g.Readable f := by
  obtain ⟨count, negated, names⟩ := k
  obtain ⟨hcount, hnames⟩ := hk
  obtain ⟨digits, -, hdigits, hone, hvalue, rfl⟩ := hpart
  have hletters : names ∈ Set.range (List.map fun c : Char => [c]) := by
    rw [Set.range_list_map]
    intro name hname
    obtain ⟨c, hc⟩ := hnames name hname
    unfold Family.Names at hc
    rw [if_neg hf] at hc
    obtain ⟨letter, rfl, -⟩ := hc
    exact ⟨letter, rfl⟩
  obtain ⟨letters, rfl⟩ := hletters
  obtain ⟨d, rfl⟩ := List.length_eq_one_iff.mp (hone hf)
  have hd := hdigits d (List.mem_singleton_self d)
  have hdvalue : Text.digitValue d = count := (Nat.zero_add _).symm.trans hvalue
  have hexpand := (exists_expand_iff (g := ⟨count, negated, letters⟩) hf).mpr hnames
  refine ⟨⟨count, negated, letters⟩, rfl, ?_, ⟨hcount, ?_, ?_⟩, hexpand⟩
  · unfold Group.text
    rw [← hdvalue, toString_digitValue hd, ← flatten_names ⟨_, negated, letters⟩]
    rfl
  · exact hdvalue ▸ Text.digitValue_lt hd
  · intro c hc
    obtain ⟨base, hbase⟩ := hnames [c] (List.mem_map.mpr ⟨c, hc, rfl⟩)
    obtain ⟨e, he, rfl⟩ :=
      List.mem_map.mp (Family.mem_letters_of_letter? ((names_iff hf).mp hbase))
    exact (Family.letter_of_mem he).2.1

theorem legal_clause (hf : f ≠ .vonNeumann) (hg : g.Readable f) :
    g.clause.Legal f ∧ g.clause.SpelledAs f g.text := by
  obtain ⟨hwritten, hexpand⟩ := hg
  refine ⟨⟨hwritten.count, (exists_expand_iff hf).mp hexpand⟩, ?_⟩
  obtain ⟨d, hd, hdigit, hvalue⟩ := toString_eq_digit hwritten.digit
  refine ⟨[d], List.cons_ne_nil d [], fun c hc => ?_, fun _ => rfl,
    (Nat.zero_add _).trans hvalue, ?_⟩
  · rwa [List.mem_singleton.mp hc]
  · rw [flatten_names]
    unfold Group.text
    rw [hd]
    rfl

/-! ### Reading the groups -/

theorem condense_of_skip {c : Char} (hc : c = ',' ∨ Text.isBlank c = true) (cs : List Char) :
    condense (c :: cs) = condense cs := by
  refine List.filter_cons_of_neg ?_
  rcases hc with rfl | hblank
  · simp
  · simp [hblank]

theorem condense_of_not_skip {c : Char} (hc : ¬(c = ',' ∨ Text.isBlank c = true))
    (cs : List Char) : condense (c :: cs) = c :: condense cs := by
  refine List.filter_cons_of_pos ?_
  simpa using hc

theorem read_condense (cs : List Char) (g : Option Group) (acc : ConfigurationSet) :
    read f (condense cs) g acc = read f cs g acc := by
  refine read_filter (fun c hc => ?_) cs g acc
  by_contra hskip
  simp_all

/-- The characters of the group that is open. -/
def openText (g : Option Group) : List Char := g.elim [] Group.text

/-- A group that is closed can be expanded. -/
theorem readable_of_close {g : Option Group} {acc set : ConfigurationSet}
    (h : close f g acc = .ok set) (hg : ∀ k ∈ g, k.Written f) :
    openText g = g.toList.flatMap Group.text ∧ ∀ k ∈ g.toList, k.Readable f := by
  cases g with
  | none => exact ⟨rfl, fun k hk => absurd hk List.not_mem_nil⟩
  | some g =>
      obtain ⟨l, hl, -⟩ := ok_of_bind h
      refine ⟨(List.append_nil _).symm, fun k hk => ?_⟩
      rw [List.mem_singleton.mp hk]
      exact ⟨hg g rfl, l, hl⟩

/-- A digit is the text of the group that it opens. -/
theorem openText_digit {d : Char} (hd : d.isDigit = true) :
    openText (some ⟨Text.digitValue d, false, []⟩) = [d] := by
  show (toString (Text.digitValue d)).toList ++ [] ++ [] = [d]
  rw [List.append_nil, List.append_nil, toString_digitValue hd]

theorem openText_dash (count : Nat) :
    openText (some ⟨count, true, []⟩) = openText (some ⟨count, false, []⟩) ++ ['-'] := by
  unfold openText Group.text
  simp

theorem openText_letter (g : Group) (c : Char) :
    openText (some { g with letters := g.letters ++ [c] }) = openText (some g) ++ [c] := by
  unfold openText Group.text
  simp

/-- The open group and the groups that are read after it spell the text. -/
theorem exists_groups (cs : List Char) :
    ∀ {g : Option Group} {acc set : ConfigurationSet}, read f cs g acc = .ok set →
      (∀ k ∈ g, k.Written f) →
      ∃ gs : List Group, openText g ++ condense cs = gs.flatMap Group.text ∧
        ∀ k ∈ gs, k.Readable f := by
  induction cs with
  | nil =>
      intro g acc set h hg
      obtain ⟨htext, hread⟩ := readable_of_close h hg
      exact ⟨g.toList, (List.append_nil _).trans htext, hread⟩
  | cons c rest ih =>
      intro g acc set h hg
      unfold read at h
      by_cases hskip : c = ',' ∨ Text.isBlank c = true
      · rw [if_pos hskip] at h
        rw [condense_of_skip hskip]
        exact ih h hg
      rw [if_neg hskip] at h
      rw [condense_of_not_skip hskip]
      by_cases hdigit : c.isDigit = true
      · -- A digit closes the open group and opens the next one.
        rw [if_pos hdigit] at h
        simp only at h
        split at h
        · cases h
        · rename_i hcount
          obtain ⟨closed, hclosed, h⟩ := ok_of_bind h
          obtain ⟨htext, hread⟩ := readable_of_close hclosed hg
          have hwritten : (⟨Text.digitValue c, false, []⟩ : Group).Written f :=
            ⟨Nat.le_of_not_lt hcount, Text.digitValue_lt hdigit,
              fun d hd => absurd hd List.not_mem_nil⟩
          obtain ⟨gs, hgs, hall⟩ := ih h fun k hk => Option.some.inj hk ▸ hwritten
          refine ⟨g.toList ++ gs, ?_, fun k hk => (List.mem_append.mp hk).elim (hread k) (hall k)⟩
          rw [List.flatMap_append, ← htext, ← hgs, openText_digit hdigit]
          rfl
      rw [if_neg hdigit] at h
      by_cases hdash : c = '-'
      · rw [if_pos hdash] at h
        split at h
        · rename_i count
          have hwritten := hg _ rfl
          obtain ⟨gs, hgs, hall⟩ := ih h fun k hk =>
            Option.some.inj hk ▸ ⟨hwritten.count, hwritten.digit, hwritten.letters⟩
          refine ⟨gs, ?_, hall⟩
          rw [← hgs, openText_dash, hdash, List.append_assoc]
          rfl
        · cases h
      rw [if_neg hdash] at h
      by_cases hlower : c.isLower = true
      · rw [if_pos hlower] at h
        split at h
        · rename_i g
          have hwritten := hg g rfl
          have hletters : ∀ d ∈ g.letters ++ [c], d.isLower = true := by
            intro d hd
            rcases List.mem_append.mp hd with hold | hnew
            · exact hwritten.letters d hold
            · rwa [List.mem_singleton.mp hnew]
          obtain ⟨gs, hgs, hall⟩ := ih h fun k hk =>
            Option.some.inj hk ▸ ⟨hwritten.count, hwritten.digit, hletters⟩
          refine ⟨gs, ?_, hall⟩
          rw [← hgs, openText_letter, List.append_assoc]
          rfl
        · cases h
      · rw [if_neg hlower] at h
        cases h

/-- A text that is read spells clauses of the family. -/
theorem exists_spells (hf : f ≠ .vonNeumann) {cs : List Char} {set : ConfigurationSet}
    (h : read f cs none ∅ = .ok set) : ∃ ks, f.Spells cs ks := by
  obtain ⟨gs, hgs, hall⟩ := exists_groups cs h fun h hh => absurd hh (Option.not_mem_none h)
  refine ⟨gs.map Group.clause, fun k hk => ?_, gs.map Group.text, ?_, ?_⟩
  · obtain ⟨g, hg, rfl⟩ := List.mem_map.mp hk
    exact (legal_clause hf (hall g hg)).1
  · rw [List.forall₂_map_left_iff, List.forall₂_map_right_iff]
    exact List.forall₂_same.mpr fun g hg => (legal_clause hf (hall g hg)).2
  · unfold Family.Joins
    rw [if_neg hf, ← List.flatMap_def, ← hgs]
    rfl

/-- Clauses of the family are groups, and the parts that spell them are the texts of the groups. -/
theorem groups_of_spelled (hf : f ≠ .vonNeumann) {ks : List Clause} {parts : List (List Char)}
    (hparts : List.Forall₂ (Clause.SpelledAs f) ks parts) (hlegal : ∀ k ∈ ks, k.Legal f) :
    ∃ gs : List Group, gs.map Group.clause = ks ∧ gs.map Group.text = parts ∧
      ∀ g ∈ gs, g.Readable f := by
  induction hparts with
  | nil => exact ⟨[], rfl, rfl, fun g hg => absurd hg List.not_mem_nil⟩
  | cons hpart _ ih =>
      obtain ⟨g, rfl, rfl, hg⟩ := exists_group hf (hlegal _ List.mem_cons_self) hpart
      obtain ⟨gs, rfl, rfl, hall⟩ := ih fun k hk => hlegal k (List.mem_cons_of_mem _ hk)
      exact ⟨g :: gs, rfl, rfl, List.forall_mem_cons.mpr ⟨hg, hall⟩⟩

/-- **Clauses that are spelled are read as what they denote.** -/
theorem read_spelled (hf : f ≠ .vonNeumann) {cs : List Char} {ks : List Clause}
    (h : f.Spells cs ks) :
    ∃ set, read f cs none ∅ = .ok set ∧ ∀ c, c ∈ set ↔ ∃ k ∈ ks, k.Denotes f c := by
  obtain ⟨hlegal, parts, hparts, hjoins⟩ := h
  unfold Family.Joins at hjoins
  rw [if_neg hf] at hjoins
  obtain ⟨gs, rfl, rfl, hall⟩ := groups_of_spelled hf hparts hlegal
  obtain ⟨set, hset, hmem⟩ := exists_read gs hall none ∅ fun g hg => absurd hg (Option.not_mem_none g)
  refine ⟨set, ?_, fun c => ?_⟩
  · rw [← read_condense, hjoins, ← List.flatMap_def, hset]
  · rw [hmem]
    have hexpand : ∀ g ∈ gs, g.Holds f c ↔ g.clause.Denotes f c := by
      intro g hg
      obtain ⟨-, l, hl⟩ := hall g hg
      rw [← mem_expand hf hl]
      unfold Group.Holds
      simp [hl]
    constructor
    · rintro ((hempty | ⟨g, hg, -⟩) | ⟨g, hg, hc⟩)
      · exact absurd hempty Std.ExtTreeSet.not_mem_empty
      · exact absurd hg (Option.not_mem_none g)
      · exact ⟨g.clause, List.mem_map_of_mem hg, (hexpand g hg).mp hc⟩
    · rintro ⟨k, hk, hc⟩
      obtain ⟨g, hg, rfl⟩ := List.mem_map.mp hk
      exact .inr ⟨g, hg, (hexpand g hg).mpr hc⟩

end Ring

end Cellular
