/-
Texts that name another rule space.

Whatever stands above it, a line that names a rule space says nothing else, and neither does a
line with a rulestring; no other line reads what these say.  So if a text names another space in
place of one, and has other phases in place of its own, then its sections are those of the first
text with the same replacements (`toOption_sections_of_recast`), and it has none if the first text
has none.
-/
import Cellular.Proofs.Rule.Layout

namespace Cellular

namespace Layout

/-- The value of a line with the label. -/
def value? (label : SectionLabel) (l : List Char) : Option (List Char) :=
  if label? l = some label then (Text.cutAt ':' (Text.trim l)).map fun p => Text.trim p.2 else none

/-- The rule space that a line names. -/
def space? (l : List Char) : Option RuleSpace := (value? .rulespace l).bind RuleSpace.ofName?

/-- The phases of the rulestring on a line. -/
def phases? (l : List Char) : Option (List (List Char)) :=
  (value? .rulestring l).map fun value => (Text.pieces '|' value).map Text.trim

/-- A line that neither names the old space nor has a rulestring stays the same, but for the blanks
at its ends.  Where the first line names the old space, the second one names the new, and where the
first one has phases, the second one has those that `φ` makes of them. -/
def RecastLine (old new : RuleSpace) (φ : List Char → List Char) (l l' : List Char) : Prop :=
  Text.trim l = Text.trim l' ∧ space? l ≠ some old ∧ phases? l = none ∨
    space? l = some old ∧ space? l' = some new ∨
    phases? l ≠ none ∧ phases? l' = (phases? l).map (List.map φ)

instance (old new : RuleSpace) (φ : List Char → List Char) (l l' : List Char) :
    Decidable (RecastLine old new φ l l') :=
  inferInstanceAs (Decidable (_ ∨ _))

/-- The second text is the first one, recast line by line. -/
def Recast (old new : RuleSpace) (φ : List Char → List Char) (text text' : String) : Prop :=
  List.Forall₂ (RecastLine old new φ) (lines text) (lines text')

instance (old new : RuleSpace) (φ : List Char → List Char) (text text' : String) :
    Decidable (Recast old new φ text text') :=
  inferInstanceAs (Decidable (List.Forall₂ _ _ _))

theorem key?_of_label? {label : SectionLabel} {l : List Char} (h : label? l = some label) :
    ∃ key, key? l = some key ∧ SectionLabel.ofKey? key = some label :=
  Option.bind_eq_some_iff.mp h

theorem label?_of_value? {label : SectionLabel} {l value : List Char}
    (h : value? label l = some value) : label? l = some label := by
  unfold value? at h
  split at h
  · assumption
  · cases h

/-- A line with a label has a value. -/
theorem value?_isSome {label : SectionLabel} {l : List Char} (h : label? l = some label) :
    ∃ value, value? label l = some value := by
  obtain ⟨key, hkey, -⟩ := key?_of_label? h
  obtain ⟨written, value, hcut, -⟩ := Sections.take?_of_key hkey
  exact ⟨Text.trim value, by rw [value?, if_pos h, hcut]; rfl⟩

end Layout

namespace SectionLabel

theorem key_of_rulespace {key : String} (h : ofKey? key = some .rulespace) : key = "rulespace" := by
  unfold ofKey? at h
  split at h <;> first | rfl | cases h

theorem key_of_rulestring {key : String} (h : ofKey? key = some .rulestring) :
    key = "rulestring" := by
  unfold ofKey? at h
  split at h <;> first | rfl | cases h

end SectionLabel

namespace Sections

open Layout

variable {s t : Sections} {old new : RuleSpace} {φ : List Char → List Char}

/-! ### Lines that are replaced -/

/-- A value is taken under its key. -/
theorem take?_of_value? {label : SectionLabel} {l value : List Char}
    (h : value? label l = some value) :
    ∃ written key, SectionLabel.ofKey? (String.ofList key) = some label ∧
      ∀ s : Sections, s.take? l = (s.label 0 written key value).toOption := by
  have hlabel := label?_of_value? h
  obtain ⟨key, hkey, hof⟩ := key?_of_label? hlabel
  obtain ⟨written, value', hcut, rfl, htake⟩ := take?_of_key hkey
  rw [value?, if_pos hlabel, hcut] at h
  obtain rfl := Option.some.inj h
  exact ⟨written, _, hof, htake⟩

/-- A line that is labelled with the rule space names one, or is not understood. -/
theorem take?_rulespace {l : List Char} (h : label? l = some .rulespace) (s : Sections) :
    s.take? l = (space? l).map fun space => { s with space := some space, current := .header } := by
  obtain ⟨value, hvalue⟩ := value?_isSome h
  obtain ⟨written, key, hkey, htake⟩ := take?_of_value? hvalue
  rw [htake, space?, hvalue, label]
  simp only [SectionLabel.key_of_rulespace hkey, RuleSpace.ofName]
  cases hname : RuleSpace.ofName? value <;> simp [hname] <;> rfl

/-- A line that is labelled with the rulestring has its phases. -/
theorem take?_rulestring {l : List Char} {ps : List (List Char)} (h : phases? l = some ps)
    (s : Sections) :
    s.take? l = some { s with rulestrings := some ps, current := .header } := by
  obtain ⟨value, hvalue, rfl⟩ := Option.map_eq_some_iff.mp h
  obtain ⟨written, key, hkey, htake⟩ := take?_of_value? hvalue
  rw [htake, label]
  simp only [SectionLabel.key_of_rulestring hkey]
  rfl

/-! ### Lines that stay -/

/-- The sections with the new space in place of the old one and the phases that `φ` makes. -/
def recast (old new : RuleSpace) (φ : List Char → List Char) (s : Sections) : Sections :=
  { s with
    space := s.space.map fun space => if space = old then new else space
    rulestrings := s.rulestrings.map (List.map φ) }

/-- Any other label says what it says of the other sections. -/
theorem recast_write {e : Entry} (hspace : e ≠ .space old) (hrulestring : e.label ≠ .rulestring)
    (current : OpenSection) (s : Sections) :
    (e.write current s).recast old new φ = e.write current (s.recast old new φ) := by
  cases e with
  | space value =>
      have hne : value ≠ old := fun h => hspace (congrArg Entry.space h)
      simp [Entry.write, recast, hne]
  | rulestrings value => exact absurd rfl hrulestring
  | _ => rfl

/-- A line below a label reads neither the space nor the phases. -/
theorem continuation_recast (s : Sections) (number : Nat) (l : List Char) :
    (s.recast old new φ).continuation number l
      = (s.continuation number l).map (recast old new φ) := by
  unfold continuation
  rw [show (s.recast old new φ).current = s.current from rfl]
  split
  · rfl
  · split
    · rfl
    · cases integers number l <;> rfl
  · split
    · rfl
    · cases Palette.entry l <;> rfl

/-- A line without a label is taken in the same way. -/
theorem take?_recast_below {l : List Char} (hkey : key? l = none) (s : Sections) :
    (s.recast old new φ).take? l = (s.take? l).map (recast old new φ) := by
  cases hskip : isSkipped s.current (Text.trim l) with
  | true => rw [take?_skipped hskip, take?_skipped (s := s.recast old new φ) hskip]; rfl
  | false =>
      cases hcut : Text.cutAt ':' (Text.trim l) with
      | none =>
          unfold take? line
          rw [show (s.recast old new φ).current = s.current from rfl, hskip, hcut,
            if_neg Bool.false_ne_true, if_neg Bool.false_ne_true]
          simp only [continuation_recast]
          cases s.continuation 0 (Text.trim l) <;> rfl
      | some p =>
          -- A colon without a label stands in a comment, which is no row of a neighbourhood.
          have hnone : ∀ s : Sections, isSkipped s.current (Text.trim l) = false →
              s.take? l = none := by
            intro s hskip
            refine Option.eq_none_iff_forall_ne_some.mpr fun t ht => ?_
            rcases take?_below hkey ht with ⟨hskip', -⟩ | ⟨-, hcut', -⟩
            · rw [hskip] at hskip'
              exact Bool.noConfusion hskip'
            · cases hcut.symm.trans hcut'
          rw [hnone s hskip, hnone (s.recast old new φ) hskip]
          rfl

/-- Any other line with a label says something that stays as it is. -/
theorem says_of_take_recast {l : List Char} {key : String} (hkey : key? l = some key)
    (hspace : space? l ≠ some old) (hphases : phases? l = none) (h : s.take? l = some t) :
    ∃ (e : Entry) (current : OpenSection), e ≠ .space old ∧ e.label ≠ .rulestring ∧
      ∀ s : Sections, s.take? l = some (e.write current s) := by
  obtain ⟨e, current, -, hlabel, hwrite⟩ := says_of_take hkey h
  refine ⟨e, current, ?_, ?_, hwrite⟩
  · rintro rfl
    have htake := take?_rulespace hlabel s
    rw [hwrite s] at htake
    obtain ⟨space, hspace', heq⟩ := Option.map_eq_some_iff.mp htake.symm
    have hsame : some space = some old := congrArg Sections.space heq
    exact hspace (hsame ▸ hspace')
  · intro hrulestring
    rw [hrulestring] at hlabel
    obtain ⟨value, hvalue⟩ := value?_isSome hlabel
    rw [phases?, hvalue] at hphases
    cases hphases

/-- **A line that stays is taken in the same way.** -/
theorem take?_recast {l : List Char} (hspace : space? l ≠ some old) (hphases : phases? l = none)
    (s : Sections) :
    (s.recast old new φ).take? l = (s.take? l).map (recast old new φ) := by
  cases hkey : key? l with
  | none => exact take?_recast_below hkey s
  | some key =>
      cases htake : s.take? l with
      | some t =>
          obtain ⟨e, current, hne, hrulestring, hwrite⟩ :=
            says_of_take_recast hkey hspace hphases htake
          obtain rfl := Option.some.inj ((hwrite s).symm.trans htake)
          rw [hwrite, Option.map_some, recast_write hne hrulestring]
      | none =>
          refine Option.eq_none_iff_forall_ne_some.mpr fun t ht => ?_
          obtain ⟨e, current, -, -, hwrite⟩ := says_of_take_recast hkey hspace hphases ht
          cases htake.symm.trans (hwrite s)

/-! ### Texts -/

/-- A line that is recast is taken to the recast sections. -/
theorem take?_of_recastLine {l l' : List Char} (h : RecastLine old new φ l l') (s : Sections) :
    (s.recast old new φ).take? l' = (s.take? l).map (recast old new φ) := by
  rcases h with ⟨htrim, hspace, hphases⟩ | ⟨hold, hnew⟩ | ⟨hphases, hphases'⟩
  · rw [← take?_congr htrim, take?_recast hspace hphases]
  · obtain ⟨value, hvalue, -⟩ := Option.bind_eq_some_iff.mp hold
    obtain ⟨value', hvalue', -⟩ := Option.bind_eq_some_iff.mp hnew
    rw [take?_rulespace (label?_of_value? hvalue), take?_rulespace (label?_of_value? hvalue'),
      hold, hnew]
    simp [recast]
  · obtain ⟨ps, hps⟩ := Option.ne_none_iff_exists'.mp hphases
    rw [hps] at hphases'
    rw [take?_rulestring hps, take?_rulestring hphases']
    rfl

theorem scan?_of_recast {ls ls' : List (List Char)}
    (h : List.Forall₂ (RecastLine old new φ) ls ls') :
    ∀ s : Sections, (s.recast old new φ).scan? ls' = (s.scan? ls).map (recast old new φ) := by
  induction h with
  | nil => exact fun s => rfl
  | cons hl _ ih =>
      intro s
      rw [scan?_cons, scan?_cons, take?_of_recastLine hl]
      cases s.take? _ with
      | none => rfl
      | some t => exact ih t

/-- **The sections of a text that is recast are the sections, recast.** -/
theorem toOption_sections_of_recast {text text' : String} (h : Recast old new φ text text') :
    (ofText text').toOption = (ofText text).toOption.map (recast old new φ) := by
  have hscan : ({} : Sections).scan? (lines text')
      = (({} : Sections).scan? (lines text)).map (recast old new φ) := scan?_of_recast h {}
  rw [toOption_sections, toOption_sections, hscan]
  cases ({} : Sections).scan? (lines text) <;> rfl

end Sections

end Cellular
