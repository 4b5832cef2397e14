/-
The layout of a rule text does not matter.

Blank lines, comments outside of neighbourhoods, blanks at the ends of lines and the order of
the sections are layout (`Edit`).  A text in which each label stands once, neighbourhoods apart,
is read as the same rule, or not at all, whatever its layout.

The first three kinds of edits leave every state of the scan as it was.  For the order of the
sections, a section is taken as a whole: wherever it stands, it says one thing (`says_of_act`),
so sections with different labels may change places, and sections with the same label are
neighbourhoods, which keep their order.  Which section is open at the end may differ, but the
rule does not depend on it.
-/
import Mathlib.Data.List.Basic
import Mathlib.Logic.Relation
import Cellular.Rule.Compile
import Cellular.Proofs.Rule.Entry
import Cellular.Proofs.Text

namespace Cellular

namespace Layout

/-! ### Lines and sections -/

/-- The lines of a text, with the blanks at their ends. -/
def lines (text : String) : List (List Char) := Text.pieces '\n' text.toList

/-- The key of a line that starts a section, in small letters and without blanks.  No label
starts with a number sign: such a line is a comment, or it stands in a neighbourhood, where only
a delimiter may start so. -/
def key? (l : List Char) : Option String :=
  if (Text.trim l).head? = some '#' then none
  else (Text.cutAt ':' (Text.trim l)).map fun p =>
    String.ofList (Text.lower (p.1.filter (!Text.isBlank ·)))

/-- The label of a line that starts a section. -/
def label? (l : List Char) : Option SectionLabel := (key? l).bind SectionLabel.ofKey?

/-- Each label stands on one line at most, except that there may be many neighbourhoods. -/
def LabelsOnce (ls : List (List Char)) : Prop :=
  ∀ label, label ≠ .neighbourhood → (ls.countP fun l => label? l = some label) ≤ 1

/-- The last label above is that of a neighbourhood. -/
def EndsInNeighbourhood (ls : List (List Char)) : Prop :=
  ((ls.filterMap key?).getLast?.bind SectionLabel.ofKey?) = some .neighbourhood

instance (ls : List (List Char)) : Decidable (EndsInNeighbourhood ls) :=
  inferInstanceAs (Decidable (_ = _))

/-- A line with a label, and the lines without one that follow it. -/
structure Section where
  header : List Char
  body : List (List Char)
  isLabel : (key? header).isSome
  below : ∀ l ∈ body, key? l = none
deriving DecidableEq

namespace Section

/-- The lines of the section. -/
def lines (σ : Section) : List (List Char) := σ.header :: σ.body

/-- The label of the section, if it is one of those that a rule may have. -/
def label? (σ : Section) : Option SectionLabel := Layout.label? σ.header

end Section

/-- Every text is made of sections, below lines without a label. -/
theorem exists_sections (ls : List (List Char)) :
    ∃ (preamble : List (List Char)) (σs : List Section),
      (∀ l ∈ preamble, key? l = none) ∧ ls = preamble ++ σs.flatMap Section.lines := by
  induction ls with
  | nil => exact ⟨[], [], by simp, rfl⟩
  | cons l rest ih =>
      obtain ⟨preamble, σs, hpreamble, rfl⟩ := ih
      cases hkey : key? l with
      | none =>
          refine ⟨l :: preamble, σs, fun l' hl' => ?_, rfl⟩
          rcases List.mem_cons.mp hl' with rfl | hmem
          · exact hkey
          · exact hpreamble l' hmem
      | some key => exact ⟨[], ⟨l, preamble, by simp [hkey], hpreamble⟩ :: σs, by simp, rfl⟩

/-- A change of the layout. -/
inductive Edit : List (List Char) → List (List Char) → Prop
  /-- A blank line is put in. -/
  | blank (above below : List (List Char)) (l : List Char) (h : Text.trim l = []) :
      Edit (above ++ below) (above ++ l :: below)
  /-- A comment is put in, where the section is not a neighbourhood. -/
  | comment (above below : List (List Char)) (l : List Char)
      (h : (Text.trim l).head? = some '#') (hout : ¬ EndsInNeighbourhood above) :
      Edit (above ++ below) (above ++ l :: below)
  /-- The blanks at the ends of a line are changed. -/
  | blanks (above below : List (List Char)) (l l' : List Char) (h : Text.trim l = Text.trim l') :
      Edit (above ++ l :: below) (above ++ l' :: below)
  /-- The sections change places, but the neighbourhoods keep theirs among themselves. -/
  | reorder (preamble : List (List Char)) (σs σs' : List Section)
      (hpreamble : ∀ l ∈ preamble, key? l = none) (hperm : σs.Perm σs')
      (hneighbourhoods : σs.filter (·.label? = some .neighbourhood)
        = σs'.filter (·.label? = some .neighbourhood)) :
      Edit (preamble ++ σs.flatMap Section.lines) (preamble ++ σs'.flatMap Section.lines)

end Layout

/-! ### The scan without line numbers -/

namespace Sections

open Layout

variable {s t : Sections}

theorem label_renumber {number : Nat} {written key value : List Char}
    (h : s.label number written key value = .ok t) (number' : Nat) :
    s.label number' written key value = .ok t := by
  obtain ⟨e, current, -, -, hwrite⟩ := says_of_label h
  rw [hwrite, ← Except.ok.inj ((hwrite s number).symm.trans h)]

theorem line_renumber {number : Nat} {l : List Char} (h : s.line number l = .ok t)
    (number' : Nat) : s.line number' l = .ok t := by
  unfold line at h ⊢
  split at h
  · rename_i hskip
    rw [if_pos hskip]
    exact h
  · rename_i hskip
    rw [if_neg hskip]
    split at h
    · exact label_renumber h number'
    · exact continuation_renumber h number'

/-- Takes one line, if it is understood. -/
def take? (s : Sections) (l : List Char) : Option Sections := (s.line 0 (Text.trim l)).toOption

theorem toOption_line (s : Sections) (number : Nat) (l : List Char) :
    (s.line number (Text.trim l)).toOption = s.take? l := by
  unfold take?
  cases h : s.line number (Text.trim l) with
  | ok t => rw [line_renumber h 0]
  | error e =>
      cases h' : s.line 0 (Text.trim l) with
      | ok t => cases h.symm.trans (line_renumber h' number)
      | error e' => rfl

/-- Takes lines one after the other. -/
def scan? (s : Sections) (ls : List (List Char)) : Option Sections := ls.foldlM take? s

@[simp] theorem scan?_nil (s : Sections) : s.scan? [] = some s := rfl

@[simp] theorem scan?_cons (s : Sections) (l : List Char) (ls : List (List Char)) :
    s.scan? (l :: ls) = (s.take? l).bind (·.scan? ls) := rfl

theorem scan?_append (s : Sections) (ls ls' : List (List Char)) :
    s.scan? (ls ++ ls') = (s.scan? ls).bind (·.scan? ls') := List.foldlM_append

private theorem toOption_foldlM (ls : List (List Char)) :
    ∀ (number : Nat) (s : Sections),
      (((ls.zipIdx number).map fun ((l, i) : List Char × Nat) => (i, Text.trim l)).foldlM
        (fun (s : Sections) (number, l) => s.line number l) s).toOption = s.scan? ls := by
  induction ls with
  | nil => intro _ _; rfl
  | cons l rest ih =>
      intro number s
      rw [List.zipIdx_cons, List.map_cons, List.foldlM_cons, toOption_bind, scan?_cons]
      simp only [toOption_line, ih]

/-- The sections of a text are what the scan makes of the lines. -/
theorem toOption_sections (text : String) :
    (ofText text).toOption = (({} : Sections).scan? (lines text)).map fun s =>
      { s with blocks := s.blocks.filter (!·.isEmpty) } := by
  have hscan := toOption_foldlM (lines text) 1 {}
  unfold ofText Text.numberedLines
  unfold lines at hscan ⊢
  rw [toOption_bind, hscan]
  cases ({} : Sections).scan? (Text.pieces '\n' text.toList) <;> rfl

/-- The sections with no section open. -/
def close (s : Sections) : Sections := { s with current := .header }

/-- A rule is what the scan makes of the lines, and which section is open does not matter. -/
theorem toOption_ofText (text : String) :
    (Rule.ofText text).toOption = (((({} : Sections).scan? (lines text)).map close).bind fun s =>
      ({ s with blocks := s.blocks.filter (!·.isEmpty) } : Sections).compile.toOption) := by
  unfold Rule.ofText
  rw [toOption_bind, toOption_sections]
  cases ({} : Sections).scan? (lines text) <;> rfl

/-! ### One line -/

theorem take?_congr {l l' : List Char} (h : Text.trim l = Text.trim l') (s : Sections) :
    s.take? l = s.take? l' := by
  unfold take?
  rw [h]

/-- A line that is passed over. -/
theorem take?_skipped {l : List Char} (h : isSkipped s.current (Text.trim l) = true) :
    s.take? l = some s := by
  unfold take? line
  rw [if_pos h]
  rfl

theorem take?_blank {l : List Char} (h : Text.trim l = []) (s : Sections) :
    s.take? l = some s := take?_skipped (by rw [h]; rfl)

theorem take?_comment {l : List Char} (h : (Text.trim l).head? = some '#')
    (hout : s.current ≠ .neighbourhood) : s.take? l = some s :=
  take?_skipped (by simp [isSkipped, h, hout])

/-- A line with a label is not passed over. -/
theorem take?_of_key {l : List Char} {key : String} (hkey : key? l = some key) :
    ∃ written value, Text.cutAt ':' (Text.trim l) = some (written, value) ∧
      key = String.ofList (Text.lower (written.filter (!Text.isBlank ·))) ∧
      ∀ s : Sections, s.take? l = (s.label 0 written
        (Text.lower (written.filter (!Text.isBlank ·))) (Text.trim value)).toOption := by
  unfold key? at hkey
  split at hkey
  · cases hkey
  rename_i hhead
  obtain ⟨⟨written, value⟩, hcut, hkey⟩ := Option.map_eq_some_iff.mp hkey
  have hne : Text.trim l ≠ [] := by
    intro hnil
    rw [hnil] at hcut
    cases hcut
  refine ⟨written, value, hcut, hkey.symm, fun s => ?_⟩
  unfold take? line
  rw [if_neg (by simp [isSkipped, hne, hhead]), hcut]

/-- What a line with a label says, it says wherever it stands. -/
theorem says_of_take {l : List Char} {key : String} (hkey : key? l = some key)
    (h : s.take? l = some t) :
    ∃ (e : Entry) (current : OpenSection), e.Opens current ∧ label? l = some e.label ∧
      ∀ s : Sections, s.take? l = some (e.write current s) := by
  obtain ⟨written, value, -, hwritten, htake⟩ := take?_of_key hkey
  rw [htake] at h
  obtain ⟨e, current, hopens, hlabel, hwrite⟩ := says_of_label (ok_of_toOption h)
  refine ⟨e, current, hopens, ?_, fun s => ?_⟩
  · unfold label?
    rw [hkey, hwritten]
    exact hlabel
  · rw [htake, hwrite]
    rfl

/-- No key starts with a number sign. -/
theorem ofKey?_hash (cs : List Char) : SectionLabel.ofKey? (String.ofList ('#' :: cs)) = none := by
  unfold SectionLabel.ofKey?
  split
  case h_14 => rfl
  all_goals
    rename_i hkey
    have hhead := congrArg (fun key : String => key.toList.head?) hkey
    simp at hhead

/-- A line without a label is passed over or continues the section. -/
theorem take?_below {l : List Char} (hkey : key? l = none) (h : s.take? l = some t) :
    isSkipped s.current (Text.trim l) = true ∧ t = s ∨
      isSkipped s.current (Text.trim l) = false ∧ Text.cutAt ':' (Text.trim l) = none ∧
        s.continuation 0 (Text.trim l) = .ok t := by
  cases hskip : isSkipped s.current (Text.trim l) with
  | true =>
      rw [take?_skipped hskip] at h
      exact .inl ⟨rfl, (Option.some.inj h).symm⟩
  | false =>
      have hline := ok_of_toOption h
      unfold line at hline
      rw [hskip, if_neg Bool.false_ne_true] at hline
      cases hcut : Text.cutAt ':' (Text.trim l) with
      | none =>
          rw [hcut] at hline
          exact .inr ⟨rfl, rfl, hline⟩
      | some p =>
          -- Only a number sign keeps a line with a colon from being a label.
          rw [hcut] at hline
          unfold key? at hkey
          rw [hcut] at hkey
          split at hkey
          · rename_i hhead
            obtain ⟨rest, htrim⟩ : ∃ rest, Text.trim l = '#' :: rest := by
              cases htrim : Text.trim l with
              | nil =>
                  rw [htrim] at hhead
                  cases hhead
              | cons c rest =>
                  rw [htrim] at hhead
                  exact ⟨rest, by rw [Option.some.inj hhead]⟩
            rw [htrim, Text.cutAt_cons (by decide)] at hcut
            obtain ⟨q, -, rfl⟩ := Option.map_eq_some_iff.mp hcut
            obtain ⟨e, current, -, hlabel, -⟩ := says_of_label hline
            rw [List.filter_cons_of_pos (by decide)] at hlabel
            exact absurd (hlabel.symm.trans (ofKey?_hash _)) (by simp)
          · cases hkey

/-- A line below a label adds to what is said, wherever the section stands. -/
theorem adds_of_take {e : Entry} {current : OpenSection} (he : e.Opens current) {l : List Char}
    (hkey : key? l = none) (h : (e.write current s).take? l = some t) :
    ∃ (e' : Entry) (current' : OpenSection), e'.Opens current' ∧ e'.label = e.label ∧
      ∀ s : Sections, (e.write current s).take? l = some (e'.write current' s) := by
  rcases take?_below hkey h with ⟨hskip, -⟩ | ⟨hskip, hcut, hline⟩
  · rw [Entry.write_current] at hskip
    refine ⟨e, current, he, rfl, fun s => take?_skipped ?_⟩
    rw [Entry.write_current]
    exact hskip
  · obtain ⟨e', current', he', hlabel, hwrite⟩ := adds_of_continuation he hline
    refine ⟨e', current', he', hlabel, fun s => ?_⟩
    rw [Entry.write_current] at hskip
    unfold take? line
    rw [Entry.write_current, hskip, if_neg Bool.false_ne_true, hcut]
    simp only [hwrite]
    rfl

/-! ### One section -/

theorem adds_of_scan {e : Entry} {current : OpenSection} (he : e.Opens current)
    {ls : List (List Char)} (hkeys : ∀ l ∈ ls, key? l = none)
    (h : (e.write current s).scan? ls = some t) :
    ∃ (e' : Entry) (current' : OpenSection), e'.Opens current' ∧ e'.label = e.label ∧
      ∀ s : Sections, (e.write current s).scan? ls = some (e'.write current' s) := by
  induction ls generalizing e current with
  | nil => exact ⟨e, current, he, rfl, fun _ => rfl⟩
  | cons l rest ih =>
      rw [scan?_cons] at h
      obtain ⟨u, hu, h⟩ := Option.bind_eq_some_iff.mp h
      obtain ⟨e₁, current₁, he₁, hlabel₁, hwrite₁⟩ :=
        adds_of_take he (hkeys l List.mem_cons_self) hu
      obtain rfl := Option.some.inj ((hwrite₁ s).symm.trans hu)
      obtain ⟨e', current', he', hlabel, hwrite⟩ :=
        ih he₁ (fun l hl => hkeys l (List.mem_cons_of_mem _ hl)) h
      refine ⟨e', current', he', hlabel.trans hlabel₁, fun s => ?_⟩
      rw [scan?_cons, hwrite₁, Option.bind_some, hwrite]

/-- **A section says one thing, wherever it stands.** -/
theorem says_of_scan {σ : Section} (h : s.scan? σ.lines = some t) :
    ∃ (e : Entry) (current : OpenSection), σ.label? = some e.label ∧
      ∀ s : Sections, s.scan? σ.lines = some (e.write current s) := by
  unfold Section.lines at h
  rw [scan?_cons] at h
  obtain ⟨u, hu, h⟩ := Option.bind_eq_some_iff.mp h
  obtain ⟨key, hkey⟩ := Option.isSome_iff_exists.mp σ.isLabel
  obtain ⟨e₁, current₁, he₁, hlabel₁, hwrite₁⟩ := says_of_take hkey hu
  obtain rfl := Option.some.inj ((hwrite₁ s).symm.trans hu)
  obtain ⟨e, current, -, hlabel, hwrite⟩ := adds_of_scan he₁ σ.below h
  refine ⟨e, current, hlabel ▸ hlabel₁, fun s => ?_⟩
  unfold Section.lines
  rw [scan?_cons, hwrite₁, Option.bind_some, hwrite]

/-- Takes a section and closes it. -/
def act? (s : Sections) (σ : Section) : Option Sections := (s.scan? σ.lines).map close

theorem says_of_act {σ : Section} (h : s.act? σ = some t) :
    ∃ e : Entry, σ.label? = some e.label ∧ ∀ s : Sections, s.act? σ = some (e.write .header s) := by
  obtain ⟨u, hu, -⟩ := Option.map_eq_some_iff.mp h
  obtain ⟨e, current, hlabel, hwrite⟩ := says_of_scan hu
  refine ⟨e, hlabel, fun s => ?_⟩
  unfold act?
  rw [hwrite]
  cases e <;> rfl

/-- A section that is not understood in one place is not understood in any. -/
theorem act?_none {σ : Section} (h : s.act? σ = none) (s' : Sections) : s'.act? σ = none := by
  cases h' : s'.act? σ with
  | none => rfl
  | some t' =>
      obtain ⟨e, -, hwrite⟩ := says_of_act h'
      rw [hwrite] at h
      cases h

/-- **Sections with different labels may change places.** -/
theorem act?_comm {σ τ : Section} (hne : σ.label? ≠ τ.label?) (s : Sections) :
    (s.act? σ).bind (·.act? τ) = (s.act? τ).bind (·.act? σ) := by
  cases hσ : s.act? σ with
  | none => 
      cases hτ : s.act? τ with
      | none => rfl
      | some t => exact (act?_none hσ t).symm
  | some t =>
      cases hτ : s.act? τ with
      | none => exact act?_none hτ t
      | some u =>
          obtain ⟨e, hlabel, hwrite⟩ := says_of_act hσ
          obtain ⟨e', hlabel', hwrite'⟩ := says_of_act hτ
          obtain rfl := Option.some.inj ((hwrite s).symm.trans hσ)
          obtain rfl := Option.some.inj ((hwrite' s).symm.trans hτ)
          have hlabels : e.label ≠ e'.label := by
            intro heq
            exact hne (by rw [hlabel, hlabel', heq])
          rw [Option.bind_some, Option.bind_some, hwrite, hwrite', Entry.write_comm hlabels]

/-! ### All sections -/

/-- A section reads nothing of what is open above it. -/
theorem scan?_close (s : Sections) (σ : Section) : s.close.scan? σ.lines = s.scan? σ.lines := by
  cases h : s.scan? σ.lines with
  | some t =>
      obtain ⟨e, current, -, hwrite⟩ := says_of_scan h
      rw [hwrite, ← h, hwrite]
      cases e <;> rfl
  | none =>
      cases h' : s.close.scan? σ.lines with
      | none => rfl
      | some t =>
          obtain ⟨e, current, -, hwrite⟩ := says_of_scan h'
          cases h.symm.trans (hwrite s)

theorem scan?_sections (σs : List Section) : ∀ s : Sections,
    (s.scan? (σs.flatMap Section.lines)).map close = σs.foldlM act? s.close := by
  induction σs with
  | nil => intro s; rfl
  | cons σ rest ih =>
      intro s
      have hact : s.close.act? σ = (s.scan? σ.lines).map close := by
        unfold act?
        rw [scan?_close]
      rw [List.flatMap_cons, scan?_append, List.foldlM_cons, hact]
      cases s.scan? σ.lines with
      | none => rfl
      | some t => exact ih t

end Sections

/-! ### Lists of actions that commute -/

section Commuting

variable {α σ κ : Type} {act : σ → α → Option σ} {key : α → κ}

theorem foldlM_eq_none {x : α} (hnone : ∀ s, act s x = none) {l : List α} (hx : x ∈ l) (s : σ) :
    l.foldlM act s = none := by
  induction l generalizing s with
  | nil => cases hx
  | cons y rest ih =>
      rw [List.foldlM_cons]
      rcases List.mem_cons.mp hx with rfl | hrest
      · rw [hnone]
        rfl
      · cases act s y with
        | none => rfl
        | some t => exact ih hrest t

/-- An action may be taken earlier, before others that it commutes with. -/
theorem foldlM_pull (hcomm : ∀ x y, key x ≠ key y → ∀ s,
      (act s x).bind (act · y) = (act s y).bind (act · x)) {x : α} {above : List α}
    (hkeys : ∀ y ∈ above, key y ≠ key x) (below : List α) :
    ∀ s, (above ++ x :: below).foldlM act s = (x :: (above ++ below)).foldlM act s := by
  induction above with
  | nil => exact fun _ => rfl
  | cons y rest ih =>
      intro s
      have hne : key y ≠ key x := hkeys y List.mem_cons_self
      have hrest := ih fun z hz => hkeys z (List.mem_cons_of_mem _ hz)
      have hpull : ∀ t, (rest ++ x :: below).foldlM act t
          = (act t x).bind ((rest ++ below).foldlM act ·) := hrest
      calc (y :: rest ++ x :: below).foldlM act s
          = (act s y).bind fun t => (act t x).bind ((rest ++ below).foldlM act ·) := by
            simp only [List.cons_append, List.foldlM_cons, hpull]
            rfl
        _ = ((act s y).bind (act · x)).bind ((rest ++ below).foldlM act ·) :=
            (Option.bind_assoc _ _ _).symm
        _ = ((act s x).bind (act · y)).bind ((rest ++ below).foldlM act ·) := by
            rw [hcomm y x hne]
        _ = (x :: (y :: rest ++ below)).foldlM act s := by
            rw [Option.bind_assoc]
            rfl

/-- **What comes of a list of actions depends only on the order of those with the same key,** if
actions with different keys commute. -/
theorem foldlM_eq_of_filter [DecidableEq κ] (hcomm : ∀ x y, key x ≠ key y → ∀ s,
      (act s x).bind (act · y) = (act s y).bind (act · x)) {l : List α} :
    ∀ {l' : List α}, (∀ k, l.filter (key · = k) = l'.filter (key · = k)) →
      ∀ s, l.foldlM act s = l'.foldlM act s := by
  induction l with
  | nil =>
      intro l' hfilter s
      cases l' with
      | nil => rfl
      | cons y rest =>
          have hnil := hfilter (key y)
          rw [List.filter_cons_of_pos (by simp)] at hnil
          cases hnil
  | cons x rest ih =>
      intro l' hfilter s
      have hfirst := hfilter (key x)
      rw [List.filter_cons_of_pos (by simp)] at hfirst
      obtain ⟨above, below, rfl, habove, -, hbelow⟩ := List.filter_eq_cons_iff.mp hfirst.symm
      have hkeys : ∀ y ∈ above, key y ≠ key x := fun y hy => by simpa using habove y hy
      rw [foldlM_pull hcomm hkeys, List.foldlM_cons, List.foldlM_cons]
      have hrest : ∀ k, rest.filter (key · = k) = (above ++ below).filter (key · = k) := by
        intro k
        by_cases hk : key x = k
        · subst hk
          have hnone : above.filter (key · = key x) = [] :=
            List.filter_eq_nil_iff.mpr fun y hy => by simpa using hkeys y hy
          rw [List.filter_append, hnone, hbelow]
          rfl
        · have hother := hfilter k
          rw [List.filter_cons_of_neg (by simpa using hk), List.filter_append,
            List.filter_cons_of_neg (by simpa using hk)] at hother
          rw [List.filter_append]
          exact hother
      cases act s x with
      | none => rfl
      | some t => exact ih hrest t

end Commuting

namespace Layout

open Sections

/-! ### Edits keep the labels -/

theorem key?_blank {l : List Char} (h : Text.trim l = []) : key? l = none := by
  unfold key?
  rw [h]
  rfl

theorem key?_comment {l : List Char} (h : (Text.trim l).head? = some '#') : key? l = none :=
  if_pos h

theorem key?_congr {l l' : List Char} (h : Text.trim l = Text.trim l') : key? l = key? l' := by
  unfold key?
  rw [h]

theorem label?_congr {l l' : List Char} (h : Text.trim l = Text.trim l') :
    label? l = label? l' := by
  unfold label?
  rw [key?_congr h]

theorem countP_insert {l : List Char} (hkey : key? l = none) (above below : List (List Char))
    (label : SectionLabel) :
    ((above ++ l :: below).countP fun l => label? l = some label)
      = (above ++ below).countP fun l => label? l = some label := by
  have hlabel : label? l = none := by
    unfold label?
    rw [hkey]
    rfl
  rw [List.countP_append, List.countP_append, List.countP_cons_of_neg (by simp [hlabel])]

/-- A change of the layout keeps the number of lines with a label. -/
theorem Edit.countP_eq {ls ls' : List (List Char)} (h : Edit ls ls') (label : SectionLabel) :
    (ls'.countP fun l => label? l = some label) = ls.countP fun l => label? l = some label := by
  cases h with
  | blank above below l h => exact countP_insert (key?_blank h) above below label
  | comment above below l h _ => exact countP_insert (key?_comment h) above below label
  | blanks above below l l' h =>
      simp only [List.countP_append, List.countP_cons, label?_congr h]
  | reorder preamble σs σs' _ hperm _ =>
      exact (List.Perm.append_left preamble (hperm.flatMap_right Section.lines)).symm.countP_eq _

theorem Edit.labelsOnce_iff {ls ls' : List (List Char)} (h : Edit ls ls') :
    LabelsOnce ls ↔ LabelsOnce ls' := by
  unfold LabelsOnce
  simp only [h.countP_eq]

/-! ### Edits keep what is read -/

/-- A neighbourhood is open only below its label. -/
theorem endsInNeighbourhood_of_scan {ls : List (List Char)} :
    ∀ {t : Sections}, ({} : Sections).scan? ls = some t → t.current = .neighbourhood →
      EndsInNeighbourhood ls := by
  induction ls using List.reverseRecOn with
  | nil =>
      intro t h hcurrent
      obtain rfl := Option.some.inj h
      cases hcurrent
  | append_singleton ls l ih =>
      intro t h hcurrent
      rw [scan?_append] at h
      obtain ⟨u, hu, h⟩ := Option.bind_eq_some_iff.mp h
      rw [scan?_cons] at h
      obtain ⟨v, hv, h⟩ := Option.bind_eq_some_iff.mp h
      obtain rfl := Option.some.inj h
      unfold EndsInNeighbourhood
      rw [List.filterMap_append]
      cases hkey : key? l with
      | none =>
          rw [List.filterMap_cons_none hkey, List.filterMap_nil, List.append_nil]
          rcases take?_below hkey hv with ⟨-, rfl⟩ | ⟨-, -, hline⟩
          · exact ih hu hcurrent
          · obtain ⟨_, _, current, hkept | hclosed, rfl⟩ := of_continuation hline
            · exact ih hu (hkept ▸ hcurrent)
            · exact absurd (hclosed.symm.trans hcurrent) (by decide)
      | some key =>
          obtain ⟨e, current, hopens, hlabel, hwrite⟩ := says_of_take hkey hv
          obtain rfl := Option.some.inj ((hwrite u).symm.trans hv)
          rw [Entry.write_current] at hcurrent
          rw [List.filterMap_cons_some hkey, List.filterMap_nil, List.getLast?_append]
          unfold label? at hlabel
          rw [hkey] at hlabel
          have hblocks : e.label = .neighbourhood := by
            rcases hopens.elim with ⟨value, rfl, -⟩ | ⟨colours, rfl, hpalette⟩ | hheader
            · rfl
            · exact absurd (hpalette.symm.trans hcurrent) (by decide)
            · exact absurd (hheader.symm.trans hcurrent) (by decide)
          rw [← hblocks]
          exact hlabel

theorem headers_sublist (σs : List Section) :
    (σs.map Section.header).Sublist (σs.flatMap Section.lines) := by
  induction σs with
  | nil => exact .slnil
  | cons σ rest ih => exact (ih.trans (List.sublist_append_right σ.body _)).cons_cons σ.header

/-- Only a neighbourhood may have another section of its label. -/
theorem length_filter_le {preamble : List (List Char)} {σs : List Section}
    (honce : LabelsOnce (preamble ++ σs.flatMap Section.lines)) {label : SectionLabel}
    (hne : label ≠ .neighbourhood) : (σs.filter (·.label? = some label)).length ≤ 1 := by
  have hsub : (σs.map Section.header).Sublist (preamble ++ σs.flatMap Section.lines) :=
    (headers_sublist σs).trans (List.sublist_append_right preamble _)
  calc (σs.filter (·.label? = some label)).length
      = (σs.map Section.header).countP fun l => Layout.label? l = some label := by
        rw [List.countP_map, List.countP_eq_length_filter]
        rfl
    _ ≤ (preamble ++ σs.flatMap Section.lines).countP fun l => Layout.label? l = some label :=
        hsub.countP_le
    _ ≤ 1 := honce label hne

private theorem eq_of_perm {α : Type} {l l' : List α} (h : l.Perm l') (hle : l.length ≤ 1) :
    l = l' := by
  match l, hle with
  | [], _ => exact h.nil_eq
  | [x], _ => exact (List.perm_singleton.mp h.symm).symm

/-- Sections that may change places are the same, label by label. -/
theorem filter_of_perm {preamble : List (List Char)} {σs σs' : List Section}
    (honce : LabelsOnce (preamble ++ σs.flatMap Section.lines)) (hperm : σs.Perm σs')
    (hneighbourhoods : σs.filter (·.label? = some .neighbourhood)
      = σs'.filter (·.label? = some .neighbourhood))
    (hlabels : ∀ σ ∈ σs, σ.label? ≠ none) (k : Option SectionLabel) :
    σs.filter (·.label? = k) = σs'.filter (·.label? = k) := by
  cases k with
  | none =>
      have hnone : ∀ τs : List Section, (∀ σ ∈ τs, σ.label? ≠ none) →
          τs.filter (·.label? = none) = [] := fun τs hτs =>
        List.filter_eq_nil_iff.mpr fun σ hσ => by simpa using hτs σ hσ
      rw [hnone σs hlabels, hnone σs' fun σ hσ => hlabels σ (hperm.mem_iff.mpr hσ)]
  | some label =>
      by_cases hlabel : label = .neighbourhood
      · rw [hlabel]
        exact hneighbourhoods
      · exact eq_of_perm (hperm.filter _) (length_filter_le honce hlabel)

/-- The order of the sections does not matter. -/
theorem scan?_reorder {preamble : List (List Char)} {σs σs' : List Section}
    (honce : LabelsOnce (preamble ++ σs.flatMap Section.lines)) (hperm : σs.Perm σs')
    (hneighbourhoods : σs.filter (·.label? = some .neighbourhood)
      = σs'.filter (·.label? = some .neighbourhood)) (s : Sections) :
    (s.scan? (σs.flatMap Section.lines)).map close
      = (s.scan? (σs'.flatMap Section.lines)).map close := by
  rw [scan?_sections, scan?_sections]
  by_cases hlabels : ∀ σ ∈ σs, σ.label? ≠ none
  · exact foldlM_eq_of_filter (fun σ τ hne s => act?_comm hne s)
      (filter_of_perm honce hperm hneighbourhoods hlabels) s.close
  · -- A section whose label is unknown is understood nowhere.
    push Not at hlabels
    obtain ⟨σ, hσ, hlabel⟩ := hlabels
    have hnone : ∀ s : Sections, s.act? σ = none := by
      intro s
      cases hact : s.act? σ with
      | none => rfl
      | some t =>
          obtain ⟨e, hsome, -⟩ := says_of_act hact
          cases hlabel.symm.trans hsome
    rw [foldlM_eq_none hnone hσ, foldlM_eq_none hnone (hperm.mem_iff.mp hσ)]

/-- **A change of the layout keeps what is read.** -/
theorem Edit.scan?_eq {ls ls' : List (List Char)} (h : Edit ls ls') (honce : LabelsOnce ls) :
    (({} : Sections).scan? ls').map close = (({} : Sections).scan? ls).map close := by
  cases h with
  | blank above below l h =>
      rw [scan?_append, scan?_append]
      cases ({} : Sections).scan? above with
      | none => rfl
      | some t => rw [Option.bind_some, Option.bind_some, scan?_cons, take?_blank h]; rfl
  | comment above below l h hout =>
      rw [scan?_append, scan?_append]
      cases habove : ({} : Sections).scan? above with
      | none => rfl
      | some t =>
          have hcurrent : t.current ≠ .neighbourhood :=
            fun hcurrent => hout (endsInNeighbourhood_of_scan habove hcurrent)
          rw [Option.bind_some, Option.bind_some, scan?_cons, take?_comment h hcurrent]
          rfl
  | blanks above below l l' h =>
      have htake : ∀ s : Sections, s.scan? (l' :: below) = s.scan? (l :: below) := by
        intro s
        rw [scan?_cons, scan?_cons, take?_congr h]
      rw [scan?_append, scan?_append]
      simp only [htake]
  | reorder preamble σs σs' _ hperm hneighbourhoods =>
      rw [scan?_append, scan?_append, Option.map_bind, Option.map_bind]
      have hsections := scan?_reorder honce hperm hneighbourhoods
      congr 1
      funext s
      exact (hsections s).symm

/-- Texts of the same lines but for their layout. -/
def SameButLayout (text text' : String) : Prop := Relation.EqvGen Edit (lines text) (lines text')

theorem scan?_of_eqvGen {ls ls' : List (List Char)} (h : Relation.EqvGen Edit ls ls') :
    (LabelsOnce ls ↔ LabelsOnce ls') ∧ (LabelsOnce ls →
      (({} : Sections).scan? ls').map close = (({} : Sections).scan? ls).map close) := by
  induction h with
  | rel _ _ h => exact ⟨h.labelsOnce_iff, h.scan?_eq⟩
  | refl _ => exact ⟨Iff.rfl, fun _ => rfl⟩
  | symm _ _ _ ih => exact ⟨ih.1.symm, fun honce => (ih.2 (ih.1.mpr honce)).symm⟩
  | trans _ _ _ _ _ ih ih' =>
      exact ⟨ih.1.trans ih'.1, fun honce => (ih'.2 (ih.1.mp honce)).trans (ih.2 honce)⟩

end Layout

/--
**The layout of a rule text does not matter.**  Let each label of a text stand on one line at
most, neighbourhoods apart.  Put in or leave out blank lines, put in or leave out comments where
the section is not a neighbourhood, change the blanks at the ends of lines, and let the sections
change places, but keep the order of the neighbourhoods; do so any number of times.  Then the
text is read as a rule if and only if it was before, and as the same rule.
-/
theorem Rule.ofText_layout {text text' : String} (honce : Layout.LabelsOnce (Layout.lines text))
    (h : Layout.SameButLayout text text') (r : Rule) :
    Rule.ofText text' = .ok r ↔ Rule.ofText text = .ok r := by
  have hscan := (Layout.scan?_of_eqvGen h).2 honce
  have hrule : (Rule.ofText text').toOption = (Rule.ofText text).toOption := by
    rw [Sections.toOption_ofText, Sections.toOption_ofText, hscan]
  constructor
  · intro hr
    rw [hr] at hrule
    exact ok_of_toOption hrule.symm
  · intro hr
    rw [hr] at hrule
    exact ok_of_toOption hrule

theorem Rule.ofText_layout_of_two_blocks :
    let text := "Neighbourhood Range: 0\nNeighbourhood:\n3\nNeighbourhood:\n5\n" ++
      "State Weights: 0,1\nRulespace: Generations\nRulestring: b3s2d1"
    let text' := "Rulestring: b3s2d1\n# done: twice\nNeighbourhood:\n   3\n" ++
      "Rulespace: Generations\nNeighbourhood:\n\n5\nState Weights: 0,1\nNeighbourhood Range: 0"
    Layout.LabelsOnce (Layout.lines text) ∧ Layout.SameButLayout text text' ∧
      ∃ r, Rule.ofText text = .ok r ∧ Rule.ofText text' = .ok r := by
  intro text text'
  have honce : Layout.LabelsOnce (Layout.lines text) := by
    have hlabels : (Layout.lines text).map Layout.label? = [some .range, some .neighbourhood, none,
        some .neighbourhood, none, some .stateWeights, some .rulespace, some .rulestring] := by
      decide +kernel
    intro label hne
    have hcount : ((Layout.lines text).countP fun l => Layout.label? l = some label)
        = ((Layout.lines text).map Layout.label?).countP (· = some label) := by
      rw [List.countP_map]
      rfl
    rw [hcount, hlabels]
    cases label <;> first | exact absurd rfl hne | decide
  have hlayout : Layout.SameButLayout text text' := by
    let range : Layout.Section :=
      ⟨"Neighbourhood Range: 0".toList, [], by decide +kernel, by simp⟩
    let first : Layout.Section :=
      ⟨"Neighbourhood:".toList, ["3".toList], by decide +kernel, by decide +kernel⟩
    let second : Layout.Section :=
      ⟨"Neighbourhood:".toList, ["5".toList], by decide +kernel, by decide +kernel⟩
    let weights : Layout.Section := ⟨"State Weights: 0,1".toList, [], by decide +kernel, by simp⟩
    let space : Layout.Section := ⟨"Rulespace: Generations".toList, [], by decide +kernel, by simp⟩
    let rulestring : Layout.Section :=
      ⟨"Rulestring: b3s2d1".toList, [], by decide +kernel, by simp⟩
    -- The sections change places, and then a comment, blanks before a row and a blank line come in.
    have hreorder := Layout.Edit.reorder [] [range, first, second, weights, space, rulestring]
      [rulestring, first, space, second, weights, range] (by simp) (by decide +kernel)
      (by decide +kernel)
    have hcomment := Layout.Edit.comment rulestring.lines
      ([first, space, second, weights, range].flatMap Layout.Section.lines)
      "# done: twice".toList (by decide +kernel) (by decide +kernel)
    have hindent := Layout.Edit.blanks
      ["Rulestring: b3s2d1".toList, "# done: twice".toList, "Neighbourhood:".toList]
      ([space, second, weights, range].flatMap Layout.Section.lines) "3".toList "   3".toList
      (by decide +kernel)
    have hblank := Layout.Edit.blank
      ["Rulestring: b3s2d1".toList, "# done: twice".toList, "Neighbourhood:".toList,
        "   3".toList, "Rulespace: Generations".toList, "Neighbourhood:".toList]
      ("5".toList :: [weights, range].flatMap Layout.Section.lines) [] rfl
    have hlines : Layout.lines text
        = [] ++ [range, first, second, weights, space, rulestring].flatMap
          Layout.Section.lines := by
      decide +kernel
    unfold Layout.SameButLayout
    rw [hlines]
    refine .trans _ _ _ (.rel _ _ hreorder) (.trans _ _ _ (.rel _ _ hcomment)
      (.trans _ _ _ (.rel _ _ hindent) (.trans _ _ _ (.rel _ _ hblank) ?_)))
    have hlines' : Layout.lines text' = ["Rulestring: b3s2d1".toList, "# done: twice".toList,
        "Neighbourhood:".toList, "   3".toList, "Rulespace: Generations".toList,
        "Neighbourhood:".toList] ++ [] :: "5".toList ::
          [weights, range].flatMap Layout.Section.lines := by
      decide +kernel
    rw [hlines']
    exact .refl _
  have hr : (Rule.ofText text).toOption.any (fun _ => true) = true := by decide +kernel
  obtain ⟨r, hr, -⟩ := exists_ok_of_any hr
  exact ⟨honce, hlayout, r, hr, (ofText_layout honce hlayout r).mpr hr⟩

end Cellular
