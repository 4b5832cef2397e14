/-
What a section says.

A label with its value says one thing, and the lines below it may add to it.  What is said is
an `Entry`: it is written into one field of the sections and reads none of the others, except
that blocks are added to the blocks above.  So a label, or a line below it, that is taken once
is taken in the same way on whichever line it stands and whatever was said before it
(`of_label`, `of_continuation`).
-/
import Cellular.Rule.Sections
import Cellular.Proofs.Chain

namespace Cellular

/-- The labels of a rule text.  Some have two spellings, and both are the same label. -/
inductive SectionLabel where
  | name
  | range
  | neighbourhood
  | stateWeights
  | rulespace
  | rulestring
  | conditions
  | tiling
  | palette
deriving DecidableEq

/-- The label that a key stands for, in small letters and without blanks. -/
def SectionLabel.ofKey? (key : String) : Option SectionLabel :=
  match key with
  | "name" => some .name
  | "neighbourhoodrange" | "neighborhoodrange" => some .range
  | "neighbourhood" | "neighborhood" => some .neighbourhood
  | "stateweights" => some .stateWeights
  | "rulespace" => some .rulespace
  | "rulestring" => some .rulestring
  | "b/sconditions" | "bsconditions" => some .conditions
  | "tiling" => some .tiling
  | "colourpalette" | "colorpalette" => some .palette
  | _ => none

/-- What a section says. -/
inductive Entry where
  | name (value : String)
  | range (value : Nat)
  /-- A neighbourhood has more than one block where a delimiter stands in it. -/
  | blocks (value : List (List (List Int)))
  | stateWeights (value : List (List Int))
  | space (value : RuleSpace)
  | rulestrings (value : List (List Char))
  | conditions (value : ConditionKind)
  | tiling (value : List Char)
  | palette (value : Option (List Colour))

namespace Entry

/-- The label above what is said. -/
def label : Entry → SectionLabel
  | name _ => .name
  | range _ => .range
  | blocks _ => .neighbourhood
  | stateWeights _ => .stateWeights
  | space _ => .rulespace
  | rulestrings _ => .rulestring
  | conditions _ => .conditions
  | tiling _ => .tiling
  | palette _ => .palette

/-- Writes it into the sections, and leaves the section open or closed. -/
def write (e : Entry) (current : OpenSection) (s : Sections) : Sections :=
  match e with
  | name value => { s with name := some value, current }
  | range value => { s with range := some value, current }
  | blocks value => { s with blocks := s.blocks ++ value, current }
  | stateWeights value => { s with stateWeights := some value, current }
  | space value => { s with space := some value, current }
  | rulestrings value => { s with rulestrings := some value, current }
  | conditions value => { s with conditions := some value, current }
  | tiling value => { s with tiling := some value, current }
  | palette value => { s with palette := value, current }

/-- How the section may stand: rows follow a block that is there, colours follow a list that
is there, and a rulestring has at least one phase. -/
def Opens (e : Entry) (current : OpenSection) : Prop :=
  match e with
  | blocks value => value ≠ [] ∧ current = .neighbourhood
  | palette (some _) => current = .palette
  | rulestrings value => value ≠ [] ∧ current = .header
  | _ => current = .header

theorem Opens.elim {e : Entry} {current : OpenSection} (h : e.Opens current) :
    (∃ value, e = blocks value ∧ value ≠ [] ∧ current = .neighbourhood) ∨
      (∃ colours, e = palette (some colours) ∧ current = .palette) ∨ current = .header := by
  cases e with
  | blocks value => exact .inl ⟨value, rfl, h⟩
  | palette value =>
      cases value with
      | none => exact .inr (.inr h)
      | some colours => exact .inr (.inl ⟨colours, rfl, h⟩)
  | rulestrings value => exact .inr (.inr h.2)
  | _ => exact .inr (.inr h)

/-- What different labels say goes into different fields. -/
theorem write_comm {e e' : Entry} (hne : e.label ≠ e'.label) (current : OpenSection)
    (s : Sections) :
    e'.write current (e.write current s) = e.write current (e'.write current s) := by
  cases e <;> cases e' <;> first | rfl | exact absurd rfl hne

@[simp] theorem write_current (e : Entry) (current : OpenSection) (s : Sections) :
    (e.write current s).current = current := by
  cases e <;> rfl

end Entry

namespace Sections

variable {s t : Sections} {number : Nat}

/-! ### The number of the line is for messages only -/

theorem integers_renumber {cs : List Char} {ns : List Int} (h : integers number cs = .ok ns)
    (number' : Nat) : integers number' cs = .ok ns := by
  refine ok_mapM_of_ok (fun item n hitem => ?_) h
  split at hitem
  · exact hitem
  · cases hitem

theorem rangeValue_renumber {value : List Char} {range : Nat}
    (h : rangeValue number value = .ok range) (number' : Nat) :
    rangeValue number' value = .ok range := by
  unfold rangeValue at h ⊢
  split at h
  · split at h
    · rename_i hin
      rw [if_pos hin]
      exact h
    · cases h
  · cases h

/-! ### Label lines -/

/-- The label says one thing, on whichever line and after whatever sections. -/
def Says (written key value : List Char) : Prop :=
  ∃ (e : Entry) (current : OpenSection), e.Opens current ∧
    SectionLabel.ofKey? (String.ofList key) = some e.label ∧
    ∀ (s : Sections) (number : Nat),
      s.label number written key value = .ok (e.write current s)

variable {written key value : List Char}

/-- What is said is read from the value, and the number of the line does not matter. -/
private theorem says_of_read {α : Type} {f : Nat → Except RuleError α} {e : α → Entry} {a : α}
    (hread : ∀ number', f number' = .ok a)
    (hopens : (e a).Opens .header)
    (hkey : SectionLabel.ofKey? (String.ofList key) = some (e a).label)
    (heq : ∀ (s : Sections) (number : Nat), s.label number written key value
      = (do return (e (← f number)).write .header s)) : Says written key value := by
  refine ⟨e a, .header, hopens, hkey, fun s number' => ?_⟩
  rw [heq, hread number']
  rfl

/-- **A label that is taken says one thing.** -/
theorem says_of_label (h : s.label number written key value = .ok t) :
    Says written key value := by
  unfold label at h
  simp only at h
  split at h
  all_goals rename_i hkey
  · refine ⟨.name (String.ofList value), .header, rfl, by rw [hkey]; rfl, fun s' number' => ?_⟩
    unfold label
    simp only [hkey]
    rfl
  · obtain ⟨v, hv, h⟩ := ok_of_bind h
    refine says_of_read (f := fun n => rangeValue n value) (e := .range)
      (rangeValue_renumber hv) rfl (by rw [hkey]; rfl) fun s' number' => ?_
    unfold label
    simp only [hkey]
    rfl
  · obtain ⟨v, hv, h⟩ := ok_of_bind h
    refine says_of_read (f := fun n => rangeValue n value) (e := .range)
      (rangeValue_renumber hv) rfl (by rw [hkey]; rfl) fun s' number' => ?_
    unfold label
    simp only [hkey]
    rfl
  · refine ⟨.blocks [[]], .neighbourhood, ⟨by simp, rfl⟩, by rw [hkey]; rfl, fun s' number' => ?_⟩
    unfold label
    simp only [hkey]
    rfl
  · refine ⟨.blocks [[]], .neighbourhood, ⟨by simp, rfl⟩, by rw [hkey]; rfl, fun s' number' => ?_⟩
    unfold label
    simp only [hkey]
    rfl
  · obtain ⟨v, hv, h⟩ := ok_of_bind h
    have hlists : ∀ number', (Text.pieces '|' value).mapM (integers number') = .ok v :=
      fun number' => ok_mapM_of_ok (fun _ _ hitem => integers_renumber hitem number') hv
    refine says_of_read (f := fun n => (Text.pieces '|' value).mapM (integers n))
      (e := .stateWeights) hlists rfl (by rw [hkey]; rfl) fun s' number' => ?_
    unfold label
    simp only [hkey]
    rfl
  · obtain ⟨v, hv, h⟩ := ok_of_bind h
    refine says_of_read (f := fun _ => RuleSpace.ofName value) (e := .space)
      (fun _ => hv) rfl (by rw [hkey]; rfl) fun s' number' => ?_
    unfold label
    simp only [hkey]
    rfl
  · refine ⟨.rulestrings ((Text.pieces '|' value).map Text.trim), .header,
      ⟨by simp [Text.pieces_ne_nil], rfl⟩, by rw [hkey]; rfl, fun s' number' => ?_⟩
    unfold label
    simp only [hkey]
    rfl
  · obtain ⟨v, hv, h⟩ := ok_of_bind h
    refine says_of_read (f := fun _ => ConditionKind.ofName value) (e := .conditions)
      (fun _ => hv) rfl (by rw [hkey]; rfl) fun s' number' => ?_
    unfold label
    simp only [hkey]
    rfl
  · obtain ⟨v, hv, h⟩ := ok_of_bind h
    refine says_of_read (f := fun _ => ConditionKind.ofName value) (e := .conditions)
      (fun _ => hv) rfl (by rw [hkey]; rfl) fun s' number' => ?_
    unfold label
    simp only [hkey]
    rfl
  · refine ⟨.tiling value, .header, rfl, by rw [hkey]; rfl, fun s' number' => ?_⟩
    unfold label
    simp only [hkey]
    rfl
  · split at h
    · rename_i hempty
      refine ⟨.palette (some []), .palette, rfl, by rw [hkey]; rfl, fun s' number' => ?_⟩
      unfold label
      simp only [hkey, hempty, if_true]
      rfl
    · rename_i hempty
      split at h
      · rename_i hnone
        refine ⟨.palette none, .header, rfl, by rw [hkey]; rfl, fun s' number' => ?_⟩
        unfold label
        simp only [hkey, hempty, hnone, if_true]
        rfl
      · cases h
  · split at h
    · rename_i hempty
      refine ⟨.palette (some []), .palette, rfl, by rw [hkey]; rfl, fun s' number' => ?_⟩
      unfold label
      simp only [hkey, hempty, if_true]
      rfl
    · rename_i hempty
      split at h
      · rename_i hnone
        refine ⟨.palette none, .header, rfl, by rw [hkey]; rfl, fun s' number' => ?_⟩
        unfold label
        simp only [hkey, hempty, hnone, if_true]
        rfl
      · cases h
  · cases h

/-! ### Lines below a label -/

/-- A line below a label adds to the blocks and to the palette alone, and opens no section. -/
theorem of_continuation {l : List Char} (h : s.continuation number l = .ok t) :
    ∃ blocks palette current, (current = s.current ∨ current = .header) ∧
      t = { s with blocks, palette, current } := by
  unfold continuation at h
  split at h
  · cases h
  · split at h
    · exact ⟨_, _, s.current, .inl rfl, (Except.ok.inj h).symm⟩
    · obtain ⟨row, -, h⟩ := ok_of_bind h
      exact ⟨_, _, s.current, .inl rfl, (Except.ok.inj h).symm⟩
  · split at h
    · exact ⟨_, _, .header, .inr rfl, (Except.ok.inj h).symm⟩
    · obtain ⟨colour, -, h⟩ := ok_of_bind h
      exact ⟨_, _, s.current, .inl rfl, (Except.ok.inj h).symm⟩

theorem continuation_renumber {l : List Char} (h : s.continuation number l = .ok t)
    (number' : Nat) : s.continuation number' l = .ok t := by
  unfold continuation at h ⊢
  split at h
  · cases h
  · split at h
    · rename_i hdelimiter
      rw [if_pos hdelimiter]
      exact h
    · rename_i hrow
      obtain ⟨row, hread, h⟩ := ok_of_bind h
      rw [if_neg hrow, integers_renumber hread number']
      exact h
  · exact h

/-- A row is added to the last block. -/
theorem addRow_append (above : List (List (List Int))) {blocks : List (List (List Int))}
    (hne : blocks ≠ []) (row : List Int) :
    addRow (above ++ blocks) row = above ++ addRow blocks row := by
  induction above with
  | nil => rfl
  | cons b rest ih =>
      have hrest : rest ++ blocks ≠ [] := by simp [hne]
      obtain ⟨c, others, hcons⟩ := List.exists_cons_of_ne_nil hrest
      rw [List.cons_append, List.cons_append, ← ih, hcons]
      rfl

theorem addRow_ne_nil {blocks : List (List (List Int))} (hne : blocks ≠ []) (row : List Int) :
    addRow blocks row ≠ [] := by
  unfold addRow
  split
  · exact hne
  · simp
  · simp

/-- The line adds to what is said, on whichever line and after whatever sections. -/
def Adds (e : Entry) (current : OpenSection) (l : List Char) : Prop :=
  ∃ (e' : Entry) (current' : OpenSection), e'.Opens current' ∧ e'.label = e.label ∧
    ∀ (s : Sections) (number : Nat),
      (e.write current s).continuation number l = .ok (e'.write current' s)

/-- **A line below a label that is taken adds to what the label says.** -/
theorem adds_of_continuation {e : Entry} {current : OpenSection} (he : e.Opens current)
    {l : List Char} (h : (e.write current s).continuation number l = .ok t) :
    Adds e current l := by
  unfold continuation at h
  rw [Entry.write_current] at h
  rcases he.elim with ⟨value, rfl, hne, rfl⟩ | ⟨colours, rfl, rfl⟩ | rfl
  · simp only at h
    split at h
    · rename_i hdelimiter
      refine ⟨.blocks (value ++ [[]]), .neighbourhood, ⟨by simp, rfl⟩, rfl, fun s' number' => ?_⟩
      simp only [continuation, Entry.write, hdelimiter, if_true, List.append_assoc]
      rfl
    · rename_i hrow
      obtain ⟨row, hread, h⟩ := ok_of_bind h
      refine ⟨.blocks (addRow value row), .neighbourhood, ⟨addRow_ne_nil hne row, rfl⟩, rfl,
        fun s' number' => ?_⟩
      simp only [continuation, Entry.write]
      rw [if_neg hrow, integers_renumber hread number', ← addRow_append _ hne]
      rfl
  · simp only at h
    split at h
    · rename_i hnone
      refine ⟨.palette none, .header, rfl, rfl, fun s' number' => ?_⟩
      simp only [continuation, Entry.write, hnone, if_true]
      rfl
    · rename_i hcolour
      obtain ⟨colour, hread, h⟩ := ok_of_bind h
      refine ⟨.palette (some (colours ++ [colour])), .palette, rfl, rfl, fun s' number' => ?_⟩
      simp only [continuation, Entry.write]
      rw [if_neg hcolour, hread]
      rfl
  · cases h

end Sections

end Cellular
