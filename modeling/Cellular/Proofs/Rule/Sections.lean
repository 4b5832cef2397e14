/-
What the kind of conditions does not touch.

A line of a rule text reads the kind of conditions nowhere, and only a line labelled with
the conditions writes it.  So the sections of two texts that differ in such lines only are
the same but for the kind (`ofText_forget`), whatever the other lines say and in whatever
order they stand.
-/
import Mathlib.Data.List.Forall2
import Cellular.Proofs.Rule.Entry
import Cellular.Proofs.Text

namespace Cellular

namespace Sections

variable {s s' t t' : Sections} {number : Nat}

/-- The sections without the kind of conditions. -/
def forget (s : Sections) : Sections := { s with conditions := none }

/-! ### A line does not read the kind of conditions -/

/-- What a label says is written next to the kind of conditions, or over it. -/
theorem forget_write (e : Entry) (current : OpenSection) (s : Sections) :
    (e.write current s.forget).forget = (e.write current s).forget := by
  cases e <;> rfl

theorem forget_label {written key value : List Char} (h : s.forget = s'.forget)
    (ht : s.label number written key value = .ok t)
    (ht' : s'.label number written key value = .ok t') : t.forget = t'.forget := by
  obtain ⟨e, current, -, -, hwrite⟩ := says_of_label ht
  obtain rfl := Except.ok.inj ((hwrite s number).symm.trans ht)
  obtain rfl := Except.ok.inj ((hwrite s' number).symm.trans ht')
  rw [← forget_write e current s, h, forget_write]

private theorem forget_bind {α : Type} {x : Except RuleError α} {f g : α → Sections}
    (h : ∀ a, (f a).forget = (g a).forget) :
    (do return f (← x) : Except RuleError Sections).map forget
      = (do return g (← x) : Except RuleError Sections).map forget := by
  cases x with
  | error e => rfl
  | ok a => exact congrArg Except.ok (h a)

theorem continuation_forget (s : Sections) (number : Nat) (l : List Char) :
    (s.forget.continuation number l).map forget = (s.continuation number l).map forget := by
  unfold continuation
  rw [show s.forget.current = s.current from rfl]
  split
  · rfl
  · split
    · rfl
    · exact forget_bind fun _ => rfl
  · split
    · rfl
    · exact forget_bind fun _ => rfl

/-- Sections that are the same but for the kind of conditions take a line in the same way. -/
theorem forget_line (h : s.forget = s'.forget) {l : List Char} (ht : s.line number l = .ok t)
    (ht' : s'.line number l = .ok t') : t.forget = t'.forget := by
  have hcurrent : s.current = s'.current := (congrArg Sections.current h :)
  unfold line at ht ht'
  rw [← hcurrent] at ht'
  split at ht
  · rename_i hskip
    rw [if_pos hskip] at ht'
    rw [← Except.ok.inj ht, ← Except.ok.inj ht', h]
  · rename_i hskip
    rw [if_neg hskip] at ht'
    split at ht
    · rename_i hcut
      rw [hcut] at ht'
      exact forget_label h ht ht'
    · rename_i hcut
      rw [hcut] at ht'
      simp only at ht'
      have hline := continuation_forget s number l
      rw [h, continuation_forget s' number l, ht, ht'] at hline
      exact (Except.ok.inj hline).symm

/-! ### A line of conditions writes nothing else -/

/-- Is the line labelled with the conditions? -/
def IsConditions (l : List Char) : Prop :=
  ∃ p ∈ Text.cutAt ':' l,
    String.ofList (Text.lower (p.1.filter (!Text.isBlank ·))) ∈ ["b/sconditions", "bsconditions"]

instance (l : List Char) : Decidable (IsConditions l) :=
  inferInstanceAs (Decidable (∃ p ∈ Text.cutAt ':' l, _))

/-- Such a line is not passed over, since it neither is empty nor starts a comment. -/
theorem IsConditions.not_skipped {l : List Char} (h : IsConditions l) (current : OpenSection) :
    isSkipped current l = false := by
  obtain ⟨⟨key, value⟩, hcut, hkey⟩ := h
  cases l with
  | nil => cases hcut
  | cons c rest =>
      have hhead : c ≠ '#' := by
        rintro rfl
        rw [Text.cutAt_cons (by decide)] at hcut
        obtain ⟨p, -, hp⟩ := Option.map_eq_some_iff.mp hcut
        injection hp with hfirst
        have hlabels : ∀ word ∈ ["b/sconditions", "bsconditions"],
            word.toList.head? ≠ some '#' := by decide
        refine hlabels _ hkey ?_
        rw [String.toList_ofList, ← hfirst, List.filter_cons_of_pos (by decide)]
        rfl
      simp [isSkipped, hhead]

theorem IsConditions.forget_line {l : List Char} (h : IsConditions l)
    (ht : s.line number l = .ok t) :
    t.forget = { s with conditions := none, current := .header } := by
  unfold line at ht
  rw [h.not_skipped, if_neg (by simp)] at ht
  obtain ⟨⟨key, value⟩, hcut, hkey⟩ := h
  rw [Option.mem_def] at hcut
  rw [hcut] at ht
  simp only at ht hkey
  have hlabel : ∃ kind, t = { s with conditions := some kind, current := .header } := by
    unfold label at ht
    simp only [List.mem_cons, List.not_mem_nil, or_false] at hkey
    rcases hkey with hkey | hkey
    · rw [hkey] at ht
      obtain ⟨kind, -, ht⟩ := ok_of_bind ht
      injection ht with ht
      exact ⟨kind, ht.symm⟩
    · rw [hkey] at ht
      obtain ⟨kind, -, ht⟩ := ok_of_bind ht
      injection ht with ht
      exact ⟨kind, ht.symm⟩
  obtain ⟨kind, rfl⟩ := hlabel
  rfl

/-! ### Texts that differ in their conditions -/

/-- The lines of the texts are the same, except where both are labelled with the conditions. -/
def SameButConditions (text text' : String) : Prop :=
  List.Forall₂ (fun l l' => Text.trim l = Text.trim l' ∨
      IsConditions (Text.trim l) ∧ IsConditions (Text.trim l'))
    (Text.pieces '\n' text.toList) (Text.pieces '\n' text'.toList)

instance (text text' : String) : Decidable (SameButConditions text text') :=
  inferInstanceAs (Decidable (List.Forall₂ _ _ _))

private theorem forget_foldlM {ls ls' : List (List Char)}
    (h : List.Forall₂ (fun l l' => Text.trim l = Text.trim l' ∨
      IsConditions (Text.trim l) ∧ IsConditions (Text.trim l')) ls ls') :
    ∀ {number : Nat} {s s' t t' : Sections}, s.forget = s'.forget →
      ((ls.zipIdx number).map fun (l, number) => (number, Text.trim l)).foldlM
        (fun (s : Sections) (number, l) => s.line number l) s = .ok t →
      ((ls'.zipIdx number).map fun (l, number) => (number, Text.trim l)).foldlM
        (fun (s : Sections) (number, l) => s.line number l) s' = .ok t' → t.forget = t'.forget := by
  induction h with
  | nil =>
      intro number s s' t t' hsame ht ht'
      injection ht with ht
      injection ht' with ht'
      rw [← ht, ← ht', hsame]
  | @cons l l' _ _ hl _ ih =>
      intro number s s' t t' hsame ht ht'
      rw [List.zipIdx_cons, List.map_cons, List.foldlM_cons] at ht ht'
      obtain ⟨u, hu, ht⟩ := ok_of_bind ht
      obtain ⟨u', hu', ht'⟩ := ok_of_bind ht'
      refine ih ?_ ht ht'
      rcases hl with heq | ⟨hl, hl'⟩
      · simp only at hu hu'
        rw [← heq] at hu'
        exact forget_line hsame hu hu'
      · rw [hl.forget_line hu, hl'.forget_line hu']
        have hrest := congrArg (fun s : Sections => { s with current := .header }) hsame
        exact hrest

/-- **Texts that differ in their conditions have the same other sections.** -/
theorem ofText_forget {text text' : String} (h : SameButConditions text text')
    (hs : ofText text = .ok s) (hs' : ofText text' = .ok s') : s.forget = s'.forget := by
  obtain ⟨t, ht, hs⟩ := ok_of_bind hs
  obtain ⟨t', ht', hs'⟩ := ok_of_bind hs'
  injection hs with hs
  injection hs' with hs'
  have hsame : t.forget = t'.forget := forget_foldlM h rfl ht ht'
  rw [← hs, ← hs']
  exact congrArg (fun s : Sections => { s with blocks := s.blocks.filter (!·.isEmpty) }) hsame

end Sections

end Cellular
