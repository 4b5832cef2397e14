/-
The two forms of a rulestring say the same.

The letter form tears a field apart that holds a key.  No harm comes of it in the outer totalistic
and the BSFKL space: what a field may hold are numbers, or letters of a family, and none of them
is a key.  A rulestring with a key too many is therefore refused in either form, and any other is
cut where it was put together.
-/
import Cellular.Proofs.Rule.Fields
import Cellular.Proofs.Isotropic.Alphabet

namespace Cellular

namespace Rulestring

/-! ### What a field may hold -/

/-- Lists of integers hold no letters. -/
theorem not_mem_of_intSet {cs : List Char} {values : IntSet} (h : intSet cs = .ok values) {c : Char}
    (hc : c.isLower = true) : c ∉ cs := by
  intro hmem
  obtain ⟨hcomma, hblank, hdigit, hdash⟩ := Text.of_isLower hc
  obtain ⟨piece, hpiece, hin⟩ := Text.exists_trimmed_piece hcomma hblank hmem
  obtain ⟨ints, hints, -⟩ := ok_of_bind h
  obtain ⟨n, -, hn⟩ := (ok_of_mapM hints).1 _ (List.mem_filter.mpr
    ⟨hpiece, by simpa using List.ne_nil_of_mem hin⟩)
  unfold integer at hn
  split at hn
  · rename_i hsigned
    rcases Text.chars_of_signed? hsigned c hin with rfl | rfl | hd
    · exact hdash rfl
    · exact absurd hc (by decide)
    · rw [hdigit] at hd
      exact Bool.noConfusion hd
  · simp at hn

/-- Conditions hold no letters but those of their family. -/
theorem not_mem_of_condition {kind : ConditionKind} {cs : List Char} {cond : Condition}
    (h : condition kind cs = .ok cond) {c : Char} (hc : c.isLower = true)
    (hnone : ∀ family, kind = .isotropic family → c ∉ family.alphabet) : c ∉ cs := by
  cases kind with
  | weighted =>
      obtain ⟨values, hvalues, -⟩ := ok_of_map h
      exact not_mem_of_intSet hvalues hc
  | raw =>
      obtain ⟨values, hvalues, -⟩ := ok_of_map h
      exact not_mem_of_intSet hvalues hc
  | isotropic family =>
      obtain ⟨set, hset, -⟩ := ok_of_map h
      exact fun hmem => hnone family rfl
        (Family.mem_alphabet_of_transitions (ok_of_mapError hset) hmem hc)

/-- The keys of birth and survival are no letters of any family. -/
theorem key_not_mem_of_condition {kind : ConditionKind} {cs : List Char} {cond : Condition}
    (h : condition kind cs = .ok cond) {c : Char} (hc : c = 'b' ∨ c = 's') : c ∉ cs := by
  have hkeys : ∀ family : Family, 'b' ∉ family.alphabet ∧ 's' ∉ family.alphabet := by
    intro family
    cases family <;> decide
  rcases hc with rfl | rfl
  · exact not_mem_of_condition h (by decide) fun family _ => (hkeys family).1
  · exact not_mem_of_condition h (by decide) fun family _ => (hkeys family).2

/-- Blanks around a field say nothing. -/
theorem intSet_trim (cs : List Char) : intSet (Text.trim cs) = intSet cs := by
  unfold intSet
  rw [Text.map_trim_pieces_trim (by decide)]

theorem condition_trim (kind : ConditionKind) (cs : List Char) :
    condition kind (Text.trim cs) = condition kind cs := by
  cases kind with
  | weighted => simp only [condition, intSet_trim]
  | raw => simp only [condition, intSet_trim]
  | isotropic family => simp only [condition, Family.transitions_trim]

/-! ### The contents of the fields -/

/-- Birth and survival as two fields describe them. -/
def conditions (kind : ConditionKind) (fs : List (List Char)) :
    Except RulestringError (Condition × Condition) := do
  return (← condition kind (fs.getD 0 []), ← condition kind (fs.getD 1 []))

/-- The sets of a BSFKL phase as five fields describe them. -/
def bsfklSets (weights : List Int) (fs : List (List Char)) :
    Except RulestringError BsfklPhase := do
  return {
    weights
    birth := ← intSet (fs.getD 0 [])
    survival := ← intSet (fs.getD 1 [])
    forcing := ← intSet (fs.getD 2 [])
    killing := ← intSet (fs.getD 3 [])
    living := ← intSet (fs.getD 4 []) }

theorem outerTotalistic_eq (kind : ConditionKind) (cs : List Char) :
    outerTotalistic kind cs = fields ["b", "s"] 2 swapFirst cs >>= conditions kind := rfl

theorem bsfkl_eq (weights : List Int) (cs : List Char) :
    bsfkl weights cs = fields ["b", "s", "f", "k", "l"] 5 id cs >>= bsfklSets weights := rfl

theorem keyFree_of_conditions {kind : ConditionKind} {fs : List (List Char)}
    {both : Condition × Condition} (hlen : fs.length = 2) (h : conditions kind fs = .ok both) :
    KeyFree ["b", "s"] fs := by
  obtain ⟨birth, survival, rfl⟩ := List.length_eq_two.mp hlen
  obtain ⟨b, hb, h⟩ := ok_of_bind h
  obtain ⟨s, hs, -⟩ := ok_of_bind h
  have hnone : ∀ c : Char, c = 'b' ∨ c = 's' → ∀ f ∈ [birth, survival], c ∉ f := by
    intro c hc f hf
    simp only [List.mem_cons, List.not_mem_nil, or_false] at hf
    rcases hf with rfl | rfl
    · exact key_not_mem_of_condition hb hc
    · exact key_not_mem_of_condition hs hc
  intro key hkey
  simp only [List.mem_cons, List.not_mem_nil, or_false] at hkey
  rcases hkey with rfl | rfl
  · exact ⟨'b', [], rfl, hnone 'b' (Or.inl rfl)⟩
  · exact ⟨'s', [], rfl, hnone 's' (Or.inr rfl)⟩

theorem keyFree_of_bsfklSets {weights : List Int} {fs : List (List Char)} {phase : BsfklPhase}
    (hlen : fs.length = 5) (h : bsfklSets weights fs = .ok phase) :
    KeyFree ["b", "s", "f", "k", "l"] fs := by
  obtain ⟨birth, survival, forcing, killing, living, rfl⟩ :
      ∃ b s f k l, fs = [b, s, f, k, l] := by
    match fs, hlen with
    | [b, s, f, k, l], _ => exact ⟨b, s, f, k, l, rfl⟩
  obtain ⟨b, hb, h⟩ := ok_of_bind h
  obtain ⟨s, hs, h⟩ := ok_of_bind h
  obtain ⟨f, hf, h⟩ := ok_of_bind h
  obtain ⟨k, hk, h⟩ := ok_of_bind h
  obtain ⟨l, hl, -⟩ := ok_of_bind h
  have hnone : ∀ c : Char, c.isLower = true →
      ∀ field ∈ [birth, survival, forcing, killing, living], c ∉ field := by
    intro c hc field hfield
    simp only [List.mem_cons, List.not_mem_nil, or_false] at hfield
    rcases hfield with rfl | rfl | rfl | rfl | rfl
    · exact not_mem_of_intSet hb hc
    · exact not_mem_of_intSet hs hc
    · exact not_mem_of_intSet hf hc
    · exact not_mem_of_intSet hk hc
    · exact not_mem_of_intSet hl hc
  have hletter : ∀ key ∈ ["b", "s", "f", "k", "l"],
      ∃ c, key.toList = [c] ∧ c.isLower = true := by
    intro key hkey
    simp only [List.mem_cons, List.not_mem_nil, or_false] at hkey
    rcases hkey with rfl | rfl | rfl | rfl | rfl <;> exact ⟨_, rfl, by decide⟩
  intro key hkey
  obtain ⟨c, hc, hlower⟩ := hletter key hkey
  exact ⟨c, [], hc, hnone c hlower⟩

theorem conditions_trim (kind : ConditionKind) (birth survival : List Char) :
    conditions kind ([birth, survival].map Text.trim) = conditions kind [birth, survival] := by
  simp [conditions, condition_trim]

theorem bsfklSets_trim (weights : List Int) (birth survival forcing killing living : List Char) :
    bsfklSets weights ([birth, survival, forcing, killing, living].map Text.trim)
      = bsfklSets weights [birth, survival, forcing, killing, living] := by
  simp [bsfklSets, intSet_trim]

/-- The slash form has survival before birth. -/
theorem outerTotalistic_slashes {birth survival : List Char} (hbirth : '/' ∉ birth)
    (hsurvival : '/' ∉ survival) (kind : ConditionKind) :
    outerTotalistic kind (survival ++ '/' :: birth) = conditions kind [birth, survival] := by
  have hslashes : survival ++ '/' :: birth = ['/'].intercalate [survival, birth] := by
    simp [List.intercalate]
  have hread : fields ["b", "s"] 2 swapFirst (['/'].intercalate [survival, birth])
      = .ok ([birth, survival].map Text.trim) :=
    fields_slashes rfl (Nat.le_refl 2) (Nat.le_refl 2) (by simpa using ⟨hsurvival, hbirth⟩)
  rw [outerTotalistic_eq, hslashes, hread]
  exact conditions_trim kind birth survival

/-- **The two forms of a life-like rulestring agree** in what they accept and in what they say,
whatever the conditions are written in. -/
theorem outerTotalistic_forms {birth survival : List Char} (hbirth : Unmarked birth)
    (hsurvival : Unmarked survival) (kind : ConditionKind) :
    (outerTotalistic kind ('b' :: birth ++ 's' :: survival)).toOption
      = (outerTotalistic kind (survival ++ '/' :: birth)).toOption := by
  have hfields : ∀ g ∈ [birth, survival], Unmarked g := by
    simpa using ⟨hbirth, hsurvival⟩
  have hletters : 'b' :: birth ++ 's' :: survival = joined ["b", "s"] [birth, survival] := by
    simp [joined]
  rw [outerTotalistic_slashes hbirth.no_slash hsurvival.no_slash, outerTotalistic_eq, hletters]
  exact toOption_letters (by simp) rfl (by decide) hfields
    (fun fs a hfs ha => (keyFree_of_conditions (length_letterFields _ hfs) ha).separated)
    fun a ha => (keyFree_of_conditions rfl ha).separated

/-- **The two forms of a BSFKL rulestring agree** in what they accept and in what they say. -/
theorem bsfkl_forms {birth survival forcing killing living : List Char}
    (h : ∀ field ∈ [birth, survival, forcing, killing, living], Unmarked field)
    (weights : List Int) :
    (bsfkl weights ('b' :: birth ++ 's' :: survival ++ 'f' :: forcing ++ 'k' :: killing
        ++ 'l' :: living)).toOption
      = (bsfkl weights (birth ++ '/' :: survival ++ '/' :: forcing ++ '/' :: killing
        ++ '/' :: living)).toOption := by
  have hletters : 'b' :: birth ++ 's' :: survival ++ 'f' :: forcing ++ 'k' :: killing
      ++ 'l' :: living
        = joined ["b", "s", "f", "k", "l"] [birth, survival, forcing, killing, living] := by
    simp [joined]
  have hslashes : birth ++ '/' :: survival ++ '/' :: forcing ++ '/' :: killing ++ '/' :: living
      = ['/'].intercalate [birth, survival, forcing, killing, living] := by
    simp [List.intercalate]
  have hread : fields ["b", "s", "f", "k", "l"] 5 id
      (['/'].intercalate [birth, survival, forcing, killing, living])
        = .ok ([birth, survival, forcing, killing, living].map Text.trim) :=
    fields_slashes rfl (by decide) (Nat.le_refl 5) fun field hfield => (h field hfield).no_slash
  have hslashForm : bsfkl weights (birth ++ '/' :: survival ++ '/' :: forcing ++ '/' :: killing
      ++ '/' :: living) = bsfklSets weights [birth, survival, forcing, killing, living] := by
    rw [bsfkl_eq, hslashes, hread]
    exact bsfklSets_trim weights birth survival forcing killing living
  rw [hslashForm, bsfkl_eq, hletters]
  exact toOption_letters (by simp) rfl (by decide) h
    (fun fs a hfs ha => (keyFree_of_bsfklSets (length_letterFields _ hfs) ha).separated)
    fun a ha => (keyFree_of_bsfklSets rfl ha).separated

/-- **The letter form and the slash form of a rulestring agree**: of any fields without slashes
and capital letters, either both are accepted, with the same contents, or both are refused. -/
theorem forms_agree {birth survival forcing killing living : List Char}
    (h : ∀ field ∈ [birth, survival, forcing, killing, living], Unmarked field) :
    (∀ kind, (outerTotalistic kind ('b' :: birth ++ 's' :: survival)).toOption
        = (outerTotalistic kind (survival ++ '/' :: birth)).toOption) ∧
      ∀ weights,
        (bsfkl weights ('b' :: birth ++ 's' :: survival ++ 'f' :: forcing ++ 'k' :: killing
            ++ 'l' :: living)).toOption
          = (bsfkl weights (birth ++ '/' :: survival ++ '/' :: forcing ++ '/' :: killing
            ++ '/' :: living)).toOption :=
  ⟨outerTotalistic_forms (h birth (by simp)) (h survival (by simp)), bsfkl_forms h⟩

/-- Blanks, signs, numbers without an order and an empty field, in either form. -/
theorem forms_agree_of_numbers :
    (∀ field ∈ ["3, 6".toList, " 2,+3 ".toList, [], "-1".toList, "4".toList], Unmarked field) ∧
      (outerTotalistic .weighted "b3, 6s 2,+3 ".toList).toOption.isSome = true ∧
      (bsfkl [1, 1] "b3, 6s 2,+3 fk-1l4".toList).toOption.isSome = true ∧
      (bsfkl [1, 1] "b3, 6s 2,+3 fk-1l4".toList).toOption
        = (bsfkl [1, 1] "3, 6/ 2,+3 //-1/4".toList).toOption :=
  have h : ∀ field ∈ ["3, 6".toList, " 2,+3 ".toList, [], "-1".toList, "4".toList],
      Unmarked field := by decide
  ⟨h, by decide +kernel, by decide +kernel, (forms_agree h).2 [1, 1]⟩

/-- A key too many is refused in both forms. -/
example : (outerTotalistic .weighted "b3s2s3".toList).toOption.isSome = false ∧
    (outerTotalistic .weighted "2s3/3".toList).toOption.isSome = false := by
  decide +kernel

end Rulestring

end Cellular
