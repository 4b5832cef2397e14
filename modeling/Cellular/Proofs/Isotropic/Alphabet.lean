/-
What a specification is made of.

A letter says something only if the tables of the family have it, so a specification that is
read holds no other letters.  It is enough to look at the letters one by one: in the families of
eight cells each of them belongs to a group that is closed sooner or later, and in the von
Neumann family to one of the pairs.  Blanks around a specification say nothing.
-/
import Cellular.Proofs.Chain
import Cellular.Proofs.Text
import Cellular.Isotropic.Transitions

namespace Cellular

/-- The letters that a specification of the family may hold. -/
def Family.alphabet (f : Family) : List Char :=
  match f with
  | vonNeumann => 'x' :: (outerLetters.map Prod.fst ++ ringLetters.map (·.2.1))
  | f => f.letters.map (·.2.1)

theorem Family.mem_letters_of_letter? {f : Family} {count : Nat} {letter : Char}
    {c : Configuration} (h : f.letter? count letter = some c) :
    letter ∈ f.letters.map (·.2.1) := by
  obtain ⟨e, he, -⟩ := Option.map_eq_some_iff.mp h
  have hfound := List.find?_some he
  rw [Bool.and_eq_true, decide_eq_true_eq, decide_eq_true_eq] at hfound
  exact List.mem_map.mpr ⟨e, List.mem_of_find?_eq_some he, hfound.2⟩

theorem Family.mem_outerLetters_of_outer? {letter : Char} {c : Configuration}
    (h : outer? letter = some c) : letter ∈ outerLetters.map Prod.fst := by
  obtain ⟨e, he, -⟩ := Option.map_eq_some_iff.mp h
  have hfound := List.find?_some he
  rw [decide_eq_true_eq] at hfound
  exact List.mem_map.mpr ⟨e, List.mem_of_find?_eq_some he, hfound⟩

/-! ### Families of eight cells -/

namespace Ring

variable {f : Family}

theorem letters_of_expand {g : Group} {cs : List Configuration} (h : g.expand f = .ok cs) :
    ∀ c ∈ g.letters, c ∈ f.letters.map (·.2.1) := by
  intro c hc
  unfold Group.expand at h
  rw [if_neg (by simpa using List.ne_nil_of_mem hc)] at h
  obtain ⟨all, hall, -⟩ := ok_of_bind h
  obtain ⟨images, -, himages⟩ := (ok_of_mapM hall).1 c hc
  unfold named at himages
  split at himages
  · rename_i base hbase
    exact Family.mem_letters_of_letter? hbase
  · simp at himages

theorem letters_of_close {g : Option Group} {acc set : ConfigurationSet}
    (h : close f g acc = .ok set) : ∀ group ∈ g, ∀ c ∈ group.letters, c ∈ f.letters.map (·.2.1) := by
  intro group hg
  rw [hg] at h
  obtain ⟨cs, hcs, -⟩ := ok_of_bind h
  exact letters_of_expand hcs

/-- The letters that stand in the text, and those of the group before it. -/
theorem letters_of_read (cs : List Char) :
    ∀ {g : Option Group} {acc set : ConfigurationSet}, read f cs g acc = .ok set →
      (∀ group ∈ g, ∀ c ∈ group.letters, c ∈ f.letters.map (·.2.1)) ∧
      ∀ c ∈ cs, c.isLower = true → c ∈ f.letters.map (·.2.1) := by
  induction cs with
  | nil => exact fun h => ⟨letters_of_close h, fun c hc => absurd hc List.not_mem_nil⟩
  | cons d rest ih =>
      intro g acc set h
      by_cases hd : d.isLower = true
      · -- A letter joins the group, and is looked up with it.
        obtain ⟨hcomma, hblank, hdigit, hdash⟩ := Text.of_isLower hd
        simp only [read, hcomma, hblank, hdigit, hdash, hd, Bool.false_eq_true, or_self, if_false,
          if_true] at h
        split at h
        · obtain ⟨hgroup, hrest⟩ := ih h
          have hletters := hgroup _ rfl
          refine ⟨fun group hg c hc => ?_, fun c hc hlower => ?_⟩
          · rw [← Option.some.inj hg] at hc
            exact hletters c (List.mem_append_left _ hc)
          · rcases List.mem_cons.mp hc with rfl | htail
            · exact hletters c (List.mem_append_right _ (List.mem_singleton_self c))
            · exact hrest c htail hlower
        · simp at h
      · -- Every other character leaves the letters to the rest of the text.
        have hboth : (∀ group ∈ g, ∀ c ∈ group.letters, c ∈ f.letters.map (·.2.1)) ∧
            ∀ c ∈ rest, c.isLower = true → c ∈ f.letters.map (·.2.1) := by
          unfold read at h
          split at h
          · exact ih h
          · split at h
            · simp only at h
              split at h
              · simp at h
              · obtain ⟨closed, hclosed, h⟩ := ok_of_bind h
                exact ⟨letters_of_close hclosed, (ih h).2⟩
            · split at h
              · split at h
                · refine ⟨fun group hg c hc => ?_, (ih h).2⟩
                  rw [← Option.some.inj hg] at hc
                  exact absurd hc List.not_mem_nil
                · simp at h
              · simp at h
        refine ⟨hboth.1, fun c hc hlower => ?_⟩
        rcases List.mem_cons.mp hc with rfl | htail
        · exact absurd hlower hd
        · exact hboth.2 c htail hlower

/-- Commas and blanks can be left out. -/
theorem read_filter {p : Char → Bool} (hp : ∀ c, p c = false → c = ',' ∨ Text.isBlank c = true)
    (cs : List Char) : ∀ (g : Option Group) (acc : ConfigurationSet),
    read f (cs.filter p) g acc = read f cs g acc := by
  induction cs with
  | nil => intro g acc; rfl
  | cons c rest ih =>
      intro g acc
      by_cases hc : p c = true
      · rw [List.filter_cons_of_pos hc]
        unfold read
        simp only [ih]
      · rw [List.filter_cons_of_neg hc, ih]
        exact (if_pos (hp c (Bool.eq_false_iff.mpr hc))).symm

/-- Blanks around a specification say nothing. -/
theorem read_trim (cs : List Char) (g : Option Group) (acc : ConfigurationSet) :
    read f (Text.trim cs) g acc = read f cs g acc := by
  have hblank : ∀ c, (!Text.isBlank c) = false → c = ',' ∨ Text.isBlank c = true :=
    fun c hc => Or.inr (by simpa using hc)
  rw [← read_filter hblank, Text.filter_trim, read_filter hblank]

end Ring

/-! ### The von Neumann family -/

namespace Pairs

theorem letters_of_named {total : Nat} {inner outer : Char} {cs : List Configuration}
    (h : named total inner outer = .ok cs) :
    inner ∈ Family.vonNeumann.alphabet ∧ outer ∈ Family.vonNeumann.alphabet := by
  unfold named at h
  split at h
  · simp at h
  · rename_i ring hring
    have houter : outer ∈ Family.vonNeumann.alphabet :=
      List.mem_cons_of_mem _ (List.mem_append_left _ (Family.mem_outerLetters_of_outer? hring))
    refine ⟨?_, houter⟩
    simp only at h
    split at h
    · simp at h
    · split at h
      · rename_i hx
        rw [hx]
        exact List.mem_cons_self
      · split at h
        · rename_i c hc
          exact List.mem_cons_of_mem _ (List.mem_append_right _
            (Family.mem_letters_of_letter? hc))
        · simp at h

theorem mem_pairs (cs : List Char) : ∀ {ps : List (Char × Char)}, pairs? cs = some ps →
    ∀ c ∈ cs, ∃ p ∈ ps, c = p.1 ∨ c = p.2 := by
  induction cs using pairs?.induct with
  | case1 => exact fun _ c hc => absurd hc List.not_mem_nil
  | case2 d => exact fun h => by simp [pairs?] at h
  | case3 inner outer rest ih =>
      intro ps h c hc
      obtain ⟨ps', hps', rfl⟩ := Option.map_eq_some_iff.mp h
      simp only [List.mem_cons] at hc
      rcases hc with hinner | houter | hrest
      · exact ⟨_, List.mem_cons_self, Or.inl hinner⟩
      · exact ⟨_, List.mem_cons_self, Or.inr houter⟩
      · obtain ⟨p, hp, hmem⟩ := ih hps' c hrest
        exact ⟨p, List.mem_cons_of_mem _ hp, hmem⟩

theorem letters_of_expand {group : List Char} {cs : List Configuration}
    (h : expand group = .ok cs) :
    ∀ c ∈ group, c.isLower = true → c ∈ Family.vonNeumann.alphabet := by
  intro c hc hlower
  obtain ⟨-, -, hdigit, hdash⟩ := Text.of_isLower hlower
  have hrest : c ∈ group.dropWhile Char.isDigit := by
    rw [← List.takeWhile_append_dropWhile (p := Char.isDigit) (l := group)] at hc
    refine (List.mem_append.mp hc).resolve_left fun htake => ?_
    rw [List.mem_takeWhile_imp htake] at hdigit
    exact Bool.noConfusion hdigit
  unfold expand at h
  split at h
  · simp at h
  · simp only at h
    split at h
    · simp at h
    · generalize hafter : (if (group.dropWhile Char.isDigit).head? = some '-' then
        (group.dropWhile Char.isDigit).tail else group.dropWhile Char.isDigit) = rest at h
      have hmem : c ∈ rest := by
        rw [← hafter]
        split
        · rename_i hhead
          obtain ⟨tail, htail⟩ := List.head?_eq_some_iff.mp hhead
          rw [htail] at hrest ⊢
          exact (List.mem_cons.mp hrest).resolve_left hdash
        · exact hrest
      rw [if_neg (by simpa using List.ne_nil_of_mem hmem)] at h
      split at h
      · simp at h
      · rename_i ps hps
        obtain ⟨all, hall, -⟩ := ok_of_bind h
        obtain ⟨p, hp, hcp⟩ := mem_pairs rest hps c hmem
        obtain ⟨images, -, himages⟩ := (ok_of_mapM hall).1 p hp
        obtain ⟨hinner, houter⟩ := letters_of_named himages
        rcases hcp with rfl | rfl
        · exact hinner
        · exact houter

theorem letters_of_read {cs : List Char} {set : ConfigurationSet} (h : read cs = .ok set) :
    ∀ c ∈ cs, c.isLower = true → c ∈ Family.vonNeumann.alphabet := by
  intro c hc hlower
  obtain ⟨hcomma, hblank, -, -⟩ := Text.of_isLower hlower
  obtain ⟨group, hpiece, hmem⟩ := Text.exists_trimmed_piece hcomma hblank hc
  have hgroup : group ∈ groups cs :=
    List.mem_filter.mpr ⟨hpiece, by simpa using List.ne_nil_of_mem hmem⟩
  obtain ⟨acc, next, hstep⟩ := steps_of_foldlM h _ hgroup
  obtain ⟨l, hl, -⟩ := ok_of_bind hstep
  exact letters_of_expand hl c hmem hlower

/-- Blanks around a specification say nothing. -/
theorem read_trim (cs : List Char) : read (Text.trim cs) = read cs := by
  unfold read groups
  rw [Text.map_trim_pieces_trim (by decide)]

end Pairs

/-! ### All families -/

namespace Family

variable {f : Family} {cs : List Char}

/-- **A specification that is read holds letters of its family only.** -/
theorem mem_alphabet_of_transitions {set : ConfigurationSet} (h : f.transitions cs = .ok set)
    {c : Char} (hc : c ∈ cs) (hlower : c.isLower = true) : c ∈ f.alphabet := by
  cases f with
  | vonNeumann => exact Pairs.letters_of_read h c hc hlower
  | moore => exact (Ring.letters_of_read cs h).2 c hc hlower
  | cross => exact (Ring.letters_of_read cs h).2 c hc hlower
  | farCorners => exact (Ring.letters_of_read cs h).2 c hc hlower
  | knight => exact (Ring.letters_of_read cs h).2 c hc hlower

theorem transitions_trim (f : Family) (cs : List Char) :
    f.transitions (Text.trim cs) = f.transitions cs := by
  cases f with
  | vonNeumann => exact Pairs.read_trim cs
  | moore => exact Ring.read_trim cs none ∅
  | cross => exact Ring.read_trim cs none ∅
  | farCorners => exact Ring.read_trim cs none ∅
  | knight => exact Ring.read_trim cs none ∅

end Family

end Cellular
