/-
A count stands for all configurations that have it.

Where birth and survival are given by counts alone, the letters of a family are not needed:
the set of configurations that is read is the set of those with one of the counts, in either
grammar (`mem_transitions`), and a configuration has as many cells on as there are neighbours
that weigh anything.  So the condition is the one that a raw total would give
(`holds_of_counts`), and it does not notice in which order the neighbours come.
-/
import Cellular.Proofs.Isotropic.Symmetry
import Cellular.Proofs.Rule.Blocks
import Cellular.Proofs.Rule.Sections

namespace Cellular

/-! ### Lists of counts -/

/-- The number is written between two commas of the text. -/
def Lists (cs : List Char) (n : Nat) : Prop :=
  ∃ piece ∈ Text.pieces ',' cs, Text.trim piece = (toString n).toList

/-- Between the commas of the text there are counts of cells of the family, in plain
decimals, or nothing. -/
def CountList (f : Family) (cs : List Char) : Prop :=
  ∀ piece ∈ Text.pieces ',' cs,
    Text.trim piece = [] ∨ ∃ n ≤ f.cellCount, Text.trim piece = (toString n).toList

instance (f : Family) (cs : List Char) : Decidable (CountList f cs) :=
  inferInstanceAs (Decidable (∀ piece ∈ Text.pieces ',' cs, _ ∨ ∃ n ≤ f.cellCount, _))

variable {f : Family} {cs : List Char} {n : Nat}

theorem toString_inj {m n : Nat} (h : (toString m).toList = (toString n).toList) : m = n := by
  rw [← Text.digitsValue_toString m, h, Text.digitsValue_toString]

theorem CountList.le (h : CountList f cs) (hn : Lists cs n) : n ≤ f.cellCount := by
  obtain ⟨piece, hpiece, htrim⟩ := hn
  rcases h piece hpiece with hnil | ⟨m, hm, hwritten⟩
  · exact absurd (htrim.symm.trans hnil) (Text.toString_ne_nil n)
  · rw [toString_inj (htrim.symm.trans hwritten)]
    exact hm

theorem cellCount_le (f : Family) : f.cellCount ≤ 12 := by
  cases f <;> decide

/-- What is written between the commas is a count, and the counts are what is written there. -/
theorem CountList.mem_items (h : CountList f cs) {item : List Char} :
    item ∈ ((Text.pieces ',' cs).map Text.trim).filter (!·.isEmpty) ↔
      ∃ n, Lists cs n ∧ item = (toString n).toList := by
  rw [List.mem_filter, List.mem_map, Bool.not_eq_true', List.isEmpty_eq_false_iff]
  constructor
  · rintro ⟨⟨piece, hpiece, rfl⟩, hne⟩
    obtain ⟨n, -, hn⟩ := (h piece hpiece).resolve_left hne
    exact ⟨n, ⟨piece, hpiece, hn⟩, hn⟩
  · rintro ⟨n, ⟨piece, hpiece, hn⟩, rfl⟩
    exact ⟨⟨piece, hpiece, hn⟩, Text.toString_ne_nil n⟩

/-- A list of counts is read as the set of them. -/
theorem Rulestring.mem_intSet (h : CountList f cs) {values : IntSet}
    (hvalues : intSet cs = .ok values) {v : Int} : v ∈ values ↔ ∃ n, Lists cs n ∧ v = n := by
  obtain ⟨ints, hints, hset⟩ := ok_of_bind hvalues
  injection hset with hset
  subst hset
  have hread : ∀ n, Lists cs n → integer (toString n).toList = .ok (n : Int) := by
    intro n hn
    have hle := (h.le hn).trans (cellCount_le f)
    unfold integer
    rw [Text.signed?_toString (by omega)]
  rw [Std.ExtTreeSet.mem_ofList, List.contains_eq_mem, decide_eq_true_eq]
  constructor
  · intro hv
    obtain ⟨item, hitem, hinteger⟩ := (ok_of_mapM hints).2 v hv
    obtain ⟨n, hn, rfl⟩ := h.mem_items.mp hitem
    exact ⟨n, hn, Except.ok.inj (hinteger.symm.trans (hread n hn))⟩
  · rintro ⟨n, hn, rfl⟩
    obtain ⟨v, hv, hinteger⟩ := (ok_of_mapM hints).1 _ (h.mem_items.mpr ⟨n, hn, rfl⟩)
    rwa [Except.ok.inj ((hread n hn).symm.trans hinteger)]

/-! ### Families of eight cells -/

namespace Ring

/-- Text in which a group is a count alone. -/
def Plain (f : Family) (cs : List Char) : Prop :=
  ∀ c ∈ cs, c = ',' ∨ Text.isBlank c = true ∨ c.isDigit = true ∧ Text.digitValue c ≤ f.cellCount

/-- The configurations of the counts that a text starts with. -/
theorem mem_close {g : Option Group} {acc set : ConfigurationSet} (h : close f g acc = .ok set)
    (hg : ∀ group ∈ g, group.letters = []) {c : Configuration} :
    c ∈ set ↔ c ∈ acc ∨ ∃ group ∈ g, c ∈ f.withCount group.count := by
  cases g with
  | none =>
      injection h with h
      subst h
      simp
  | some group =>
      obtain ⟨l, hl, hset⟩ := ok_of_bind h
      injection hset with hset
      subst hset
      unfold Group.expand at hl
      rw [hg group rfl, if_pos List.isEmpty_nil] at hl
      injection hl with hl
      subst hl
      rw [Std.ExtTreeSet.mem_insertMany_list, List.contains_iff_mem]
      simp

/-- **Each digit stands for the configurations with that count.** -/
theorem mem_read (cs : List Char) :
    ∀ {g : Option Group} {acc set : ConfigurationSet}, Plain f cs → read f cs g acc = .ok set →
      (∀ group ∈ g, group.letters = []) → ∀ {c : Configuration},
      c ∈ set ↔ (c ∈ acc ∨ ∃ group ∈ g, c ∈ f.withCount group.count) ∨
        ∃ d ∈ cs, d.isDigit = true ∧ c ∈ f.withCount (Text.digitValue d) := by
  induction cs with
  | nil =>
      intro g acc set _ h hg c
      rw [mem_close h hg]
      simp
  | cons d rest ih =>
      intro g acc set hplain h hg c
      have hrest : Plain f rest := fun c hc => hplain c (List.mem_cons_of_mem d hc)
      unfold read at h
      by_cases hskip : d = ',' ∨ Text.isBlank d = true
      · have hdigit : ¬d.isDigit = true := by
          intro hd
          rcases hskip with rfl | hblank
          · exact absurd hd (by decide)
          · rw [Text.isBlank_of_isDigit hd] at hblank
            exact absurd hblank (by decide)
        rw [if_pos hskip] at h
        rw [ih hrest h hg]
        simp [hdigit]
      · obtain ⟨hd, hle⟩ := ((hplain d List.mem_cons_self).resolve_left
          fun hc => hskip (Or.inl hc)).resolve_left fun hc => hskip (Or.inr hc)
        rw [if_neg hskip, if_pos hd] at h
        simp only at h
        rw [if_neg (by omega)] at h
        obtain ⟨closed, hclosed, h⟩ := ok_of_bind h
        rw [ih hrest h (by simp), mem_close hclosed hg]
        simp only [Option.mem_some_iff, exists_eq_left', List.mem_cons, exists_eq_or_imp, hd,
          true_and, or_assoc]

end Ring

/-- A count below ten is a single digit. -/
theorem toString_eq_digit {n : Nat} (hn : n < 10) :
    ∃ d : Char, (toString n).toList = [d] ∧ d.isDigit = true ∧ Text.digitValue d = n := by
  have hall : ∀ n < 10, (toString n).toList = [Char.ofNat (48 + n)] ∧
      (Char.ofNat (48 + n)).isDigit = true ∧ Text.digitValue (Char.ofNat (48 + n)) = n := by
    decide
  exact ⟨_, hall n hn⟩

/-- What stands in a list of counts that are single digits. -/
theorem CountList.digit_of_mem (h : CountList f cs) (hf : f.cellCount < 10) {c : Char}
    (hc : c ∈ cs) (hcomma : c ≠ ',') (hblank : Text.isBlank c = false) :
    c.isDigit = true ∧ Lists cs (Text.digitValue c) := by
  obtain ⟨piece, hpiece, hmem⟩ := (Text.mem_pieces hcomma).mp hc
  have htrim : c ∈ Text.trim piece := (Text.mem_trim hblank).mpr hmem
  rcases h piece hpiece with hnil | ⟨n, hn, hwritten⟩
  · rw [hnil] at htrim
    exact absurd htrim List.not_mem_nil
  · obtain ⟨d, hd, hdigit, hvalue⟩ := toString_eq_digit (Nat.lt_of_le_of_lt hn hf)
    rw [hwritten, hd, List.mem_singleton] at htrim
    subst htrim
    refine ⟨hdigit, piece, hpiece, ?_⟩
    rw [hvalue, hwritten]

theorem CountList.plain (h : CountList f cs) (hf : f.cellCount < 10) : Ring.Plain f cs := by
  intro c hc
  by_cases hcomma : c = ','
  · exact Or.inl hcomma
  · by_cases hblank : Text.isBlank c = true
    · exact Or.inr (Or.inl hblank)
    · obtain ⟨hdigit, hn⟩ := h.digit_of_mem hf hc hcomma (Bool.eq_false_iff.mpr hblank)
      exact Or.inr (Or.inr ⟨hdigit, h.le hn⟩)

/-- The digits are the counts. -/
theorem CountList.exists_digit_iff (h : CountList f cs) (hf : f.cellCount < 10)
    {P : Nat → Prop} :
    (∃ d ∈ cs, d.isDigit = true ∧ P (Text.digitValue d)) ↔ ∃ n, Lists cs n ∧ P n := by
  constructor
  · rintro ⟨d, hd, hdigit, hp⟩
    have hcomma : d ≠ ',' := by
      rintro rfl
      exact absurd hdigit (by decide)
    exact ⟨_, (h.digit_of_mem hf hd hcomma (Text.isBlank_of_isDigit hdigit)).2, hp⟩
  · rintro ⟨n, hn, hp⟩
    obtain ⟨d, hd, hdigit, rfl⟩ := toString_eq_digit (Nat.lt_of_le_of_lt (h.le hn) hf)
    obtain ⟨piece, hpiece, htrim⟩ := hn
    refine ⟨d, ?_, hdigit, hp⟩
    have hcomma : d ≠ ',' := by
      rintro rfl
      exact absurd hdigit (by decide)
    refine (Text.mem_pieces hcomma).mpr ⟨piece, hpiece, (Text.trim_sublist piece).mem ?_⟩
    rw [htrim, hd]
    exact List.mem_singleton_self d

/-! ### The von Neumann family -/

namespace Pairs

theorem expand_toString (hn : n ≤ 12) :
    expand (toString n).toList = .ok (Family.vonNeumann.withCount n) := by
  have hall : ∀ n ≤ 12, Text.unsigned? 32 ((toString n).toList.takeWhile Char.isDigit) = some n ∧
      (toString n).toList.dropWhile Char.isDigit = [] := by
    decide
  obtain ⟨hvalue, hrest⟩ := hall n hn
  unfold expand
  rw [hvalue, hrest]
  simp only
  rw [if_neg (by omega)]
  rfl

/-- The groups stand together for what each of them stands for. -/
theorem mem_foldlM (groups : List (List Char)) :
    ∀ {acc set : ConfigurationSet},
      groups.foldlM (fun (acc : ConfigurationSet) group => do
        return acc.insertMany (← expand group)) acc = .ok set →
      ∀ {c : Configuration}, c ∈ set ↔
        c ∈ acc ∨ ∃ group ∈ groups, ∃ l, expand group = .ok l ∧ c ∈ l := by
  induction groups with
  | nil =>
      intro acc set h c
      injection h with h
      subst h
      simp
  | cons group rest ih =>
      intro acc set h c
      rw [List.foldlM_cons] at h
      obtain ⟨next, hnext, h⟩ := ok_of_bind h
      obtain ⟨l, hl, hnext⟩ := ok_of_bind hnext
      injection hnext with hnext
      subst hnext
      rw [ih h, Std.ExtTreeSet.mem_insertMany_list, List.contains_iff_mem]
      simp only [List.mem_cons, exists_eq_or_imp, hl, Except.ok.injEq, exists_eq_left', or_assoc]

/-- **Each count stands for the configurations with that count.** -/
theorem mem_read (h : CountList .vonNeumann cs) {set : ConfigurationSet} (hset : read cs = .ok set)
    {c : Configuration} :
    c ∈ set ↔ ∃ n, Lists cs n ∧ c ∈ Family.vonNeumann.withCount n := by
  rw [mem_foldlM (groups cs) hset]
  constructor
  · rintro (hempty | ⟨group, hgroup, l, hl, hc⟩)
    · exact absurd hempty Std.ExtTreeSet.not_mem_empty
    · obtain ⟨n, hn, rfl⟩ := h.mem_items.mp hgroup
      rw [expand_toString (h.le hn)] at hl
      injection hl with hl
      subst hl
      exact ⟨n, hn, hc⟩
  · rintro ⟨n, hn, hc⟩
    exact Or.inr ⟨_, h.mem_items.mpr ⟨n, hn, rfl⟩, _, expand_toString (h.le hn), hc⟩

end Pairs

/-! ### Conditions -/

/-- **A list of counts stands for the configurations with one of them,** in every family. -/
theorem Family.mem_transitions (h : CountList f cs) {set : ConfigurationSet}
    (hset : f.transitions cs = .ok set) {c : Configuration} :
    c ∈ set ↔ ∃ n, Lists cs n ∧ c ∈ f.withCount n := by
  have hring : f.cellCount < 10 → Ring.read f cs none ∅ = .ok set →
      (c ∈ set ↔ ∃ n, Lists cs n ∧ c ∈ f.withCount n) := by
    intro hf hread
    rw [Ring.mem_read cs (h.plain hf) hread (by simp), ← h.exists_digit_iff hf]
    simp
  cases f with
  | vonNeumann => exact Pairs.mem_read h hset
  | moore => exact hring (by decide) hset
  | cross => exact hring (by decide) hset
  | farCorners => exact hring (by decide) hset
  | knight => exact hring (by decide) hset

/-- A configuration has as many cells on as its bits say. -/
theorem Configuration.count_ofBits {bs : List Bool} (hlen : bs.length ≤ 16) :
    (ofBits bs).count = bs.countP id := by
  have hbits : (List.range bs.length).map (ofBits bs).testBit = bs := by
    refine List.ext_getElem (by simp) fun i hi hi' => ?_
    rw [List.getElem_map, List.getElem_range, testBit_ofBits, List.getD_eq_getElem _ _ hi']
  calc (ofBits bs).count
      = ((List.range bs.length).map (ofBits bs).testBit).countP id := by
        rw [count_eq hlen (ofBits_lt bs), List.countP_map]
        rfl
    _ = bs.countP id := by rw [hbits]

theorem count_configuration (w : PhaseWeights) {ns : List State} (hlen : ns.length ≤ 16) :
    (w.configuration ns).count = w.rawCount ns := by
  unfold PhaseWeights.configuration PhaseWeights.rawCount
  rw [Configuration.count_ofBits (by rwa [List.length_map]), List.countP_map]
  rfl

/-- **Counts are raw totals.**  With the same state weights a list of counts asks the same
of the neighbours, whether it is read as configurations of a family or as raw totals, and in
whichever order the neighbours come. -/
theorem holds_of_counts {c c' : Condition} {w w' : PhaseWeights} {ns ns' : List State}
    (h : CountList f cs) (hc : Rulestring.condition (.isotropic f) cs = .ok c)
    (hc' : Rulestring.condition .raw cs = .ok c') (hw : w'.stateWeights = w.stateWeights)
    (hlen : ns.length = f.cellCount) (hperm : ns'.Perm ns) :
    c'.holds w' ns' = c.holds w ns := by
  obtain ⟨set, hset, rfl⟩ := ok_of_map hc
  obtain ⟨values, hvalues, rfl⟩ := ok_of_map hc'
  have hcounts : w'.counts = w.counts := by
    unfold PhaseWeights.counts PhaseWeights.stateWeight
    rw [hw]
  have hraw : w'.rawCount ns' = w.rawCount ns := by
    unfold PhaseWeights.rawCount
    rw [hcounts, hperm.countP_eq]
  have hlt : w.configuration ns < 2 ^ f.cellCount := by
    have hbits := Configuration.ofBits_lt (ns.map w.counts)
    rwa [List.length_map, hlen] at hbits
  have hcount : (w.configuration ns).count = w.rawCount ns :=
    count_configuration w (by rw [hlen]; exact (cellCount_le f).trans (by decide))
  show values.contains ((w'.rawCount ns' : Nat) : Int) = set.contains (w.configuration ns)
  rw [Bool.eq_iff_iff, Std.ExtTreeSet.contains_iff_mem, Std.ExtTreeSet.contains_iff_mem,
    Rulestring.mem_intSet h hvalues, Family.mem_transitions h (ok_of_mapError hset), hraw]
  simp only [Family.mem_withCount, hlt, hcount, true_and, Int.natCast_inj]

end Cellular
