/-
What a specification says, without regard to how it is read.

A specification is a sequence of clauses.  A clause has a count, a minus sign or none, and names of
configurations with that count: a letter is a name in the families of eight cells, and a pair of
letters in the von Neumann family (`Family.Names`).  It denotes configurations with the count: all
of them, those that are images of the named ones, or those that are none (`Clause.Denotes`).

The sequence of clauses is told by the text (`Family.Spells`).  What it denotes depends neither on
the order of the clauses nor on that of the names in them, and repetitions add nothing.
-/
import Cellular.Proofs.Isotropic.Letters
import Cellular.Proofs.Isotropic.Square

namespace Cellular

/-- A count, a minus sign or none, and names of configurations. -/
structure Clause where
  count : Nat
  negated : Bool
  names : List (List Char)

/-! ### Names -/

/-- The letter stands for the inner ring, among those with the count; `x` stands for every one. -/
def Pairs.InnerNames (count : Nat) (letter : Char) (core : Configuration) : Prop :=
  letter = 'x' ∧ core ∈ Family.moore.withCount count ∨
    Family.moore.letter? count letter = some core

/-- A letter for the inner ring and one for the outer four cells name a configuration with the
count if they name its two parts, the inner one with what remains of the count. -/
def Pairs.Names (count : Nat) (name : List Char) (c : Configuration) : Prop :=
  ∃ (inner outer : Char) (remaining : Nat) (core ring : Configuration),
    name = [inner, outer] ∧ Family.outer? outer = some ring ∧ count = ring.count + remaining ∧
    remaining ≤ 8 ∧ Pairs.InnerNames remaining inner core ∧ c = core ||| ring

/-- The name stands for the configuration, among those with the count. -/
def Family.Names (f : Family) (count : Nat) (name : List Char) (c : Configuration) : Prop :=
  if f = .vonNeumann then Pairs.Names count name c
  else ∃ letter, name = [letter] ∧ f.letter? count letter = some c

/-- The family has the count and the names. -/
structure Clause.Legal (f : Family) (k : Clause) : Prop where
  count : k.count ≤ f.cellCount
  names : ∀ name ∈ k.names, ∃ c, f.Names k.count name c

/-- The configuration is an image of one that the clause names. -/
def Clause.Picks (f : Family) (k : Clause) (c : Configuration) : Prop :=
  ∃ name ∈ k.names, ∃ d, f.Names k.count name d ∧ f.Image d c

/-- The configuration has the count, and the clause has no names, or picks it, or, after a minus
sign, does not pick it. -/
def Clause.Denotes (f : Family) (k : Clause) (c : Configuration) : Prop :=
  c < 2 ^ f.cellCount ∧ c.count = k.count ∧
    (k.names = [] ∨ k.negated = false ∧ k.Picks f c ∨ k.negated = true ∧ ¬k.Picks f c)

/-! ### Texts -/

/-- The count in digits, the minus sign and the names, one after the other.  In the families of
eight cells the count is a single digit. -/
def Clause.SpelledAs (f : Family) (k : Clause) (text : List Char) : Prop :=
  ∃ digits : List Char, digits ≠ [] ∧ (∀ c ∈ digits, c.isDigit = true) ∧
    (f ≠ .vonNeumann → digits.length = 1) ∧ Text.digitsValue digits = k.count ∧
    text = digits ++ (if k.negated then ['-'] else []) ++ k.names.flatten

/-- The text without commas and blanks. -/
def Ring.condense (cs : List Char) : List Char := cs.filter fun c => c ≠ ',' && !Text.isBlank c

/-- The text consists of the parts.  In the von Neumann family they stand between commas, with
blanks around them, and parts that are blank do not count.  In the families of eight cells there
may be commas and blanks everywhere. -/
def Family.Joins (f : Family) (cs : List Char) (parts : List (List Char)) : Prop :=
  if f = .vonNeumann then ((Text.pieces ',' cs).map Text.trim).filter (!·.isEmpty) = parts
  else Ring.condense cs = parts.flatten

instance (f : Family) (cs : List Char) (parts : List (List Char)) : Decidable (f.Joins cs parts) :=
  inferInstanceAs (Decidable (if f = .vonNeumann then _ = _ else _ = _))

/-- The text spells clauses of the family, in their order. -/
def Family.Spells (f : Family) (cs : List Char) (ks : List Clause) : Prop :=
  (∀ k ∈ ks, k.Legal f) ∧ ∃ parts, List.Forall₂ (Clause.SpelledAs f) ks parts ∧ f.Joins cs parts

/-- The clauses have the same count, both have a minus sign or none has, and they have the same
names in some order. -/
def Clause.Same (k l : Clause) : Prop :=
  k.count = l.count ∧ k.negated = l.negated ∧ ∀ name, name ∈ k.names ↔ name ∈ l.names

/-- Each clause of either list is one of the other list. -/
def Clause.SameAll (ks ls : List Clause) : Prop :=
  (∀ k ∈ ks, ∃ l ∈ ls, k.Same l) ∧ ∀ l ∈ ls, ∃ k ∈ ks, k.Same l

/-! ### What is named has the count -/

namespace Configuration

theorem count_or {c d : Configuration} (h : ∀ i, c.testBit i = true → d.testBit i = false) :
    (c ||| d : Configuration).count = c.count + d.count := by
  unfold count
  induction List.range 16 with
  | nil => rfl
  | cons i rest ih =>
      rw [List.countP_cons, List.countP_cons, List.countP_cons, ih, Nat.testBit_or]
      cases hc : c.testBit i with
      | false =>
          rw [Bool.false_or]
          simp only [Bool.false_eq_true, if_false]
          omega
      | true =>
          rw [h i hc]
          simp only [Bool.true_or, Bool.false_eq_true, if_false, if_true]
          omega

end Configuration

namespace Family

variable {f : Family} {count : Nat} {name : List Char} {c d : Configuration}

theorem mem_withCount_of_letter? {letter : Char} (h : f.letter? count letter = some c) :
    c ∈ f.withCount count := by
  have hall : ∀ e ∈ ringLetters ++ crossLetters ++ knightLetters,
      (Configuration.ofDigits e.2.2).count = e.1 := by
    decide +kernel
  refine mem_withCount.mpr ⟨Nat.lt_of_lt_of_le (letter?_lt h) (two_pow_le f), ?_⟩
  obtain ⟨e, he, rfl⟩ := Option.map_eq_some_iff.mp h
  have hfound := List.find?_some he
  rw [Bool.and_eq_true, decide_eq_true_eq, decide_eq_true_eq] at hfound
  rw [hall e (mem_tables (List.mem_of_find?_eq_some he)), hfound.1]

theorem mem_withCount_of_names (h : f.Names count name c) : c ∈ f.withCount count := by
  unfold Names at h
  split at h
  · rename_i hf
    subst hf
    obtain ⟨inner, outer, remaining, core, ring, -, hring, rfl, -, hcore, rfl⟩ := h
    have hcore : core ∈ moore.withCount remaining :=
      hcore.elim And.right fun hletter => mem_withCount_of_letter? hletter
    obtain ⟨hlt, hcount⟩ := mem_withCount.mp hcore
    obtain ⟨e, -, hshift⟩ := Option.map_eq_some_iff.mp hring
    have hapart : ∀ i, core.testBit i = true → ring.testBit i = false := by
      intro i hi
      have hlow : i < 8 := by
        by_contra hbig
        rw [Configuration.testBit_of_le hlt (Nat.le_of_not_lt hbig)] at hi
        exact Bool.noConfusion hi
      rw [← hshift, Nat.testBit_shiftLeft, decide_eq_false (by omega), Bool.false_and]
    refine mem_withCount.mpr ⟨Nat.or_lt_two_pow (Nat.lt_trans hlt (by decide)) (outer?_lt hring), ?_⟩
    rw [Configuration.count_or hapart, hcount, Nat.add_comm]
  · obtain ⟨letter, -, hletter⟩ := h
    exact mem_withCount_of_letter? hletter

theorem mem_images_of_names (h : f.Names count name d) : c ∈ f.images d ↔ f.Image d c :=
  mem_images_iff (mem_withCount.mp (mem_withCount_of_names h)).1

end Family

/-! ### What a clause denotes -/

namespace Clause

variable {f : Family} {k l : Clause} {c : Configuration}

theorem mem_withCount_of_picks (h : k.Picks f c) : c ∈ f.withCount k.count := by
  obtain ⟨name, -, d, hd, himage⟩ := h
  exact (f.closed_withCount k.count).symmetric.images (Family.mem_withCount_of_names hd)
    ((Family.mem_images_of_names hd).mpr himage)

theorem denotes_of_no_names (h : k.names = []) : k.Denotes f c ↔ c ∈ f.withCount k.count := by
  unfold Denotes
  rw [Family.mem_withCount]
  simp [h]

/-- The configurations that are chosen among the named ones and the others are those that the
clause denotes. -/
theorem mem_chosen {named : List Configuration} (hne : k.names ≠ [])
    (hnamed : ∀ c, c ∈ named ↔ k.Picks f c) :
    c ∈ f.chosen k.count k.negated named ↔ k.Denotes f c := by
  unfold Denotes
  cases hneg : k.negated with
  | false =>
      show c ∈ named ↔ _
      rw [hnamed]
      simp only [hne, false_or, true_and, Bool.false_eq_true, false_and, or_false]
      constructor
      · intro hpicks
        obtain ⟨hlt, hcount⟩ := Family.mem_withCount.mp (mem_withCount_of_picks hpicks)
        exact ⟨hlt, hcount, hpicks⟩
      · exact fun h => h.2.2
  | true =>
      rw [Family.mem_chosen_negated, Family.mem_withCount, hnamed]
      simp only [hne, false_or, true_and, Bool.true_eq_false, false_and, and_assoc]

/-- What is read name by name is put together. -/
theorem mem_flatten {α : Type} {read : α → Except TransitionError (List Configuration)}
    {name : α → List Char} {xs : List α} {all : List (List Configuration)}
    (hall : xs.mapM read = .ok all) (hnames : k.names = xs.map name)
    (hread : ∀ x cs, read x = .ok cs →
      ∀ c, c ∈ cs ↔ ∃ d, f.Names k.count (name x) d ∧ f.Image d c) :
    c ∈ all.flatten ↔ k.Picks f c := by
  unfold Picks
  rw [List.mem_flatten, hnames]
  constructor
  · rintro ⟨cs, hcs, hc⟩
    obtain ⟨x, hx, hxcs⟩ := (ok_of_mapM hall).2 cs hcs
    exact ⟨name x, List.mem_map_of_mem hx, (hread x cs hxcs c).mp hc⟩
  · rintro ⟨_, hmem, hpicks⟩
    obtain ⟨x, hx, rfl⟩ := List.mem_map.mp hmem
    obtain ⟨cs, hcs, hxcs⟩ := (ok_of_mapM hall).1 x hx
    exact ⟨cs, hcs, (hread x cs hxcs c).mpr hpicks⟩

theorem Same.denotes_iff (h : k.Same l) : k.Denotes f c ↔ l.Denotes f c := by
  obtain ⟨hcount, hnegated, hnames⟩ := h
  have hpicks : k.Picks f c ↔ l.Picks f c := by
    unfold Picks
    simp only [hnames, hcount]
  have hnil : k.names = [] ↔ l.names = [] := by
    rw [List.eq_nil_iff_forall_not_mem, List.eq_nil_iff_forall_not_mem]
    simp only [hnames]
  unfold Denotes
  rw [hcount, hnegated, hpicks, hnil]

theorem SameAll.exists_denotes_iff {ks ls : List Clause} (h : SameAll ks ls) :
    (∃ k ∈ ks, k.Denotes f c) ↔ ∃ l ∈ ls, l.Denotes f c := by
  constructor
  · rintro ⟨k, hk, hc⟩
    obtain ⟨l, hl, hsame⟩ := h.1 k hk
    exact ⟨l, hl, hsame.denotes_iff.mp hc⟩
  · rintro ⟨l, hl, hc⟩
    obtain ⟨k, hk, hsame⟩ := h.2 l hl
    exact ⟨k, hk, hsame.denotes_iff.mpr hc⟩

end Clause

end Cellular
