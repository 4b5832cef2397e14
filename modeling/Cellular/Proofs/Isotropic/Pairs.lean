/-
The von Neumann family reads the clauses that a text spells.

Each part between two commas is read by itself, as a count, a minus sign or none, and pairs of
letters (`Pairs.expand_eq`).  A pair stands for the images of the configurations that it names
(`Pairs.named_iff`), and so a part stands for what its clause denotes (`Pairs.expand_spelled`).
-/
import Mathlib.Data.Set.List
import Cellular.Proofs.Isotropic.Alphabet
import Cellular.Proofs.Isotropic.Clauses
import Cellular.Proofs.Isotropic.Counts

namespace Cellular

namespace Pairs

theorem pairs?_eq_some (cs : List Char) :
    ∀ {ps : List (Char × Char)}, pairs? cs = some ps ↔ cs = ps.flatMap fun p => [p.1, p.2] := by
  induction cs using pairs?.induct with
  | case1 => intro ps; cases ps <;> simp [pairs?]
  | case2 d => intro ps; cases ps <;> simp [pairs?]
  | case3 inner outer rest ih =>
      intro ps
      cases ps with
      | nil => simp [pairs?]
      | cons p more =>
          obtain ⟨i, o⟩ := p
          simp only [pairs?, Option.map_eq_some_iff, List.cons.injEq, List.flatMap_cons,
            List.cons_append, List.nil_append, Prod.mk.injEq]
          constructor
          · rintro ⟨_, hps, ⟨rfl, rfl⟩, rfl⟩
            exact ⟨rfl, rfl, ih.mp hps⟩
          · rintro ⟨rfl, rfl, hrest⟩
            exact ⟨more, ih.mpr hrest, ⟨rfl, rfl⟩, rfl⟩

/-- No ring is named by the letter that stands for all of them. -/
theorem letter?_x (count : Nat) : Family.moore.letter? count 'x' = none := by
  rw [Option.eq_none_iff_forall_ne_some]
  intro c hc
  obtain ⟨e, he, hletter⟩ := List.mem_map.mp (Family.mem_letters_of_letter? hc)
  exact (Family.letter_of_mem he).2.2 hletter

/-- What a pair names if its outer letter leaves a count for the inner one. -/
theorem names_iff {inner outer : Char} {ring d : Configuration} {remaining : Nat}
    (hring : Family.outer? outer = some ring) (hle : remaining ≤ 8) :
    Family.vonNeumann.Names (ring.count + remaining) [inner, outer] d ↔
      ∃ core, InnerNames remaining inner core ∧ d = core ||| ring := by
  unfold Family.Names Names
  rw [if_pos rfl]
  constructor
  · rintro ⟨inner', outer', remaining', core, ring', hname, hring', hcount, -, hcore, rfl⟩
    injection hname with hinner hname
    injection hname with houter
    subst hinner houter
    obtain rfl := Option.some.inj (hring.symm.trans hring')
    obtain rfl := Nat.add_left_cancel hcount
    exact ⟨core, hcore, rfl⟩
  · rintro ⟨core, hcore, rfl⟩
    exact ⟨inner, outer, remaining, core, ring, rfl, hring, rfl, hle, hcore, rfl⟩

/-- There are rings with every count up to eight. -/
theorem exists_innerNames_x {count : Nat} (hle : count ≤ 8) : ∃ core, InnerNames count 'x' core := by
  have hsome : ∀ n ≤ 8, Family.moore.withCount n ≠ [] := by decide +kernel
  obtain ⟨core, hcore⟩ := List.exists_mem_of_ne_nil _ (hsome count hle)
  exact ⟨core, .inl ⟨rfl, hcore⟩⟩

/-- A pair stands for the images of an inner ring with the outer cells, for each inner ring that
its first letter names, and it names some. -/
theorem mem_named {inner outer : Char} {ring : Configuration} {remaining : Nat}
    {cs : List Configuration} (hring : Family.outer? outer = some ring) (hle : remaining ≤ 8)
    (h : named (ring.count + remaining) inner outer = .ok cs) :
    (∃ core, InnerNames remaining inner core) ∧ ∀ c, c ∈ cs ↔
      ∃ core, InnerNames remaining inner core ∧ c ∈ Family.vonNeumann.images (core ||| ring) := by
  unfold named at h
  rw [hring] at h
  simp only at h
  rw [Nat.add_sub_cancel_left, if_neg (by omega)] at h
  split at h
  · rename_i hx
    injection h with h
    subst h hx
    refine ⟨exists_innerNames_x hle, fun c => ?_⟩
    unfold InnerNames
    rw [List.mem_flatMap, letter?_x]
    simp
  · rename_i hx
    split at h
    · rename_i core hcore
      injection h with h
      subst h
      refine ⟨⟨core, .inr hcore⟩, fun c => ?_⟩
      unfold InnerNames
      simp [hx, hcore]
    · cases h

/-- A pair that is read names configurations, and stands for their images. -/
theorem named_iff {total : Nat} {inner outer : Char} {cs : List Configuration}
    (h : named total inner outer = .ok cs) :
    (∃ d, Family.vonNeumann.Names total [inner, outer] d) ∧ ∀ c, c ∈ cs ↔
      ∃ d, Family.vonNeumann.Names total [inner, outer] d ∧ Family.vonNeumann.Image d c := by
  obtain ⟨ring, remaining, hring, rfl, hle⟩ : ∃ (ring : Configuration) (remaining : Nat),
      Family.outer? outer = some ring ∧ total = ring.count + remaining ∧ remaining ≤ 8 := by
    unfold named at h
    split at h
    · cases h
    · rename_i ring hring
      simp only at h
      split at h
      · cases h
      · rename_i hcount
        exact ⟨ring, total - ring.count, hring, by omega, by omega⟩
  obtain ⟨⟨core, hcore⟩, hmem⟩ := mem_named hring hle h
  refine ⟨⟨_, (names_iff hring hle).mpr ⟨core, hcore, rfl⟩⟩, fun c => ?_⟩
  rw [hmem]
  constructor
  · rintro ⟨core, hcore, hc⟩
    have hname := (names_iff hring hle).mpr ⟨core, hcore, rfl⟩
    exact ⟨_, hname, (Family.mem_images_of_names hname).mp hc⟩
  · rintro ⟨d, hname, hc⟩
    obtain ⟨core, hcore, rfl⟩ := (names_iff hring hle).mp hname
    exact ⟨core, hcore, (Family.mem_images_of_names hname).mpr hc⟩

theorem exists_named {total : Nat} {inner outer : Char} {d : Configuration}
    (h : Family.vonNeumann.Names total [inner, outer] d) :
    ∃ cs, named total inner outer = .ok cs := by
  unfold Family.Names at h
  rw [if_pos rfl] at h
  obtain ⟨inner, outer, remaining, core, ring, hname, hring, rfl, hle, hcore, -⟩ := h
  injection hname with hinner hname
  injection hname with houter
  subst hinner houter
  unfold named
  rw [hring]
  simp only
  rw [Nat.add_sub_cancel_left, if_neg (by omega)]
  split
  · exact ⟨_, rfl⟩
  · rename_i hx
    rw [hcore.resolve_left fun hring => hx hring.1]
    exact ⟨_, rfl⟩

/-! ### Reading the parts -/

/-- The letters of a pair, as a name. -/
def name (p : Char × Char) : List Char := [p.1, p.2]

theorem lower_of_names {count : Nat} {p : Char × Char} {d : Configuration}
    (h : Family.vonNeumann.Names count (name p) d) : p.1.isLower = true := by
  unfold Family.Names at h
  rw [if_pos rfl] at h
  obtain ⟨inner, outer, remaining, core, ring, hname, -, -, -, hcore, -⟩ := h
  injection hname with hinner
  rw [hinner]
  rcases hcore with ⟨rfl, -⟩ | hletter
  · decide
  · obtain ⟨e, he, hletter⟩ := List.mem_map.mp (Family.mem_letters_of_letter? hletter)
    rw [← hletter]
    exact (Family.letter_of_mem he).2.1

theorem exists_pairs {count : Nat} {names : List (List Char)}
    (h : ∀ n ∈ names, ∃ d, Family.vonNeumann.Names count n d) : ∃ ps : List (Char × Char), ps.map name = names := by
  show names ∈ Set.range (List.map name)
  rw [Set.range_list_map]
  intro n hn
  obtain ⟨d, hd⟩ := h n hn
  unfold Family.Names at hd
  rw [if_pos rfl] at hd
  obtain ⟨inner, outer, -, -, -, rfl, -⟩ := hd
  exact ⟨(inner, outer), rfl⟩

/-- What the names of a group stand for. -/
def chosen (total : Nat) (negated : Bool) (ps : List (Char × Char)) :
    Except TransitionError (List Configuration) := do
  let all ← ps.mapM fun p => named total p.1 p.2
  return Family.vonNeumann.chosen total negated all.flatten

theorem span_digits {digits rest : List Char} (hdigits : ∀ c ∈ digits, c.isDigit = true)
    (hrest : ∀ c ∈ rest.head?, c.isDigit = false) :
    (digits ++ rest).takeWhile Char.isDigit = digits ∧
      (digits ++ rest).dropWhile Char.isDigit = rest := by
  rw [List.takeWhile_append_of_pos hdigits, List.dropWhile_append_of_pos hdigits]
  cases rest with
  | nil => exact ⟨List.append_nil _, rfl⟩
  | cons c more =>
      have hc : ¬c.isDigit = true := by simp [hrest c rfl]
      rw [List.takeWhile_cons_of_neg hc, List.dropWhile_cons_of_neg hc, List.append_nil]
      exact ⟨rfl, rfl⟩

/-- A group is read as its count, its sign and its pairs. -/
theorem expand_eq {digits : List Char} {negated : Bool} {ps : List (Char × Char)}
    (hne : digits ≠ []) (hdigits : ∀ c ∈ digits, c.isDigit = true)
    (hvalue : Text.digitsValue digits ≤ 12) (hps : ∀ p ∈ ps, p.1.isLower = true) :
    expand (digits ++ ((if negated then ['-'] else []) ++ (ps.map name).flatten))
      = if ps = [] then .ok (Family.vonNeumann.withCount (Text.digitsValue digits))
        else chosen (Text.digitsValue digits) negated ps := by
  have hpairs : pairs? (ps.map name).flatten = some ps := (pairs?_eq_some _).mpr List.flatMap_def.symm
  have hhead : ∀ c ∈ (ps.map name).flatten.head?, c.isDigit = false ∧ c ≠ '-' := by
    cases ps with
    | nil => exact fun c hc => absurd hc (Option.not_mem_none c)
    | cons p more =>
        intro c hc
        have hlower := Text.of_isLower (hps p List.mem_cons_self)
        obtain rfl : p.1 = c := Option.some.inj hc
        exact hlower.2.2
  have hempty : (ps.map name).flatten.isEmpty = true ↔ ps = [] := by
    cases ps with
    | nil => simp
    | cons p more => simp [name]
  generalize (ps.map name).flatten = rest at hpairs hhead hempty ⊢
  have hafter : ∀ c ∈ ((if negated then ['-'] else []) ++ rest).head?, c.isDigit = false := by
    cases negated with
    | false => exact fun c hc => (hhead c hc).1
    | true =>
        intro c hc
        rw [← Option.some.inj hc]
        decide
  obtain ⟨htake, hdrop⟩ := span_digits hdigits hafter
  have hnumber : Text.unsigned? 32 digits = some (Text.digitsValue digits) :=
    (Text.unsigned?_of_digits hdigits).mpr ⟨hne, rfl, by omega⟩
  have hsign : (((if negated then ['-'] else []) ++ rest).head? = some '-') = (negated = true) := by
    cases negated with
    | false => exact propext ⟨fun hc => absurd rfl (hhead '-' hc).2, fun hc => Bool.noConfusion hc⟩
    | true => exact propext ⟨fun _ => rfl, fun _ => rfl⟩
  have hrest : (if negated = true then ((if negated then ['-'] else []) ++ rest).tail
      else ((if negated then ['-'] else []) ++ rest)) = rest := by
    cases negated <;> rfl
  unfold expand
  rw [htake, hdrop, hnumber]
  simp only [hsign, hrest, Nat.not_lt.mpr hvalue, if_false, hpairs, hempty, Bool.decide_eq_true]
  rfl

/-- A part that spells a clause is read as what the clause denotes. -/
theorem expand_spelled {k : Clause} {part : List Char} (hk : k.Legal .vonNeumann)
    (hpart : k.SpelledAs .vonNeumann part) :
    ∃ l, expand part = .ok l ∧ ∀ c, c ∈ l ↔ k.Denotes .vonNeumann c := by
  obtain ⟨digits, hne, hdigits, -, hvalue, rfl⟩ := hpart
  obtain ⟨ps, hps⟩ := exists_pairs hk.names
  have hnamed : ∀ p ∈ ps, ∃ d, Family.vonNeumann.Names k.count (name p) d := fun p hp =>
    hk.names _ (hps ▸ List.mem_map_of_mem hp)
  have hlower : ∀ p ∈ ps, p.1.isLower = true := by
    intro p hp
    obtain ⟨d, hd⟩ := hnamed p hp
    exact lower_of_names hd
  rw [List.append_assoc, ← hps, expand_eq hne hdigits (hvalue ▸ hk.count) hlower, hvalue]
  by_cases hnil : ps = []
  · rw [if_pos hnil]
    have hnames : k.names = [] := by rw [← hps, hnil]; rfl
    exact ⟨_, rfl, fun c => (Clause.denotes_of_no_names hnames).symm⟩
  · rw [if_neg hnil]
    obtain ⟨all, hall⟩ := exists_ok_mapM fun p hp => exists_named (hnamed p hp).choose_spec
    have hnames : k.names ≠ [] := by
      rw [← hps]
      exact fun h => hnil (List.map_eq_nil_iff.mp h)
    refine ⟨_, ?_, fun c => Clause.mem_chosen hnames fun c =>
      Clause.mem_flatten hall hps.symm fun p cs hcs => (named_iff hcs).2⟩
    unfold chosen
    rw [hall]
    rfl

/-- What follows the digits of a group is a sign or none, and the rest. -/
theorem exists_sign (after : List Char) : ∃ (negated : Bool) (rest : List Char),
    after = (if negated then ['-'] else []) ++ rest ∧
    (if after.head? = some '-' then after.tail else after) = rest := by
  split
  · rename_i hhead
    obtain ⟨tail, htail⟩ := List.head?_eq_some_iff.mp hhead
    exact ⟨true, tail, htail, by rw [htail]; rfl⟩
  · exact ⟨false, after, rfl, rfl⟩

/-- A part that is read spells a clause of the family. -/
theorem spelled_of_expand {part : List Char} {l : List Configuration} (h : expand part = .ok l) :
    ∃ k : Clause, k.Legal .vonNeumann ∧ k.SpelledAs .vonNeumann part := by
  have hall : ∀ c ∈ part.takeWhile Char.isDigit, c.isDigit = true := fun c hc =>
    List.mem_takeWhile_imp hc
  have hparts : part.takeWhile Char.isDigit ++ part.dropWhile Char.isDigit = part :=
    List.takeWhile_append_dropWhile
  obtain ⟨negated, rest, hafter, hsign⟩ := exists_sign (part.dropWhile Char.isDigit)
  unfold expand at h
  split at h
  · cases h
  · rename_i total htotal
    obtain ⟨hne, hvalue, -⟩ := (Text.unsigned?_of_digits hall).mp htotal
    simp only [hsign] at h
    have hspelled : ∀ ps : List (Char × Char), (ps.map name).flatten = rest →
        (⟨total, negated, ps.map name⟩ : Clause).SpelledAs .vonNeumann part := by
      intro ps hps
      refine ⟨part.takeWhile Char.isDigit, hne, hall, fun hf => absurd rfl hf, hvalue, ?_⟩
      rw [hps, List.append_assoc, ← hafter, hparts]
    split at h
    · cases h
    · rename_i hle
      split at h
      · rename_i hempty
        exact ⟨⟨total, negated, [].map name⟩,
          ⟨Nat.le_of_not_lt hle, fun n hn => absurd hn List.not_mem_nil⟩,
          hspelled [] (List.isEmpty_iff.mp hempty).symm⟩
      · split at h
        · cases h
        · rename_i ps hpairs
          obtain ⟨all, hmapM, -⟩ := ok_of_bind h
          refine ⟨⟨total, negated, ps.map name⟩, ⟨Nat.le_of_not_lt hle, ?_⟩, hspelled ps ?_⟩
          · intro n hn
            obtain ⟨p, hp, rfl⟩ := List.mem_map.mp hn
            obtain ⟨cs, -, hcs⟩ := (ok_of_mapM hmapM).1 p hp
            exact (named_iff hcs).1
          · rw [← List.flatMap_def]
            exact ((pairs?_eq_some rest).mp hpairs).symm

/-- A text that is read spells clauses of the family. -/
theorem exists_spells {cs : List Char} {set : ConfigurationSet} (h : read cs = .ok set) :
    ∃ ks, Family.vonNeumann.Spells cs ks := by
  have hclauses : ∀ part ∈ groups cs, ∃ k : Clause,
      k.Legal .vonNeumann ∧ k.SpelledAs .vonNeumann part := by
    intro part hpart
    obtain ⟨acc, next, hstep⟩ := steps_of_foldlM h part hpart
    obtain ⟨l, hl, -⟩ := ok_of_bind hstep
    exact spelled_of_expand hl
  obtain ⟨ks, hks⟩ := exists_forall₂ hclauses
  refine ⟨ks, fun k hk => ?_, groups cs, hks.imp fun k part hboth => hboth.2, ?_⟩
  · obtain ⟨part, -, hlegal, -⟩ := exists_of_mem_left hks k hk
    exact hlegal
  · unfold Family.Joins
    rw [if_pos rfl]
    rfl

/-- **Clauses that are spelled are read as what they denote.** -/
theorem read_spelled {cs : List Char} {ks : List Clause} (h : Family.vonNeumann.Spells cs ks) :
    ∃ set, read cs = .ok set ∧ ∀ c, c ∈ set ↔ ∃ k ∈ ks, k.Denotes .vonNeumann c := by
  obtain ⟨hlegal, parts, hparts, hjoins⟩ := h
  unfold Family.Joins at hjoins
  rw [if_pos rfl] at hjoins
  have hgroups : groups cs = parts := hjoins
  have hread : ∀ part ∈ parts, ∃ k ∈ ks, ∃ l, expand part = .ok l ∧
      ∀ c, c ∈ l ↔ k.Denotes .vonNeumann c := by
    intro part hpart
    obtain ⟨k, hk, hspelled⟩ := exists_of_mem_right hparts part hpart
    obtain ⟨l, hl, hmem⟩ := expand_spelled (hlegal k hk) hspelled
    exact ⟨k, hk, l, hl, hmem⟩
  obtain ⟨set, hset⟩ : ∃ set, read cs = .ok set := by
    refine exists_ok_of_foldlM (fun part hpart acc => ?_) ∅
    obtain ⟨-, -, l, hl, -⟩ := hread part (hgroups ▸ hpart)
    rw [hl]
    exact ⟨_, rfl⟩
  refine ⟨set, hset, fun c => ?_⟩
  rw [mem_foldlM (groups cs) hset, hgroups]
  constructor
  · rintro (hempty | ⟨part, hpart, l, hl, hc⟩)
    · exact absurd hempty Std.ExtTreeSet.not_mem_empty
    · obtain ⟨k, hk, l', hl', hmem⟩ := hread part hpart
      obtain rfl := Except.ok.inj (hl.symm.trans hl')
      exact ⟨k, hk, (hmem c).mp hc⟩
  · rintro ⟨k, hk, hc⟩
    obtain ⟨part, hpart, hspelled⟩ := exists_of_mem_left hparts k hk
    obtain ⟨l, hl, hmem⟩ := expand_spelled (hlegal k hk) hspelled
    exact .inr ⟨part, hpart, l, hl, (hmem c).mpr hc⟩

end Pairs

end Cellular
