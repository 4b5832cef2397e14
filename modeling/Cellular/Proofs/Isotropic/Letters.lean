/-
What the letters of a family name.

In four of the five families every configuration is an image of one that has a letter, or in the
von Neumann family a pair of letters.  The cross is the exception.  With three cells on, two of
its letters name the same configuration, and with five cells on as well, so two classes with three
cells on have no letter at all, and two with five.  With four cells on one class has no letter,
and it is what the others leave.

So the configurations of a family of eight cells come in classes (`classes`), each of which a
group stands for: one letter, or what is left over by all letters.
-/
import Mathlib.Data.Nat.Bitwise
import Cellular.Proofs.Isotropic.Specification

namespace Cellular

namespace Family

/-- The configurations are of the family, and neither its rotation nor one of its reflections
leads out of them. -/
def Symmetric (f : Family) (T : Configuration → Prop) : Prop :=
  ∀ c : Configuration, T c → c < 2 ^ f.cellCount ∧ T (c.permute f.symmetry.turn) ∧
    T (c.permute f.symmetry.flip) ∧ T (c.permute f.symmetry.flop)

/-- Configurations that have no letter and no count of their own, in pairs that no group tells
apart. -/
def confused : Family → List (Configuration × Configuration)
  | cross => [(.ofDigits "01010001", .ofDigits "00010101"),
      (.ofDigits "01010111", .ofDigits "01110101")]
  | _ => []

variable {f : Family} {T : Configuration → Prop}

/-! ### Images -/

/-- A symmetric set holds all images of its configurations. -/
theorem Symmetric.images (h : f.Symmetric T) {c d : Configuration} (hc : T c)
    (hd : d ∈ f.images c) : T d := by
  have hreflections : ∀ {e : Configuration}, T e → ∀ d ∈ f.reflections e, T d := by
    intro e he d hd
    obtain ⟨-, -, hflip, hflop⟩ := h e he
    simp only [reflections, List.mem_cons, List.not_mem_nil, or_false] at hd
    rcases hd with rfl | rfl | rfl
    · exact he
    · exact hflip
    · exact hflop
  have hturn : ∀ {e : Configuration}, T e → T (e.permute f.symmetry.turn) := fun he => (h _ he).2.1
  unfold Family.images at hd
  simp only [List.flatMap_cons, List.flatMap_nil, List.append_nil, List.mem_append] at hd
  rcases hd with hd | hd | hd | hd
  · exact hreflections hc d hd
  · exact hreflections (hturn hc) d hd
  · exact hreflections (hturn (hturn hc)) d hd
  · exact hreflections (hturn (hturn (hturn hc))) d hd

/-- A closed set is symmetric, since the second reflection is a half turn after the first. -/
theorem Closed.symmetric (h : f.Closed T) : f.Symmetric T := by
  have hflop : after (after f.symmetry.turn f.symmetry.turn) f.symmetry.flip
      = f.symmetry.flop := by
    cases f <;> decide
  have hlt : ∀ i ∈ f.symmetry.turn ++ f.symmetry.flip, i < f.symmetry.turn.length ∧
      i < (after f.symmetry.turn f.symmetry.turn).length := by
    cases f <;> decide
  intro c hc
  refine ⟨(h c hc).1, (h c hc).2 .quarterTurn, (h c hc).2 .mirror, ?_⟩
  have hhalf := (h _ ((h c hc).2 .quarterTurn)).2 .quarterTurn
  have hmoved := (h _ hhalf).2 .mirror
  simp only [Motion.source] at hmoved
  rwa [c.permute_permute fun i hi => (hlt i (List.mem_append_left _ hi)).1,
    c.permute_permute fun i hi => (hlt i (List.mem_append_right _ hi)).2, hflop] at hmoved

/-- If one configuration is an image of another, the other is an image of it. -/
theorem mem_images_symm {c d : Configuration} (hc : c < 2 ^ f.cellCount) (hd : d ∈ f.images c) :
    c ∈ f.images d := by
  have hback : ∀ s ∈ f.sources, ∃ t ∈ f.sources, after s t = List.range f.cellCount ∧
      ∀ i ∈ t, i < s.length := by
    cases f <;> decide
  rw [images_eq hc] at hd
  obtain ⟨s, hs, rfl⟩ := List.mem_map.mp hd
  obtain ⟨t, ht, hafter, hlt⟩ := hback s hs
  have hdlt : c.permute s < 2 ^ f.cellCount := length_of_mem_sources hs ▸ c.permute_lt s
  rw [images_eq hdlt]
  refine List.mem_map.mpr ⟨t, ht, ?_⟩
  rw [c.permute_permute hlt, hafter, Configuration.permute_range hc]

/-! ### Sets as numbers -/

/-- The set of some configurations, as a number with a bit for each. -/
def mask (l : List Configuration) : Nat := l.foldr (fun c m => 2 ^ c ||| m) 0

theorem testBit_mask {l : List Configuration} {c : Configuration} :
    (mask l).testBit c = true ↔ c ∈ l := by
  induction l with
  | nil => simp [mask]
  | cons d rest ih =>
      show (2 ^ d ||| mask rest).testBit c = true ↔ c ∈ d :: rest
      rw [Nat.testBit_or, Bool.or_eq_true, ih, Nat.testBit_two_pow, decide_eq_true_eq,
        List.mem_cons, eq_comm]

/-! ### What the groups stand for -/

/-- The groups that leave out all letters, where these do not name every configuration, and what
they stand for. -/
def leftOver : Family → List (Ring.Group × List Configuration)
  | cross =>
    [(⟨3, true, "acehijnop".toList⟩, [.ofDigits "01010001", .ofDigits "00010101"]),
     (⟨4, true, "acehijnopqrtuvw".toList⟩, [.ofDigits "00011011"]),
     (⟨5, true, "acehijnop".toList⟩, [.ofDigits "01010111", .ofDigits "01110101"])]
  | _ => []

/-- Groups of one letter, and groups that leave out all letters, with the configurations whose
images they stand for. -/
def classes (f : Family) : List (Ring.Group × List Configuration) :=
  f.letters.map (fun e => (⟨e.1, false, [e.2.1]⟩, [.ofDigits e.2.2])) ++ f.leftOver

/-- Three tables serve all families. -/
theorem mem_tables {e : Nat × Char × String} (he : e ∈ f.letters) :
    e ∈ ringLetters ++ crossLetters ++ knightLetters := by
  rw [List.mem_append, List.mem_append]
  cases f with
  | cross => exact .inl (.inr he)
  | knight => exact .inr he
  | _ => exact .inl (.inl he)

/-- The letters have counts up to eight, and none is the `x` that stands for every ring. -/
theorem letter_of_mem {e : Nat × Char × String} (he : e ∈ f.letters) :
    e.1 ≤ 8 ∧ e.2.1.isLower = true ∧ e.2.1 ≠ 'x' := by
  have hall : ∀ e ∈ ringLetters ++ crossLetters ++ knightLetters,
      e.1 ≤ 8 ∧ e.2.1.isLower = true ∧ e.2.1 ≠ 'x' := by
    decide +kernel
  exact hall e (mem_tables he)

theorem letter?_of_mem {e : Nat × Char × String} (he : e ∈ f.letters) :
    f.letter? e.1 e.2.1 = some (.ofDigits e.2.2) := by
  have hring : ∀ e ∈ ringLetters, moore.letter? e.1 e.2.1 = some (.ofDigits e.2.2) := by
    decide +kernel
  have hcross : ∀ e ∈ crossLetters, cross.letter? e.1 e.2.1 = some (.ofDigits e.2.2) := by
    decide +kernel
  have hknight : ∀ e ∈ knightLetters, knight.letter? e.1 e.2.1 = some (.ofDigits e.2.2) := by
    decide +kernel
  cases f with
  | cross => exact hcross e he
  | knight => exact hknight e he
  | _ => exact hring e he

theorem mask_leftOver : ∀ p ∈ f.leftOver,
    (p.1.expand f).toOption.map mask = some (mask (p.2.flatMap f.images)) := by
  cases f with
  | cross => decide +kernel
  | _ => exact fun p hp => absurd hp List.not_mem_nil

theorem mask_classes (hf : f ≠ .vonNeumann) :
    mask (f.classes.flatMap fun p => p.2.flatMap f.images) = 2 ^ 2 ^ 8 - 1 := by
  have hmoore : mask (moore.classes.flatMap fun p => p.2.flatMap moore.images)
      = 2 ^ 2 ^ 8 - 1 := by
    decide +kernel
  cases f with
  | vonNeumann => exact absurd rfl hf
  | cross => decide +kernel
  | knight => decide +kernel
  | moore => exact hmoore
  | farCorners => exact hmoore

/-- **In a family of eight cells every configuration is an image of one of a class.** -/
theorem exists_class (hf : f ≠ .vonNeumann) {c : Configuration} (hc : c < 2 ^ 8) :
    ∃ p ∈ f.classes, ∃ r ∈ p.2, c ∈ f.images r := by
  have hbit : (mask (f.classes.flatMap fun p => p.2.flatMap f.images)).testBit c = true := by
    rw [mask_classes hf, Nat.testBit_two_pow_sub_one, decide_eq_true hc]
  obtain ⟨p, hp, hmem⟩ := List.mem_flatMap.mp (testBit_mask.mp hbit)
  exact ⟨p, hp, List.mem_flatMap.mp hmem⟩

/-- A group of a class stands for the images of its configurations. -/
theorem expand_class {p : Ring.Group × List Configuration} (hp : p ∈ f.classes) :
    ∃ l, p.1.expand f = .ok l ∧ ∀ c, c ∈ l ↔ ∃ r ∈ p.2, c ∈ f.images r := by
  rcases List.mem_append.mp hp with hletter | hrest
  · obtain ⟨e, he, rfl⟩ := List.mem_map.mp hletter
    refine ⟨f.images (.ofDigits e.2.2), ?_, by simp⟩
    unfold Ring.Group.expand
    simp only [List.isEmpty_cons, Bool.false_eq_true, if_false, List.mapM_cons, List.mapM_nil,
      Ring.named, letter?_of_mem he]
    show Except.ok (f.chosen e.1 false [f.images (.ofDigits e.2.2)].flatten) = _
    unfold chosen
    simp
  · have hmask := mask_leftOver p hrest
    obtain ⟨l, hl, hsame⟩ := Option.map_eq_some_iff.mp hmask
    refine ⟨l, ok_of_toOption hl, fun c => ?_⟩
    rw [← testBit_mask, hsame, testBit_mask, List.mem_flatMap]

theorem class_lt {p : Ring.Group × List Configuration} (hp : p ∈ f.classes) {r : Configuration}
    (hr : r ∈ p.2) : r < 2 ^ f.cellCount := by
  refine Nat.lt_of_lt_of_le ?_ (two_pow_le f)
  rcases List.mem_append.mp hp with hletter | hrest
  · obtain ⟨e, he, rfl⟩ := List.mem_map.mp hletter
    rw [List.mem_singleton.mp hr]
    exact letter?_lt (letter?_of_mem he)
  · have hall : ∀ p ∈ f.leftOver, ∀ r ∈ p.2, r < 2 ^ 8 := by
      cases f <;> decide +kernel
    exact hall p hrest r hr

/-- A set that does not tell the pairs apart holds all of a class or nothing of it. -/
theorem class_alike (halike : ∀ p ∈ f.confused, T p.1 ↔ T p.2)
    {p : Ring.Group × List Configuration} (hp : p ∈ f.classes) {r r' : Configuration}
    (hr : r ∈ p.2) (hr' : r' ∈ p.2) (hT : T r) : T r' := by
  rcases List.mem_append.mp hp with hletter | hrest
  · obtain ⟨e, -, rfl⟩ := List.mem_map.mp hletter
    rw [List.mem_singleton.mp hr', ← List.mem_singleton.mp hr]
    exact hT
  · cases f with
    | cross =>
        simp only [confused, List.mem_cons, List.not_mem_nil, or_false, forall_eq_or_imp,
          forall_eq] at halike
        simp only [leftOver, List.mem_cons, List.not_mem_nil, or_false] at hrest
        rcases hrest with rfl | rfl | rfl
        · simp only [List.mem_cons, List.not_mem_nil, or_false] at hr hr'
          rcases hr with rfl | rfl <;> rcases hr' with rfl | rfl
          · exact hT
          · exact halike.1.mp hT
          · exact halike.1.mpr hT
          · exact hT
        · rw [List.mem_singleton.mp hr', ← List.mem_singleton.mp hr]
          exact hT
        · simp only [List.mem_cons, List.not_mem_nil, or_false] at hr hr'
          rcases hr with rfl | rfl <;> rcases hr' with rfl | rfl
          · exact hT
          · exact halike.2.mp hT
          · exact halike.2.mpr hT
          · exact hT
    | _ => exact absurd hrest List.not_mem_nil

end Family

end Cellular
