/-
Which sets of configurations can be written.

What a specification stands for is symmetric.  The other way round, a symmetric set is written by
naming the configurations in it, one for each class, if the letters tell the classes apart.  The
groups of the set are put one after the other, and each is read back as what it is
(`Ring.read_text`, `Pairs.expand_text`).

In the cross there are pairs of classes that the letters do not tell apart.  Whatever is read
treats the two alike (`Ring.alike_read`), since a group chooses configurations by their count or
by a letter, and both have the one and neither has the other.
-/
import Cellular.Proofs.Isotropic.Counts
import Cellular.Proofs.Isotropic.Letters

namespace Cellular

namespace Family

variable {f : Family} {T : Configuration → Prop}

/-- The specification is read and stands for these configurations and no others. -/
def Writes (f : Family) (spec : String) (T : Configuration → Prop) : Prop :=
  ∃ set, f.transitions spec.toList = .ok set ∧ ∀ c, c ∈ set ↔ T c

/-! ### Writing what stands for a set -/

/-- A symmetric set can be written if groups that can be written stand for parts of it, and each
of its configurations is in one of the parts. -/
theorem exists_writes {α : Type} {xs : List α} {stands : α → Configuration → Prop}
    (hread : ∀ ys : List α, (∀ y ∈ ys, y ∈ xs) →
      ∃ spec, f.Writes spec fun c => ∃ y ∈ ys, stands y c)
    (hcover : ∀ c, T c → ∃ x ∈ xs, stands x c ∧ ∀ d, stands x d → T d) :
    ∃ spec, f.Writes spec T := by
  classical
  obtain ⟨spec, set, hset, hmem⟩ := hread (xs.filter fun x => ∀ d, stands x d → T d)
    fun y hy => (List.mem_filter.mp hy).1
  refine ⟨spec, set, hset, fun c => ?_⟩
  rw [hmem]
  constructor
  · rintro ⟨y, hy, hc⟩
    exact of_decide_eq_true (List.mem_filter.mp hy).2 c hc
  · intro hc
    obtain ⟨x, hx, hstands, hall⟩ := hcover c hc
    exact ⟨x, List.mem_filter.mpr ⟨hx, decide_eq_true hall⟩, hstands⟩

end Family

/-! ### Families of eight cells -/

namespace Ring

variable {f : Family}

/-- The text of a group. -/
def Group.text (g : Group) : List Char :=
  (toString g.count).toList ++ (if g.negated then ['-'] else []) ++ g.letters

/-- A count that the family has, and letters of the kind that is read. -/
structure Group.Written (f : Family) (g : Group) : Prop where
  count : g.count ≤ f.cellCount
  digit : g.count < 10
  letters : ∀ c ∈ g.letters, c.isLower = true

theorem read_lower {c : Char} (hc : c.isLower = true) (cs : List Char) (g : Group)
    (acc : ConfigurationSet) :
    read f (c :: cs) (some g) acc =
      read f cs (some { g with letters := g.letters ++ [c] }) acc := by
  obtain ⟨hcomma, hblank, hdigit, hdash⟩ := Text.of_isLower hc
  simp [read, hcomma, hblank, hdigit, hdash, hc]

theorem read_dash (count : Nat) (cs : List Char) (acc : ConfigurationSet) :
    read f ('-' :: cs) (some ⟨count, false, []⟩) acc = read f cs (some ⟨count, true, []⟩) acc := rfl

theorem read_digit {d : Char} (hd : d.isDigit = true) (hcount : Text.digitValue d ≤ f.cellCount)
    (cs : List Char) (prev : Option Group) (acc : ConfigurationSet) :
    read f (d :: cs) prev acc
      = (do read f cs (some ⟨Text.digitValue d, false, []⟩) (← close f prev acc)) := by
  have hblank := Text.isBlank_of_isDigit hd
  have hcomma : d ≠ ',' := by
    rintro rfl
    exact absurd hd (by decide)
  rw [read.eq_def]
  simp only [hcomma, hblank, hd, Nat.not_lt.mpr hcount, Bool.false_eq_true, or_self, if_false,
    if_true]

theorem read_letters (ls rest : List Char) :
    ∀ (g : Group) (acc : ConfigurationSet), (∀ c ∈ ls, c.isLower = true) →
      read f (ls ++ rest) (some g) acc
        = read f rest (some { g with letters := g.letters ++ ls }) acc := by
  induction ls with
  | nil => intro g acc _; simp
  | cons c ls ih =>
      intro g acc hls
      rw [List.cons_append, read_lower (hls c List.mem_cons_self),
        ih _ _ fun c hc => hls c (List.mem_cons_of_mem _ hc)]
      simp only [List.append_assoc, List.singleton_append]

/-- After its count, a group is read up to its last letter. -/
theorem read_tail {g : Group} (hg : g.Written f) (rest : List Char) (acc : ConfigurationSet) :
    read f ((if g.negated then ['-'] else []) ++ (g.letters ++ rest))
        (some ⟨g.count, false, []⟩) acc
      = read f rest (some g) acc := by
  obtain ⟨count, negated, letters⟩ := g
  cases negated with
  | false => exact read_letters letters rest ⟨count, false, []⟩ acc hg.letters
  | true =>
      rw [if_pos rfl, List.singleton_append, read_dash]
      exact read_letters letters rest ⟨count, true, []⟩ acc hg.letters

/-- **The text of a group is read as the group.** -/
theorem read_text {g : Group} (hg : g.Written f) (rest : List Char) (prev : Option Group)
    (acc : ConfigurationSet) :
    read f (g.text ++ rest) prev acc = (do read f rest (some g) (← close f prev acc)) := by
  obtain ⟨d, hd, hdigit, hvalue⟩ := toString_eq_digit hg.digit
  unfold Group.text
  rw [hd, List.append_assoc, List.append_assoc, List.singleton_append,
    read_digit hdigit (hvalue ▸ hg.count), hvalue]
  simp only [read_tail hg]

/-- The configuration is one of those that the group stands for. -/
def Group.Holds (f : Family) (g : Group) (c : Configuration) : Prop :=
  ∃ l, g.expand f = .ok l ∧ c ∈ l

theorem exists_close {prev : Option Group} (hprev : ∀ g ∈ prev, ∃ l, g.expand f = .ok l)
    (acc : ConfigurationSet) :
    ∃ set, close f prev acc = .ok set ∧
      ∀ c, c ∈ set ↔ c ∈ acc ∨ ∃ g ∈ prev, g.Holds f c := by
  cases prev with
  | none => exact ⟨acc, rfl, by simp⟩
  | some g =>
      obtain ⟨l, hl⟩ := hprev g rfl
      refine ⟨acc.insertMany l, ?_, fun c => ?_⟩
      · show (do return acc.insertMany (← g.expand f)) = _
        rw [hl]
        rfl
      · rw [Std.ExtTreeSet.mem_insertMany_list, List.contains_iff_mem]
        simp [Group.Holds, hl]

/-- **Groups that are written one after the other stand for what each of them stands for.** -/
theorem exists_read (gs : List Group)
    (hgs : ∀ g ∈ gs, g.Written f ∧ ∃ l, g.expand f = .ok l) :
    ∀ (prev : Option Group) (acc : ConfigurationSet), (∀ g ∈ prev, ∃ l, g.expand f = .ok l) →
      ∃ set, read f (gs.flatMap Group.text) prev acc = .ok set ∧
        ∀ c, c ∈ set ↔ (c ∈ acc ∨ ∃ g ∈ prev, g.Holds f c) ∨ ∃ g ∈ gs, g.Holds f c := by
  induction gs with
  | nil =>
      intro prev acc hprev
      obtain ⟨set, hset, hmem⟩ := exists_close hprev acc
      exact ⟨set, hset, by simp [hmem]⟩
  | cons g rest ih =>
      intro prev acc hprev
      obtain ⟨hg, hexpand⟩ := hgs g List.mem_cons_self
      obtain ⟨closed, hclosed, hmem⟩ := exists_close hprev acc
      obtain ⟨set, hset, hmem'⟩ :=
        ih (fun g hg => hgs g (List.mem_cons_of_mem _ hg)) (some g) closed
          (by simpa using hexpand)
      refine ⟨set, ?_, fun c => ?_⟩
      · rw [List.flatMap_cons, read_text hg, hclosed]
        exact hset
      · rw [hmem', hmem]
        simp [or_assoc]

/-! ### What no group tells apart -/

/-- The set does not tell the pairs apart. -/
def Alike (f : Family) (P : Configuration → Prop) : Prop := ∀ p ∈ f.confused, P p.1 ↔ P p.2

theorem alike_withCount (f : Family) (count : Nat) : Alike f (· ∈ f.withCount count) := by
  have hall : ∀ p ∈ f.confused, p.1 < 2 ^ f.cellCount ∧ p.2 < 2 ^ f.cellCount ∧
      p.1.count = p.2.count := by
    cases f <;> decide +kernel
  intro p hp
  obtain ⟨hlt, hlt', hcount⟩ := hall p hp
  beta_reduce
  rw [Family.mem_withCount, Family.mem_withCount, hcount]
  exact and_congr_left fun _ => iff_of_true hlt hlt'

theorem alike_images {count : Nat} {letter : Char} {c : Configuration}
    (h : f.letter? count letter = some c) : Alike f (· ∈ f.images c) := by
  have hall : ∀ p ∈ f.confused, ∀ e ∈ f.letters, (.ofDigits e.2.2 : Configuration) ∉ f.images p.1 ∧
      (.ofDigits e.2.2 : Configuration) ∉ f.images p.2 := by
    cases f with
    | cross => decide +kernel
    | _ => exact fun p hp => absurd hp List.not_mem_nil
  have hlt := Nat.lt_of_lt_of_le (letter?_lt h) (two_pow_le f)
  unfold Family.letter? at h
  obtain ⟨e, he, rfl⟩ := Option.map_eq_some_iff.mp h
  intro p hp
  obtain ⟨hout, hout'⟩ := hall p hp e (List.mem_of_find?_eq_some he)
  exact iff_of_false (fun hmem => hout (Family.mem_images_symm hlt hmem))
    fun hmem => hout' (Family.mem_images_symm hlt hmem)

theorem alike_flatten {all : List (List Configuration)} (h : ∀ l ∈ all, Alike f (· ∈ l)) :
    Alike f (· ∈ all.flatten) := by
  intro p hp
  beta_reduce
  rw [List.mem_flatten, List.mem_flatten]
  constructor
  · rintro ⟨l, hl, hmem⟩
    exact ⟨l, hl, (h l hl p hp).mp hmem⟩
  · rintro ⟨l, hl, hmem⟩
    exact ⟨l, hl, (h l hl p hp).mpr hmem⟩

theorem alike_chosen {count : Nat} {negated : Bool} {named : List Configuration}
    (h : Alike f (· ∈ named)) : Alike f (· ∈ f.chosen count negated named) := by
  cases negated with
  | false => exact h
  | true =>
      intro p hp
      beta_reduce
      rw [Family.mem_chosen_negated, Family.mem_chosen_negated]
      exact and_congr (alike_withCount f count p hp) (not_congr (h p hp))

theorem alike_expand {g : Group} {l : List Configuration} (h : g.expand f = .ok l) :
    Alike f (· ∈ l) := by
  unfold Group.expand at h
  split at h
  · injection h with h
    subst h
    exact alike_withCount f g.count
  · obtain ⟨all, hall, h⟩ := ok_of_bind h
    injection h with h
    subst h
    refine alike_chosen (alike_flatten fun l hl => ?_)
    obtain ⟨letter, -, hletter⟩ := (ok_of_mapM hall).2 l hl
    unfold named at hletter
    split at hletter
    · rename_i c hc
      injection hletter with hletter
      subst hletter
      exact alike_images hc
    · cases hletter

/-- **Whatever is read, it does not tell the pairs apart.** -/
theorem alike_read {cs : List Char} {set : ConfigurationSet} (h : read f cs none ∅ = .ok set) :
    Alike f (· ∈ set) := by
  refine read_induction (P := fun set => Alike f (· ∈ set)) ?_ cs h ?_
  · intro g acc set hclose hacc
    cases g with
    | none =>
        injection hclose with hclose
        exact hclose ▸ hacc
    | some g =>
        obtain ⟨l, hl, hclose⟩ := ok_of_bind hclose
        injection hclose with hclose
        subst hclose
        intro p hp
        beta_reduce
        rw [Std.ExtTreeSet.mem_insertMany_list, Std.ExtTreeSet.mem_insertMany_list,
          List.contains_iff_mem, List.contains_iff_mem]
        exact or_congr (hacc p hp) (alike_expand hl p hp)
  · exact fun p _ => iff_of_false Std.ExtTreeSet.not_mem_empty Std.ExtTreeSet.not_mem_empty

/-! ### Writing a symmetric set -/

theorem transitions_eq (hf : f ≠ .vonNeumann) (cs : List Char) :
    f.transitions cs = read f cs none ∅ := by
  cases f with
  | vonNeumann => exact absurd rfl hf
  | _ => rfl

theorem written_class {p : Group × List Configuration} (hp : p ∈ f.classes) : p.1.Written f := by
  rcases List.mem_append.mp hp with hletter | hrest
  · obtain ⟨e, he, rfl⟩ := List.mem_map.mp hletter
    obtain ⟨hcount, hlower, -⟩ := Family.letter_of_mem he
    have hcells : 8 ≤ f.cellCount := by cases f <;> decide
    refine ⟨hcount.trans hcells, Nat.lt_succ_of_le (Nat.le_succ_of_le hcount), fun c hc => ?_⟩
    rw [List.mem_singleton.mp hc]
    exact hlower
  · have hall : ∀ p ∈ f.leftOver, p.1.count ≤ f.cellCount ∧ p.1.count < 10 ∧
        p.1.letters.all Char.isLower = true := by
      cases f <;> decide +kernel
    obtain ⟨hcount, hdigit, hletters⟩ := hall p hrest
    exact ⟨hcount, hdigit, List.all_eq_true.mp hletters⟩

/-- Classes can be written together. -/
theorem exists_writes_classes (hf : f ≠ .vonNeumann) {ps : List (Group × List Configuration)}
    (hps : ∀ p ∈ ps, p ∈ f.classes) :
    ∃ spec, f.Writes spec fun c => ∃ p ∈ ps, ∃ r ∈ p.2, c ∈ f.images r := by
  have hgs : ∀ g ∈ ps.map Prod.fst, g.Written f ∧ ∃ l, g.expand f = .ok l := by
    intro g hg
    obtain ⟨p, hp, rfl⟩ := List.mem_map.mp hg
    obtain ⟨l, hl, -⟩ := Family.expand_class (hps p hp)
    exact ⟨written_class (hps p hp), l, hl⟩
  obtain ⟨set, hset, hmem⟩ := exists_read (ps.map Prod.fst) hgs none ∅ (by simp)
  refine ⟨String.ofList ((ps.map Prod.fst).flatMap Group.text), set, ?_, fun c => ?_⟩
  · rw [String.toList_ofList, transitions_eq hf, hset]
  · rw [hmem]
    constructor
    · rintro ((hempty | ⟨g, hg, -⟩) | ⟨g, hg, l, hl, hc⟩)
      · exact absurd hempty Std.ExtTreeSet.not_mem_empty
      · cases hg
      · obtain ⟨p, hp, rfl⟩ := List.mem_map.mp hg
        obtain ⟨l', hl', hstands⟩ := Family.expand_class (hps p hp)
        obtain rfl := Except.ok.inj (hl.symm.trans hl')
        exact ⟨p, hp, (hstands c).mp hc⟩
    · rintro ⟨p, hp, hr⟩
      obtain ⟨l, hl, hstands⟩ := Family.expand_class (hps p hp)
      exact .inr ⟨p.1, List.mem_map_of_mem hp, l, hl, (hstands c).mpr hr⟩

/-- **A symmetric set can be written if it does not tell the pairs apart.** -/
theorem exists_writes {T : Configuration → Prop} (hf : f ≠ .vonNeumann) (h : f.Symmetric T)
    (halike : Alike f T) : ∃ spec, f.Writes spec T := by
  have hcells : f.cellCount = 8 := by
    cases f with
    | vonNeumann => exact absurd rfl hf
    | _ => rfl
  refine Family.exists_writes (fun ps hps => exists_writes_classes hf hps) fun c hc => ?_
  have hlt := (h c hc).1
  rw [hcells] at hlt
  obtain ⟨p, hp, r, hr, hcr⟩ := Family.exists_class hf hlt
  have hTr : T r := h.images hc (Family.mem_images_symm (Family.class_lt hp hr) hcr)
  refine ⟨p, hp, ⟨r, hr, hcr⟩, fun d hd => ?_⟩
  obtain ⟨r', hr', hd⟩ := hd
  exact h.images (Family.class_alike halike hp hr hr' hTr) hd

end Ring

/-! ### The von Neumann family -/

theorem Configuration.ofBits_append (bs bs' : List Bool) :
    ofBits (bs ++ bs') = ofBits bs + 2 ^ bs.length * ofBits bs' := by
  induction bs with
  | nil => simp [ofBits]
  | cons b rest ih =>
      show b.toNat + 2 * ofBits (rest ++ bs') = b.toNat + 2 * ofBits rest + _
      rw [ih, List.length_cons, Nat.pow_succ]
      ring

namespace Pairs

/-- Pairs of letters, each with its entry in the two tables. -/
def names : List ((Nat × Char × String) × Char × String) :=
  Family.ringLetters ×ˢ Family.outerLetters

variable {x : (Nat × Char × String) × Char × String}

/-- The configuration that the inner letter of a pair names. -/
def inner (x : (Nat × Char × String) × Char × String) : Configuration := .ofDigits x.1.2.2

/-- The configuration that the outer letter of a pair names. -/
def ring (x : (Nat × Char × String) × Char × String) : Configuration :=
  Configuration.ofDigits x.2.2 <<< 8

/-- A group of one pair. -/
def text (x : (Nat × Char × String) × Char × String) : List Char :=
  (toString (x.1.1 + (ring x).count)).toList ++ [x.1.2.1, x.2.1]

theorem outer?_of_mem {e : Char × String} (he : e ∈ Family.outerLetters) :
    Family.outer? e.1 = some (Configuration.ofDigits e.2 <<< 8) ∧
      (Configuration.ofDigits e.2 <<< 8 : Configuration).count ≤ 4 ∧ e.1.isLower = true := by
  have hall : ∀ e ∈ Family.outerLetters,
      Family.outer? e.1 = some (Configuration.ofDigits e.2 <<< 8) ∧
        (Configuration.ofDigits e.2 <<< 8 : Configuration).count ≤ 4 ∧ e.1.isLower = true := by
    decide +kernel
  exact hall e he

/-- A pair stands for the images of the configuration that it names. -/
theorem expand_text (hx : x ∈ names) :
    expand (text x) = .ok (Family.vonNeumann.images (inner x ||| ring x)) := by
  obtain ⟨hring, houter⟩ := List.pair_mem_product.mp hx
  obtain ⟨hcount, hlower, hne⟩ := Family.letter_of_mem (f := .moore) hring
  obtain ⟨hsome, hle, hlower'⟩ := outer?_of_mem houter
  have hletter := Family.letter?_of_mem (f := .moore) hring
  have hdigits : ∀ n ≤ 12, Text.unsigned? 32 (toString n).toList = some n := by
    decide
  have htotal : x.1.1 + (ring x).count ≤ 12 := by
    unfold ring
    omega
  have hvalue := hdigits _ htotal
  have hall : ∀ c ∈ (toString (x.1.1 + (ring x).count)).toList, c.isDigit = true :=
    fun c hc => Text.isDigit_of_mem_toString hc
  obtain ⟨-, -, hdigit, hdash⟩ := Text.of_isLower hlower
  have htake : (text x).takeWhile Char.isDigit = (toString (x.1.1 + (ring x).count)).toList := by
    unfold text
    rw [List.takeWhile_append_of_pos hall, List.takeWhile_cons_of_neg (by simp [hdigit]),
      List.append_nil]
  have hdrop : (text x).dropWhile Char.isDigit = [x.1.2.1, x.2.1] := by
    unfold text
    rw [List.dropWhile_append_of_pos hall, List.dropWhile_cons_of_neg (by simp [hdigit])]
  have hnamed : named (x.1.1 + (ring x).count) x.1.2.1 x.2.1
      = .ok (Family.vonNeumann.images (inner x ||| ring x)) := by
    have hsub : x.1.1 + (ring x).count - (ring x).count = x.1.1 := Nat.add_sub_cancel ..
    have hpossible : ¬ (x.1.1 + (ring x).count < (ring x).count ∨ 8 < x.1.1) := by omega
    unfold ring at hsub hpossible ⊢
    unfold named
    rw [hsome]
    simp only [hsub, hpossible, hne, hletter, if_false]
    rfl
  unfold expand
  rw [htake, hdrop, hvalue]
  simp only [Nat.not_lt.mpr htotal, hdash, List.head?_cons, Option.some.injEq, decide_false,
    Bool.false_eq_true, if_false, List.isEmpty_cons, pairs?, Option.map_some, List.mapM_cons,
    List.mapM_nil, hnamed]
  show Except.ok (Family.vonNeumann.chosen (x.1.1 + (ring x).count) false
    [Family.vonNeumann.images (inner x ||| ring x)].flatten) = _
  unfold Family.chosen
  simp

/-! ### Groups between commas -/

theorem groups_append {t : List Char} (hcomma : ',' ∉ t) (htrim : Text.trim t = t) (hne : t ≠ [])
    (rest : List Char) : groups (t ++ ',' :: rest) = t :: groups rest := by
  unfold groups
  rw [Text.pieces_append hcomma, List.map_cons, htrim, List.filter_cons_of_pos (by simp [hne])]

theorem text_plain (hx : x ∈ names) : ∀ c ∈ text x, c ≠ ',' ∧ Text.isBlank c = false := by
  obtain ⟨hring, houter⟩ := List.pair_mem_product.mp hx
  have hlower := Text.of_isLower (Family.letter_of_mem (f := .moore) hring).2.1
  have hlower' := Text.of_isLower (outer?_of_mem houter).2.2
  intro c hc
  unfold text at hc
  rcases List.mem_append.mp hc with hdigit | hletter
  · have hd := Text.isDigit_of_mem_toString hdigit
    refine ⟨?_, Text.isBlank_of_isDigit hd⟩
    rintro rfl
    exact absurd hd (by decide)
  · simp only [List.mem_cons, List.not_mem_nil, or_false] at hletter
    rcases hletter with rfl | rfl
    · exact ⟨hlower.1, hlower.2.1⟩
    · exact ⟨hlower'.1, hlower'.2.1⟩

theorem groups_texts {xs : List ((Nat × Char × String) × Char × String)}
    (hxs : ∀ x ∈ xs, x ∈ names) : groups (xs.flatMap fun x => text x ++ [',']) = xs.map text := by
  induction xs with
  | nil => rfl
  | cons x rest ih =>
      have hplain := text_plain (hxs x List.mem_cons_self)
      have hcomma : ',' ∉ text x := fun hmem => (hplain ',' hmem).1 rfl
      have hne : text x ≠ [] := by simp [text]
      rw [List.flatMap_cons, List.append_assoc, List.singleton_append,
        groups_append hcomma (Text.trim_of_not_blank fun c hc => (hplain c hc).2) hne,
        ih fun y hy => hxs y (List.mem_cons_of_mem x hy), List.map_cons]

/-- Pairs can be written together. -/
theorem exists_writes_names {xs : List ((Nat × Char × String) × Char × String)}
    (hxs : ∀ x ∈ xs, x ∈ names) :
    ∃ spec, Family.vonNeumann.Writes spec fun c =>
      ∃ x ∈ xs, c ∈ Family.vonNeumann.images (inner x ||| ring x) := by
  have hstep : ∀ g ∈ xs.map text, ∀ acc : ConfigurationSet, ∃ set,
      (do return acc.insertMany (← expand g)) = Except.ok set := by
    intro g hg acc
    obtain ⟨x, hx, rfl⟩ := List.mem_map.mp hg
    rw [expand_text (hxs x hx)]
    exact ⟨_, rfl⟩
  obtain ⟨set, hset⟩ := exists_ok_of_foldlM hstep ∅
  refine ⟨String.ofList (xs.flatMap fun x => text x ++ [',']), set, ?_, fun c => ?_⟩
  · rw [String.toList_ofList]
    show read _ = _
    unfold read
    rw [groups_texts hxs, hset]
  · rw [mem_foldlM _ hset]
    constructor
    · rintro (hempty | ⟨g, hg, l, hl, hc⟩)
      · exact absurd hempty Std.ExtTreeSet.not_mem_empty
      · obtain ⟨x, hx, rfl⟩ := List.mem_map.mp hg
        obtain rfl := Except.ok.inj ((expand_text (hxs x hx)).symm.trans hl)
        exact ⟨x, hx, hc⟩
    · rintro ⟨x, hx, hc⟩
      exact .inr ⟨text x, List.mem_map_of_mem hx, _, expand_text (hxs x hx), hc⟩

/-! ### Every configuration has a pair -/

/-- A motion moves the inner ring as it moves the ring of eight cells. -/
theorem permute_mod {s : List Nat} (hs : s ∈ Family.vonNeumann.sources) (c : Configuration) :
    c.permute s % 2 ^ 8 = Configuration.permute (c % 2 ^ 8) (s.take 8) := by
  have hall : ∀ s ∈ Family.vonNeumann.sources, (s.take 8).length = 8 ∧ ∀ i ∈ s.take 8, i < 8 := by
    decide
  obtain ⟨hlen, hlt⟩ := hall s hs
  have hbits : (s.take 8).map c.testBit = (s.take 8).map (c % 2 ^ 8).testBit := by
    refine List.map_congr_left fun i hi => ?_
    rw [Nat.testBit_mod_two_pow, decide_eq_true (hlt i hi), Bool.true_and]
  have hinner := Configuration.ofBits_lt ((s.take 8).map c.testBit)
  rw [List.length_map, hlen] at hinner
  unfold Configuration.permute
  conv_lhs => rw [← List.take_append_drop 8 s]
  rw [List.map_append, Configuration.ofBits_append, List.length_map, hlen,
    Nat.add_mul_mod_self_left, Nat.mod_eq_of_lt hinner, hbits]

/-- **Every configuration is an image of one that a pair names.** -/
theorem exists_name {c : Configuration} (hc : c < 2 ^ 12) :
    ∃ x ∈ names, inner x ||| ring x ∈ Family.vonNeumann.images c := by
  -- The inner ring is an image of one with a letter, and the motion takes the outer cells along.
  have hinner : c % 2 ^ 8 < 2 ^ 8 := Nat.mod_lt _ (by decide)
  obtain ⟨p, hp, r, hr, himage⟩ := Family.exists_class (f := .moore) (by decide) hinner
  have hrlt : r < 2 ^ Family.moore.cellCount := Family.class_lt hp hr
  obtain ⟨e, he, rfl⟩ : ∃ e ∈ Family.ringLetters, r = .ofDigits e.2.2 := by
    rcases List.mem_append.mp hp with hletter | hrest
    · obtain ⟨e, he, rfl⟩ := List.mem_map.mp hletter
      exact ⟨e, he, List.mem_singleton.mp hr⟩
    · exact absurd hrest List.not_mem_nil
  have hback := Family.mem_images_symm hrlt himage
  rw [Family.images_eq hinner] at hback
  obtain ⟨first, hfirst, hmoved⟩ := List.mem_map.mp hback
  have hsources : Family.moore.sources = Family.vonNeumann.sources.map (·.take 8) := by decide
  rw [hsources] at hfirst
  obtain ⟨s, hs, rfl⟩ := List.mem_map.mp hfirst
  have hmod : c.permute s % 2 ^ 8 = .ofDigits e.2.2 := (permute_mod hs c).trans hmoved
  have hlt : c.permute s < 2 ^ 12 := by
    have hbound := c.permute_lt s
    rwa [Family.length_of_mem_sources hs] at hbound
  have houter : ∀ o < 2 ^ 4, ∃ e ∈ Family.outerLetters, Configuration.ofDigits e.2 = o := by
    decide +kernel
  obtain ⟨e', he', hdigits⟩ := houter (c.permute s / 2 ^ 8)
    (Nat.div_lt_of_lt_mul (show c.permute s < 2 ^ 8 * 2 ^ 4 from hlt))
  refine ⟨(e, e'), List.pair_mem_product.mpr ⟨he, he'⟩, ?_⟩
  have hjoined : inner (e, e') ||| ring (e, e') = c.permute s := by
    unfold inner ring
    simp only
    rw [hdigits, ← hmod, Nat.or_comm, ← Nat.shiftLeft_add_eq_or_of_lt (Nat.mod_lt _ (by decide)),
      Nat.shiftLeft_eq, Nat.mul_comm, Nat.div_add_mod]
  rw [hjoined, Family.images_eq hc]
  exact List.mem_map_of_mem hs

/-- **Every symmetric set of the von Neumann family can be written.** -/
theorem exists_writes {T : Configuration → Prop} (h : Family.vonNeumann.Symmetric T) :
    ∃ spec, Family.vonNeumann.Writes spec T := by
  refine Family.exists_writes (fun xs hxs => exists_writes_names hxs) fun c hc => ?_
  have hlt : c < 2 ^ 12 := (h c hc).1
  obtain ⟨x, hx, hname⟩ := exists_name hlt
  refine ⟨x, hx, Family.mem_images_symm hlt hname, fun d hd => ?_⟩
  exact h.images (h.images hc hname) hd

end Pairs

/-! ### All families -/

/--
**Which symmetric sets can be written.**  In every family but the cross each set of configurations
that is symmetric can be written: some specification is read and stands for exactly that set.  Of
the cross those can be written that hold either both or none of the two classes with three cells
on that have no letter, and likewise with five cells on.
-/
theorem Family.writable_iff {f : Family} {T : Configuration → Prop} (h : f.Symmetric T) :
    (∃ spec, f.Writes spec T) ↔ ∀ p ∈ f.confused, T p.1 ↔ T p.2 := by
  constructor
  · rintro ⟨spec, set, hset, hmem⟩ p hp
    have hf : f ≠ .vonNeumann := by
      rintro rfl
      exact absurd hp List.not_mem_nil
    rw [Ring.transitions_eq hf] at hset
    rw [← hmem, ← hmem]
    exact Ring.alike_read hset p hp
  · intro halike
    by_cases hf : f = .vonNeumann
    · subst hf
      exact Pairs.exists_writes h
    · exact Ring.exists_writes hf h halike

/-- The two classes with three cells on, taken together, are symmetric and can be written. -/
theorem Family.writable_of_both_classes :
    let T : Configuration → Prop := fun c => c ∈ cross.images (.ofDigits "01010001") ∨
      c ∈ cross.images (.ofDigits "00010101")
    cross.Symmetric T ∧ ∃ spec, cross.Writes spec T := by
  intro T
  have hsymmetric : cross.Symmetric T :=
    ((closed_images (by decide)).or (closed_images (by decide))).symmetric
  refine ⟨hsymmetric, (writable_iff hsymmetric).mpr ?_⟩
  show ∀ p ∈ cross.confused,
    (p.1 ∈ cross.images (.ofDigits "01010001") ∨ p.1 ∈ cross.images (.ofDigits "00010101")) ↔
      (p.2 ∈ cross.images (.ofDigits "01010001") ∨ p.2 ∈ cross.images (.ofDigits "00010101"))
  decide +kernel

/-- **One of the two classes alone cannot be written,** although it is symmetric. -/
theorem Family.unwritable_class :
    let T : Configuration → Prop := fun c => c ∈ cross.images (.ofDigits "01010001")
    cross.Symmetric T ∧ ¬ ∃ spec, cross.Writes spec T := by
  intro T
  refine ⟨(closed_images (by decide)).symmetric, ?_⟩
  rintro ⟨spec, set, hset, hmem⟩
  have halike := Ring.alike_read (f := .cross) hset (.ofDigits "01010001", .ofDigits "00010101")
    (by simp [confused])
  beta_reduce at halike
  rw [hmem, hmem] at halike
  have hall : (.ofDigits "01010001" : Configuration) ∈ cross.images (.ofDigits "01010001") ∧
      (.ofDigits "00010101" : Configuration) ∉ cross.images (.ofDigits "01010001") := by
    decide +kernel
  exact hall.2 (halike.mp hall.1)

end Cellular
