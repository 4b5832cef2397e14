/-
Cutting what was joined, trimming what was padded, and reading what was written.

Each cut of `Text` undoes a way of joining: `pieces` and `cutAt` give back the part
before a separator that the part does not contain.  Blanks are dropped from the ends of
a text in either order, so a text may lose the blanks at its end before it is trimmed
and nothing shows.  A natural number is read back from its decimal digits, which hold
no separator, no sign and no blank.
-/
import Mathlib.Algebra.Group.Int.Defs
import Mathlib.Algebra.Group.Nat.Defs
import Mathlib.Data.List.DropRight
import Mathlib.Data.List.TakeDrop
import Cellular.Text.Number
import Cellular.Text.Split

namespace Cellular.Text

/-! ### Cutting -/

theorem pieces_cons (sep c : Char) (cs : List Char) (hne : c ≠ sep) :
    ∃ p ps, pieces sep cs = p :: ps ∧ pieces sep (c :: cs) = (c :: p) :: ps := by
  obtain ⟨p, ps, h⟩ := List.exists_cons_of_ne_nil (pieces_ne_nil sep cs)
  refine ⟨p, ps, h, ?_⟩
  unfold pieces at h ⊢
  rw [List.foldr_cons, if_neg hne, h]

theorem pieces_cons_self (sep : Char) (cs : List Char) :
    pieces sep (sep :: cs) = [] :: pieces sep cs := if_pos rfl

/-- The first piece ends at the first separator. -/
theorem pieces_append {sep : Char} {l : List Char} (hl : sep ∉ l) (rest : List Char) :
    pieces sep (l ++ sep :: rest) = l :: pieces sep rest := by
  induction l with
  | nil => exact pieces_cons_self sep rest
  | cons c l ih =>
      rw [List.mem_cons, not_or] at hl
      obtain ⟨p, ps, htail, hwhole⟩ := pieces_cons sep c (l ++ sep :: rest) (Ne.symm hl.1)
      rw [ih hl.2] at htail
      injection htail with hp hps
      rw [List.cons_append, hwhole, ← hp, ← hps]

/-- A text without separators is one piece. -/
theorem pieces_of_not_mem {sep : Char} {l : List Char} (hl : sep ∉ l) : pieces sep l = [l] := by
  induction l with
  | nil => rfl
  | cons c l ih =>
      rw [List.mem_cons, not_or] at hl
      obtain ⟨p, ps, htail, hwhole⟩ := pieces_cons sep c l (Ne.symm hl.1)
      rw [ih hl.2] at htail
      injection htail with hp hps
      rw [hwhole, ← hp, ← hps]

/-- What is joined by separators is cut there again. -/
theorem pieces_intercalate {sep : Char} {ls : List (List Char)} (hne : ls ≠ [])
    (hls : ∀ l ∈ ls, sep ∉ l) : pieces sep ([sep].intercalate ls) = ls := by
  induction ls with
  | nil => exact absurd rfl hne
  | cons l rest ih =>
      cases rest with
      | nil =>
          rw [List.intercalate_singleton]
          exact pieces_of_not_mem (hls l List.mem_cons_self)
      | cons l' rest =>
          rw [List.intercalate_cons_cons, List.append_assoc, List.singleton_append,
            pieces_append (hls l List.mem_cons_self),
            ih (List.cons_ne_nil _ _) fun x hx => hls x (List.mem_cons_of_mem l hx)]

/-- Cutting loses the separators and nothing else. -/
theorem flatten_pieces (sep : Char) (cs : List Char) :
    (pieces sep cs).flatten = cs.filter (· ≠ sep) := by
  induction cs with
  | nil => rfl
  | cons c rest ih =>
      by_cases hc : c = sep
      · rw [hc, pieces_cons_self, List.filter_cons_of_neg (by simp), ← ih]
        rfl
      · obtain ⟨p, ps, htail, hwhole⟩ := pieces_cons sep c rest hc
        rw [hwhole, List.filter_cons_of_pos (by simpa using hc), ← ih, htail]
        rfl

/-- Cutting leaves every other character in one of the pieces. -/
theorem mem_pieces {sep c : Char} {cs : List Char} (hne : c ≠ sep) :
    c ∈ cs ↔ ∃ piece ∈ pieces sep cs, c ∈ piece := by
  rw [← List.mem_flatten, flatten_pieces, List.mem_filter]
  simp [hne]

theorem cutAt_append {sep : Char} {l : List Char} (hl : sep ∉ l) (rest : List Char) :
    cutAt sep (l ++ sep :: rest) = some (l, rest) := by
  have hall : ∀ c ∈ l, decide (c ≠ sep) = true := by
    intro c hc
    refine decide_eq_true ?_
    intro heq
    rw [heq] at hc
    exact hl hc
  unfold cutAt
  rw [List.span_eq_takeWhile_dropWhile, List.takeWhile_append_of_pos hall,
    List.dropWhile_append_of_pos hall, List.takeWhile_cons_of_neg (by simp),
    List.dropWhile_cons_of_neg (by simp), List.append_nil]

/-- A text without separators is not cut. -/
theorem cutAt_of_not_mem {sep : Char} {l : List Char} (hl : sep ∉ l) : cutAt sep l = none := by
  have hall : ∀ c ∈ l, decide (c ≠ sep) = true := by
    intro c hc
    refine decide_eq_true ?_
    rintro rfl
    exact hl hc
  unfold cutAt
  rw [List.span_eq_takeWhile_dropWhile, List.dropWhile_eq_nil_iff.mpr hall]

theorem cutAt_cons {sep c : Char} (hne : c ≠ sep) (cs : List Char) :
    cutAt sep (c :: cs) = (cutAt sep cs).map fun p => (c :: p.1, p.2) := by
  unfold cutAt
  rw [List.span_eq_takeWhile_dropWhile, List.span_eq_takeWhile_dropWhile,
    List.takeWhile_cons_of_pos (by simpa using hne),
    List.dropWhile_cons_of_pos (by simpa using hne)]
  cases cs.dropWhile (· ≠ sep) with
  | nil => rfl
  | cons d rest => rfl

/-- What follows the separator is a part of the text. -/
theorem sublist_of_cutAt {sep : Char} {cs before after : List Char}
    (h : cutAt sep cs = some (before, after)) : after.Sublist cs := by
  unfold cutAt at h
  rw [List.span_eq_takeWhile_dropWhile] at h
  cases hdrop : cs.dropWhile (· ≠ sep) with
  | nil =>
      rw [hdrop] at h
      simp at h
  | cons c rest =>
      rw [hdrop] at h
      injection h with h
      injection h with _ h
      subst h
      exact (List.sublist_cons_self c rest).trans
        (hdrop ▸ (List.dropWhile_suffix _).sublist)

/-! ### Trimming -/

theorem trimEnd_cons_of_not_blank {c : Char} (hc : isBlank c = false) (cs : List Char) :
    trimEnd (c :: cs) = c :: trimEnd cs := by
  unfold trimEnd
  rw [List.reverse_cons, List.dropWhile_append]
  split
  · rename_i hnil
    rw [List.isEmpty_iff.mp hnil, List.dropWhile_cons_of_neg (by simp [hc])]
    rfl
  · rw [List.reverse_append]
    rfl

theorem trimEnd_cons_of_blank {c : Char} (hc : isBlank c = true) (cs : List Char) :
    trimEnd (c :: cs) = if trimEnd cs = [] then [] else c :: trimEnd cs := by
  unfold trimEnd
  rw [List.reverse_cons, List.dropWhile_append, List.dropWhile_cons_of_pos hc, List.dropWhile_nil]
  simp only [List.isEmpty_iff, List.reverse_eq_nil_iff]
  split
  · rfl
  · rw [List.reverse_append]
    rfl

/-- Blanks are dropped at the end of what follows the last letter only. -/
theorem trimEnd_append {l : List Char} {c : Char} (hc : isBlank c = false) (cs : List Char) :
    trimEnd (l ++ c :: cs) = l ++ c :: trimEnd cs := by
  induction l with
  | nil => exact trimEnd_cons_of_not_blank hc cs
  | cons d l ih =>
      rw [List.cons_append]
      by_cases hd : isBlank d = true
      · rw [trimEnd_cons_of_blank hd, ih, if_neg (by simp)]
        rfl
      · rw [trimEnd_cons_of_not_blank (Bool.eq_false_iff.mpr hd), ih]
        rfl

theorem trimStart_trimEnd (cs : List Char) : trimStart (trimEnd cs) = trimEnd (trimStart cs) := by
  induction cs with
  | nil => rfl
  | cons c rest ih =>
      by_cases hc : isBlank c = true
      · have hstart : trimStart (c :: rest) = trimStart rest := List.dropWhile_cons_of_pos hc
        rw [hstart, trimEnd_cons_of_blank hc, ← ih]
        split
        · rename_i hnil
          rw [hnil]
        · exact List.dropWhile_cons_of_pos hc
      · have hneg : ¬isBlank c = true := hc
        rw [Bool.not_eq_true] at hc
        have hstart : trimStart (c :: rest) = c :: rest := List.dropWhile_cons_of_neg hneg
        rw [hstart, trimEnd_cons_of_not_blank hc]
        exact List.dropWhile_cons_of_neg hneg

theorem trimEnd_trimEnd (cs : List Char) : trimEnd (trimEnd cs) = trimEnd cs :=
  List.rdropWhile_idempotent isBlank cs

@[simp] theorem trim_trimEnd (cs : List Char) : trim (trimEnd cs) = trim cs := by
  unfold trim
  rw [trimStart_trimEnd, trimEnd_trimEnd]

theorem trim_cons_of_blank {c : Char} (hc : isBlank c = true) (cs : List Char) :
    trim (c :: cs) = trim cs := by
  unfold trim
  rw [show trimStart (c :: cs) = trimStart cs from List.dropWhile_cons_of_pos hc]

theorem trim_cons_of_not_blank {c : Char} (hc : isBlank c = false) (cs : List Char) :
    trim (c :: cs) = c :: trimEnd cs := by
  have hneg : ¬isBlank c = true := by simp [hc]
  unfold trim
  rw [show trimStart (c :: cs) = c :: cs from List.dropWhile_cons_of_neg hneg,
    trimEnd_cons_of_not_blank hc]

theorem trimEnd_of_not_blank {cs : List Char} (h : ∀ c ∈ cs, isBlank c = false) :
    trimEnd cs = cs := by
  induction cs with
  | nil => rfl
  | cons c rest ih =>
      rw [trimEnd_cons_of_not_blank (h c List.mem_cons_self),
        ih fun d hd => h d (List.mem_cons_of_mem c hd)]

/-- A text without blanks stays as it is. -/
theorem trim_of_not_blank {cs : List Char} (h : ∀ c ∈ cs, isBlank c = false) : trim cs = cs := by
  cases cs with
  | nil => rfl
  | cons c rest =>
      rw [trim_cons_of_not_blank (h c List.mem_cons_self),
        trimEnd_of_not_blank fun d hd => h d (List.mem_cons_of_mem c hd)]

/-- What is left of a text is a part of it. -/
theorem trim_sublist (cs : List Char) : (trim cs).Sublist cs :=
  (List.rdropWhile_prefix isBlank (trimStart cs)).sublist.trans
    (List.dropWhile_suffix isBlank).sublist

private theorem mem_dropWhile {c : Char} (hc : isBlank c = false) {cs : List Char}
    (hmem : c ∈ cs) : c ∈ cs.dropWhile isBlank := by
  rw [← List.takeWhile_append_dropWhile (p := isBlank) (l := cs)] at hmem
  rcases List.mem_append.mp hmem with hblank | hrest
  · rw [List.mem_takeWhile_imp hblank] at hc
    exact absurd hc (by decide)
  · exact hrest

/-- Trimming loses blanks only. -/
theorem mem_trim {c : Char} (hc : isBlank c = false) {cs : List Char} : c ∈ trim cs ↔ c ∈ cs := by
  refine ⟨(trim_sublist cs).mem, fun hmem => ?_⟩
  unfold trim trimEnd trimStart
  rw [List.mem_reverse]
  exact mem_dropWhile hc (List.mem_reverse.mpr (mem_dropWhile hc hmem))

/-- Without its blanks a text is the same, trimmed or not. -/
theorem filter_trim (cs : List Char) :
    (trim cs).filter (!isBlank ·) = cs.filter (!isBlank ·) := by
  have hdrop : ∀ l : List Char, (l.dropWhile isBlank).filter (!isBlank ·) = l.filter (!isBlank ·) := by
    intro l
    induction l with
    | nil => rfl
    | cons c rest ih =>
        by_cases hc : isBlank c = true
        · rw [List.dropWhile_cons_of_pos hc, ih, List.filter_cons_of_neg (by simp [hc])]
        · rw [List.dropWhile_cons_of_neg hc]
  unfold trim trimEnd trimStart
  rw [List.filter_reverse, hdrop, List.filter_reverse, List.reverse_reverse, hdrop]

/-! ### The ends of the pieces

Blanks at the ends of a text are at the ends of its first and its last piece.
-/

private theorem map_trimEnd_pieces {sep : Char} (hsep : isBlank sep = false) (cs : List Char) :
    (pieces sep (trimEnd cs)).map trimEnd = (pieces sep cs).map trimEnd := by
  induction cs with
  | nil => rfl
  | cons c rest ih =>
      by_cases hc : isBlank c = true
      · have hne : c ≠ sep := by
          rintro rfl
          rw [hsep] at hc
          exact Bool.noConfusion hc
        obtain ⟨p, ps, htail, hwhole⟩ := pieces_cons sep c rest hne
        rw [hwhole, trimEnd_cons_of_blank hc]
        rw [htail] at ih
        split
        · rename_i hnil
          rw [hnil] at ih
          obtain ⟨hp, hps⟩ := List.cons.inj ih
          rw [List.map_cons, trimEnd_cons_of_blank hc, ← hp, ← hps]
          rfl
        · obtain ⟨q, qs, htail', hwhole'⟩ := pieces_cons sep c (trimEnd rest) hne
          rw [htail'] at ih
          obtain ⟨hp, hps⟩ := List.cons.inj ih
          rw [hwhole', List.map_cons, List.map_cons, trimEnd_cons_of_blank hc,
            trimEnd_cons_of_blank hc, hp, hps]
      · have hc' : isBlank c = false := Bool.eq_false_iff.mpr hc
        rw [trimEnd_cons_of_not_blank hc']
        by_cases hne : c = sep
        · rw [hne, pieces_cons_self, pieces_cons_self, List.map_cons, List.map_cons, ih]
        · obtain ⟨p, ps, htail, hwhole⟩ := pieces_cons sep c rest hne
          obtain ⟨q, qs, htail', hwhole'⟩ := pieces_cons sep c (trimEnd rest) hne
          rw [htail, htail'] at ih
          obtain ⟨hp, hps⟩ := List.cons.inj ih
          rw [hwhole, hwhole', List.map_cons, List.map_cons, trimEnd_cons_of_not_blank hc',
            trimEnd_cons_of_not_blank hc', hp, hps]

private theorem map_trim_pieces_trimStart {sep : Char} (hsep : isBlank sep = false)
    (cs : List Char) : (pieces sep (trimStart cs)).map trim = (pieces sep cs).map trim := by
  induction cs with
  | nil => rfl
  | cons c rest ih =>
      by_cases hc : isBlank c = true
      · have hne : c ≠ sep := by
          rintro rfl
          rw [hsep] at hc
          exact Bool.noConfusion hc
        obtain ⟨p, ps, htail, hwhole⟩ := pieces_cons sep c rest hne
        have hstart : trimStart (c :: rest) = trimStart rest := List.dropWhile_cons_of_pos hc
        rw [hstart, ih, hwhole, htail, List.map_cons, List.map_cons, trim_cons_of_blank hc]
      · have hstart : trimStart (c :: rest) = c :: rest := List.dropWhile_cons_of_neg hc
        rw [hstart]

/-- Trimmed pieces do not show whether the text was trimmed. -/
theorem map_trim_pieces_trim {sep : Char} (hsep : isBlank sep = false) (cs : List Char) :
    (pieces sep (trim cs)).map trim = (pieces sep cs).map trim := by
  have hmap : ∀ l : List (List Char), l.map trim = (l.map trimEnd).map trim := by
    intro l
    rw [List.map_map]
    exact List.map_congr_left fun piece _ => (trim_trimEnd piece).symm
  have hends : (pieces sep (trimEnd (trimStart cs))).map trim
      = (pieces sep (trimStart cs)).map trim := by
    rw [hmap, map_trimEnd_pieces hsep, ← hmap]
  exact hends.trans (map_trim_pieces_trimStart hsep cs)

/-- Cutting and trimming leave every character that is no blank in one of the pieces. -/
theorem exists_trimmed_piece {sep c : Char} {cs : List Char} (hne : c ≠ sep)
    (hblank : isBlank c = false) (hc : c ∈ cs) : ∃ piece ∈ (pieces sep cs).map trim, c ∈ piece := by
  obtain ⟨piece, hpiece, hin⟩ := (mem_pieces hne).mp hc
  exact ⟨trim piece, List.mem_map_of_mem hpiece, (mem_trim hblank).mpr hin⟩

/-- A line holds no line feed. -/
theorem not_mem_line {text : String} {line : Nat × List Char} (h : line ∈ numberedLines text) :
    '\n' ∉ line.2 := by
  obtain ⟨⟨piece, number⟩, hpiece, rfl⟩ := List.mem_map.mp h
  intro hmem
  have hflat : '\n' ∈ (pieces '\n' text.toList).flatten :=
    List.mem_flatten.mpr ⟨piece, List.fst_mem_of_mem_zipIdx hpiece, (trim_sublist piece).mem hmem⟩
  rw [flatten_pieces, List.mem_filter, decide_eq_true_eq] at hflat
  exact hflat.2 rfl

/-! ### Words -/

/-- A text is cut before the first word if nothing before it starts like the word. -/
theorem beforeWord_append {c : Char} {word l : List Char} (hl : c ∉ l) (rest : List Char) :
    beforeWord (c :: word) (l ++ c :: (word ++ rest)) = some (l, c :: (word ++ rest)) := by
  induction l with
  | nil =>
      unfold beforeWord
      exact if_pos (List.isPrefixOf_iff_prefix.mpr (List.prefix_append (c :: word) rest))
  | cons d l ih =>
      rw [List.mem_cons, not_or] at hl
      have hprefix : ¬(c :: word).isPrefixOf (d :: (l ++ c :: (word ++ rest))) = true := by
        rw [List.isPrefixOf_iff_prefix, List.cons_prefix_cons]
        exact fun h => hl.1 h.1
      rw [List.cons_append]
      unfold beforeWord
      rw [if_neg hprefix, ih hl.2]
      rfl

/-- A word does not occur where its first character does not. -/
theorem beforeWord_eq_none {c : Char} {word cs : List Char} (h : c ∉ cs) :
    beforeWord (c :: word) cs = none := by
  induction cs with
  | nil => rfl
  | cons d cs ih =>
      rw [List.mem_cons, not_or] at h
      have hprefix : ¬(c :: word).isPrefixOf (d :: cs) = true := by
        rw [List.isPrefixOf_iff_prefix, List.cons_prefix_cons]
        exact fun hboth => h.1 hboth.1
      unfold beforeWord
      rw [if_neg hprefix, ih h.2]
      rfl

/-- Cutting before a word loses nothing. -/
theorem append_of_beforeWord {word : List Char} (cs : List Char) :
    ∀ {before rest : List Char}, beforeWord word cs = some (before, rest) →
      before ++ rest = cs := by
  induction cs with
  | nil =>
      intro before rest h
      unfold beforeWord at h
      split at h
      · injection h with h
        injection h with hbefore hrest
        rw [← hbefore, ← hrest]
        rfl
      · simp at h
  | cons c cs ih =>
      intro before rest h
      unfold beforeWord at h
      split at h
      · injection h with h
        injection h with hbefore hrest
        rw [← hbefore, ← hrest]
        rfl
      · obtain ⟨⟨before', rest'⟩, hcut, heq⟩ := Option.map_eq_some_iff.mp h
        injection heq with hbefore hrest
        rw [← hbefore, ← hrest, List.cons_append, ih hcut]

/-- The first occurrence of a word does not come after another. -/
theorem beforeWord_of_suffix {word rest cs : List Char} (h : word ++ rest <:+ cs) :
    ∃ before after, beforeWord word cs = some (before, after) ∧ word ++ rest <:+ after := by
  induction cs with
  | nil =>
      obtain ⟨hword, -⟩ := List.append_eq_nil_iff.mp (List.suffix_nil.mp h)
      exact ⟨[], [], by rw [hword]; rfl, h⟩
  | cons c cs ih =>
      unfold beforeWord
      split
      · exact ⟨[], c :: cs, rfl, h⟩
      · rename_i hprefix
        rcases List.suffix_cons_iff.mp h with hwhole | htail
        · exact absurd (List.isPrefixOf_iff_prefix.mpr ⟨rest, hwhole⟩) hprefix
        · obtain ⟨before, after, hcut, hafter⟩ := ih htail
          exact ⟨c :: before, after, by rw [hcut]; rfl, hafter⟩

/-- A text is cut at the first occurrence of a character. -/
theorem not_mem_of_beforeWord {c : Char} (cs : List Char) :
    ∀ {before rest : List Char}, beforeWord [c] cs = some (before, rest) → c ∉ before := by
  induction cs with
  | nil =>
      intro before rest h
      simp [beforeWord] at h
  | cons d cs ih =>
      intro before rest h
      unfold beforeWord at h
      split at h
      · injection h with h
        injection h with hbefore
        rw [← hbefore]
        exact List.not_mem_nil
      · rename_i hprefix
        obtain ⟨⟨before', rest'⟩, hcut, heq⟩ := Option.map_eq_some_iff.mp h
        injection heq with hbefore
        rw [← hbefore, List.mem_cons, not_or]
        refine ⟨?_, ih hcut⟩
        rintro rfl
        exact hprefix (List.isPrefixOf_iff_prefix.mpr ⟨cs, rfl⟩)

theorem lower_of_not_upper {cs : List Char} (h : ∀ c ∈ cs, c.isUpper = false) : lower cs = cs := by
  unfold lower
  refine (List.map_congr_left fun c hc => ?_).trans (List.map_id _)
  exact dif_neg (of_decide_eq_false (h c hc))

/-! ### Numbers -/

theorem isDigit_range {c : Char} (hc : c.isDigit = true) : 48 ≤ c.toNat ∧ c.toNat ≤ 57 := by
  simp only [Char.isDigit, Bool.and_eq_true, decide_eq_true_eq, UInt32.le_iff_toNat_le] at hc
  exact hc

theorem digitValue_lt {c : Char} (hc : c.isDigit = true) : digitValue c < 10 := by
  have hrange := isDigit_range hc
  show c.toNat - 48 < 10
  omega

/-- From the first digit to the last letter there is no blank. -/
theorem isBlank_of_range {c : Char} (h : 48 ≤ c.toNat ∧ c.toNat ≤ 122) : isBlank c = false := by
  simp only [isBlank, blankRanges, List.any_cons, List.any_nil, Bool.or_false,
    Bool.or_eq_false_iff, Bool.and_eq_false_iff, decide_eq_false_iff_not]
  omega

theorem isBlank_of_isDigit {c : Char} (hc : c.isDigit = true) : isBlank c = false := by
  have hrange := isDigit_range hc
  exact isBlank_of_range (by omega)

theorem of_isLower {c : Char} (hc : c.isLower = true) :
    c ≠ ',' ∧ isBlank c = false ∧ c.isDigit = false ∧ c ≠ '-' := by
  have hbounds : (decide (c.val ≥ 'a'.val) && decide (c.val ≤ 'z'.val)) = true := hc
  rw [Bool.and_eq_true, decide_eq_true_eq, decide_eq_true_eq] at hbounds
  have hrange : 97 ≤ c.toNat ∧ c.toNat ≤ 122 := hbounds
  refine ⟨?_, isBlank_of_range (by omega), ?_, ?_⟩
  · rintro rfl
    simp at hrange
  · refine Bool.eq_false_iff.mpr fun hdigit => ?_
    have hdigits := isDigit_range hdigit
    omega
  · rintro rfl
    simp at hrange

theorem isDigit_of_mem_toString {n : Nat} {c : Char} (hc : c ∈ (toString n).toList) :
    c.isDigit = true := by
  rw [show toString n = n.repr from rfl, Nat.toList_repr] at hc
  exact Nat.isDigit_of_mem_toDigits (by decide) (by decide) hc

theorem toString_ne_nil (n : Nat) : (toString n).toList ≠ [] := by
  rw [show toString n = n.repr from rfl, Nat.toList_repr]
  exact Nat.toDigits_ne_nil

theorem digitsValue_toString (n : Nat) : digitsValue (toString n).toList = n := by
  rw [show toString n = n.repr from rfl, Nat.toList_repr]
  calc digitsValue (Nat.toDigits 10 n)
      = Nat.ofDigitChars 10 (Nat.toDigits 10 n) 0 := Nat.ofDigitChars_eq_foldl.symm
    _ = n := Nat.ofDigitChars_ten_toDigits

theorem isBlank_of_mem_toString {n : Nat} {c : Char} (hc : c ∈ (toString n).toList) :
    isBlank c = false := isBlank_of_isDigit (isDigit_of_mem_toString hc)

theorem not_mem_toString {n : Nat} {c : Char} (hc : c.isDigit = false) :
    c ∉ (toString n).toList := by
  intro hmem
  rw [isDigit_of_mem_toString hmem] at hc
  exact Bool.noConfusion hc

/-- One or more digits. -/
def Digits (cs : List Char) : Prop := cs ≠ [] ∧ ∀ c ∈ cs, c.isDigit = true

theorem digits_toString (n : Nat) : Digits (toString n).toList :=
  ⟨toString_ne_nil n, fun _ hc => isDigit_of_mem_toString hc⟩

theorem digits?_eq_some_iff {cs : List Char} {n : Nat} :
    digits? cs = some n ↔ Digits cs ∧ digitsValue cs = n := by
  have htest : (!cs.isEmpty && cs.all Char.isDigit) = true ↔ Digits cs := by
    rw [Bool.and_eq_true, Bool.not_eq_true', List.isEmpty_eq_false_iff, List.all_eq_true]
    rfl
  unfold digits?
  split
  · rename_i h
    rw [Option.some_inj, and_iff_right (htest.mp h)]
  · rename_i h
    rw [htest] at h
    simp [h]

/-- The ways of writing an integer: digits, of which the first may be zeros, with a sign or
without one. -/
inductive Numeral : List Char → Int → Prop
  | digits {cs : List Char} (h : Digits cs) : Numeral cs (digitsValue cs)
  | plus {cs : List Char} (h : Digits cs) : Numeral ('+' :: cs) (digitsValue cs)
  | minus {cs : List Char} (h : Digits cs) : Numeral ('-' :: cs) (-digitsValue cs)

/-- A number holds digits and its sign. -/
theorem Numeral.chars {cs : List Char} {n : Int} (h : Numeral cs n) :
    ∀ c ∈ cs, c = '-' ∨ c = '+' ∨ c.isDigit = true := by
  intro c hc
  cases h with
  | digits h => exact Or.inr (Or.inr (h.2 c hc))
  | plus h =>
      rcases List.mem_cons.mp hc with hsign | htail
      · exact Or.inr (Or.inl hsign)
      · exact Or.inr (Or.inr (h.2 c htail))
  | minus h =>
      rcases List.mem_cons.mp hc with hsign | htail
      · exact Or.inl hsign
      · exact Or.inr (Or.inr (h.2 c htail))

/-- **A number is read if it is written as one and in range.** -/
theorem signed?_eq_some_iff {bits : Nat} {cs : List Char} {n : Int} :
    signed? bits cs = some n ↔ Numeral cs n ∧ -(2 ^ (bits - 1)) ≤ n ∧ n < 2 ^ (bits - 1) := by
  -- `signed?` lifts the digits to the integers before it negates them
  have hminus : ∀ ds : List Char, ((digits? ds).map fun k => -(k : Int))
      = (digits? ds).map fun k : Nat => -(k : Int) := fun ds => by cases digits? ds <;> rfl
  have hvalue : ∀ (f : Nat → Int) (ds : List Char),
      (digits? ds).map f = some n ↔ Digits ds ∧ f (digitsValue ds) = n := by
    intro f ds
    simp only [Option.map_eq_some_iff, digits?_eq_some_iff, and_assoc, exists_and_left,
      exists_eq_left']
  unfold signed?
  simp only [Option.filter_eq_some_iff, Bool.and_eq_true, decide_eq_true_eq, Nat.one_shiftLeft,
    Int.natCast_pow, Int.cast_ofNat_Int]
  refine and_congr_left fun _ => ?_
  split
  · rw [hminus, hvalue]
    constructor
    · rintro ⟨h, rfl⟩
      exact .minus h
    · intro h
      cases h with
      | digits h => exact absurd (h.2 '-' List.mem_cons_self) (by decide)
      | minus h => exact ⟨h, rfl⟩
  · rw [hvalue]
    constructor
    · rintro ⟨h, rfl⟩
      exact .plus h
    · intro h
      cases h with
      | digits h => exact absurd (h.2 '+' List.mem_cons_self) (by decide)
      | plus h => exact ⟨h, rfl⟩
  · rename_i hnotMinus hnotPlus
    rw [hvalue]
    constructor
    · rintro ⟨h, rfl⟩
      exact .digits h
    · intro h
      cases h with
      | digits h => exact ⟨h, rfl⟩
      | plus h => exact absurd rfl (hnotPlus _)
      | minus h => exact absurd rfl (hnotMinus _)

theorem chars_of_signed? {bits : Nat} {cs : List Char} {n : Int} (h : signed? bits cs = some n) :
    ∀ c ∈ cs, c = '-' ∨ c = '+' ∨ c.isDigit = true := (signed?_eq_some_iff.mp h).1.chars

/-- The ways of writing a natural number: digits, of which the first may be zeros, with a plus sign
or without one. -/
inductive Unsigned : List Char → Nat → Prop
  | digits {cs : List Char} (h : Digits cs) : Unsigned cs (digitsValue cs)
  | plus {cs : List Char} (h : Digits cs) : Unsigned ('+' :: cs) (digitsValue cs)

/-- An unsigned number holds digits and its sign. -/
theorem Unsigned.chars {cs : List Char} {n : Nat} (h : Unsigned cs n) :
    ∀ c ∈ cs, c = '+' ∨ c.isDigit = true := by
  intro c hc
  cases h with
  | digits h => exact Or.inr (h.2 c hc)
  | plus h =>
      rcases List.mem_cons.mp hc with hsign | htail
      · exact Or.inl hsign
      · exact Or.inr (h.2 c htail)

/-- **An unsigned number is read if it is written as one and in range.** -/
theorem unsigned?_eq_some_iff {bits : Nat} {cs : List Char} {n : Nat} :
    unsigned? bits cs = some n ↔ Unsigned cs n ∧ n < 2 ^ bits := by
  unfold unsigned?
  rw [Option.filter_eq_some_iff, digits?_eq_some_iff, decide_eq_true_eq, Nat.one_shiftLeft]
  refine and_congr_left fun _ => ?_
  split
  · constructor
    · rintro ⟨h, rfl⟩
      exact .plus h
    · intro h
      cases h with
      | digits h => exact absurd (h.2 '+' List.mem_cons_self) (by decide)
      | plus h => exact ⟨h, rfl⟩
  · rename_i hnotPlus
    constructor
    · rintro ⟨h, rfl⟩
      exact .digits h
    · intro h
      cases h with
      | digits h => exact ⟨h, rfl⟩
      | plus h => exact absurd rfl (hnotPlus _)

theorem chars_of_unsigned? {bits : Nat} {cs : List Char} {n : Nat}
    (h : unsigned? bits cs = some n) : ∀ c ∈ cs, c = '+' ∨ c.isDigit = true :=
  (unsigned?_eq_some_iff.mp h).1.chars

/-- Digits alone are read as the number that they write, if it is in range. -/
theorem unsigned?_of_digits {bits : Nat} {cs : List Char} {n : Nat}
    (h : ∀ c ∈ cs, c.isDigit = true) :
    unsigned? bits cs = some n ↔ cs ≠ [] ∧ digitsValue cs = n ∧ n < 2 ^ bits := by
  unfold unsigned?
  split
  · exact absurd (h '+' List.mem_cons_self) (by decide)
  · rw [Option.filter_eq_some_iff, digits?_eq_some_iff, decide_eq_true_eq, Nat.one_shiftLeft,
      Digits, and_iff_left h, and_assoc]

/-- What is written is one number only. -/
theorem Unsigned.unique {cs : List Char} {m n : Nat} (hm : Unsigned cs m) (hn : Unsigned cs n) :
    m = n := by
  have hread : ∀ k ≤ max m n, Unsigned cs k → unsigned? (max m n) cs = some k := fun k hk h =>
    unsigned?_eq_some_iff.mpr ⟨h, Nat.lt_of_le_of_lt hk Nat.lt_two_pow_self⟩
  exact Option.some_inj.mp
    ((hread m (Nat.le_max_left m n) hm).symm.trans (hread n (Nat.le_max_right m n) hn))

/-- A natural number is written by its digits. -/
theorem unsigned_toString (n : Nat) : Unsigned (toString n).toList n := by
  have h := Unsigned.digits (digits_toString n)
  rwa [digitsValue_toString] at h

/-- A size is read back if it is a signed number of 64 bits. -/
theorem signed?_toString {n : Nat} (hn : n < 2 ^ 63) :
    signed? 64 (toString n).toList = some (n : Int) := by
  have hnumeral := Numeral.digits (digits_toString n)
  rw [digitsValue_toString] at hnumeral
  exact signed?_eq_some_iff.mpr ⟨hnumeral, by omega, by omega⟩

end Cellular.Text
