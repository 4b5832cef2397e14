/-
Surface specifiers, read and written.

`Spelling` lists the ways of specifying a surface: the sign or the word for the plane, and for a
box its letter in either case, followed by one size or by two with blanks around each, where
zeros and a plus sign may stand in front of a size.  Reading accepts exactly these texts, with
blanks at their ends (`ofSpecifier_eq_ok_iff`).  What is written is one of them, so reading gives
the surface back, and reading and writing again brings every text that is accepted to the one
form that is written (`specifier_round_trip`).
-/
import Mathlib
import Cellular.Proofs.Surface
import Cellular.Proofs.Text
import Cellular.Surface.Specifier

namespace Cellular

/-! ### Letters -/

/-- A letter stands for a joining in either case, and no other letter does. -/
theorem Joining.ofSymbol?_eq_some_iff {letter : Char} {joining : Joining} :
    Joining.ofSymbol? letter = some joining ↔
      letter = joining.symbol ∨ letter = joining.symbol.toLower := by
  constructor
  · intro h
    have hupper : letter.toUpper = joining.symbol := by
      unfold Joining.ofSymbol? at h
      split at h
      case h_6 => simp at h
      all_goals
        injection h with h
        rw [← h]
        assumption
    by_cases hlower : letter.isLower
    · right
      rw [← hupper, Char.toLower_toUpper_eq_toLower,
        Char.toLower_eq_of_not_isUpper (Char.not_isUpper_of_isLower hlower)]
    · left
      rw [← hupper, Char.toUpper_eq_of_not_isLower hlower]
  · rintro (rfl | rfl) <;> cases joining <;> rfl

namespace Surface

/-! ### Sizes -/

/-- A size is written as a number that is not negative; only nought takes a minus sign. -/
def Size (cs : List Char) (size : Int) : Prop := Text.Numeral cs size ∧ 0 ≤ size ∧ size < 2 ^ 63

/-- The ways of writing the sizes of a box: once for a square, or the width and the height with
a comma between them and blanks around each. -/
inductive Sizes : List Char → Int → Int → Prop
  | square {cs : List Char} {size : Int} (h : Size cs size) : Sizes cs size size
  | sides {before after : List Char} {width height : Int}
      (hwidth : Size (Text.trim before) width) (hheight : Size (Text.trim after) height) :
      Sizes (before ++ ',' :: after) width height

theorem size_iff {cs : List Char} {size : Int} :
    Size cs size ↔ Text.signed? 64 cs = some size ∧ 0 ≤ size := by
  rw [Text.signed?_eq_some_iff]
  unfold Size
  constructor
  · rintro ⟨h, hnonneg, hlt⟩
    exact ⟨⟨h, by omega, hlt⟩, hnonneg⟩
  · rintro ⟨⟨h, -, hlt⟩, hnonneg⟩
    exact ⟨h, hnonneg, hlt⟩

theorem Size.no_comma {cs : List Char} {size : Int} (h : Size cs size) : ',' ∉ cs := by
  intro hmem
  rcases h.1.chars _ hmem with h | h | h
  · exact absurd h (by decide)
  · exact absurd h (by decide)
  · exact absurd h (by decide)

/-- What is written is one size only. -/
theorem Size.unique {cs : List Char} {size size' : Int} (h : Size cs size) (h' : Size cs size') :
    size = size' :=
  Option.some_inj.mp ((size_iff.mp h).1.symm.trans (size_iff.mp h').1)

/-- Two numbers are taken for sizes if neither is negative. -/
theorem bothSizes_iff {a b : List Char} {width height : Int} :
    ((Text.signed? 64 a).bind fun w => (Text.signed? 64 b).bind fun h =>
        if 0 ≤ w ∧ 0 ≤ h then some (w, h) else none) = some (width, height) ↔
      Size a width ∧ Size b height := by
  simp only [Option.bind_eq_some_iff, size_iff]
  constructor
  · rintro ⟨w, hw, h, hh, hif⟩
    split at hif
    · rename_i hnonneg
      injection hif with hpair
      injection hpair with hwidth hheight
      rw [← hwidth, ← hheight]
      exact ⟨⟨hw, hnonneg.1⟩, hh, hnonneg.2⟩
    · simp at hif
  · rintro ⟨⟨hw, hwidth⟩, hh, hheight⟩
    exact ⟨width, hw, height, hh, if_pos ⟨hwidth, hheight⟩⟩

theorem sizes?_of_no_comma {cs : List Char} (hcs : ',' ∉ cs) {width height : Int} :
    sizes? cs = some (width, height) ↔ Size cs width ∧ Size cs height := by
  rw [← bothSizes_iff]
  unfold sizes?
  rw [Text.cutAt_of_not_mem hcs]
  simp only [Option.bind_eq_bind, Option.pure_def, Option.bind_some]

theorem sizes?_of_comma {before : List Char} (hbefore : ',' ∉ before) {after : List Char}
    {width height : Int} : sizes? (before ++ ',' :: after) = some (width, height) ↔
      Size (Text.trim before) width ∧ Size (Text.trim after) height := by
  rw [← bothSizes_iff]
  unfold sizes?
  rw [Text.cutAt_append hbefore]
  simp only [Option.bind_eq_bind, Option.pure_def, Option.bind_some]

/-- **Sizes are read exactly if they are written in one of these ways.** -/
theorem sizes?_eq_some_iff {cs : List Char} {width height : Int} :
    sizes? cs = some (width, height) ↔ Sizes cs width height := by
  constructor
  · intro h
    by_cases hcomma : ',' ∈ cs
    · obtain ⟨before, after, rfl, hbefore⟩ := List.eq_append_cons_of_mem hcomma
      obtain ⟨hwidth, hheight⟩ := (sizes?_of_comma hbefore).mp h
      exact .sides hwidth hheight
    · obtain ⟨hwidth, hheight⟩ := (sizes?_of_no_comma hcomma).mp h
      rw [← hwidth.unique hheight]
      exact .square hwidth
  · intro h
    cases h with
    | square h => exact (sizes?_of_no_comma h.no_comma).mpr ⟨h, h⟩
    | sides hwidth hheight =>
        refine (sizes?_of_comma fun hmem => ?_).mpr ⟨hwidth, hheight⟩
        exact hwidth.no_comma ((Text.mem_trim (by decide)).mpr hmem)

/-! ### Specifiers -/

/-- The ways of specifying a surface, without the blanks around the text. -/
inductive Spelling : List Char → Surface → Prop
  | sign : Spelling ['#'] plane
  | word {cs : List Char} (h : Text.lower cs = "infinite".toList) : Spelling cs plane
  | box {letter : Char} {cs : List Char} {joining : Joining} {width height : Int}
      (hletter : letter = joining.symbol ∨ letter = joining.symbol.toLower)
      (hsizes : Sizes cs width height) : Spelling (letter :: cs) (box joining width height)

theorem spelling_plane_iff {cs : List Char} : Spelling cs plane ↔
    cs = ['#'] ∨ Text.sameIgnoringCase cs "infinite".toList = true := by
  have hword : Text.sameIgnoringCase cs "infinite".toList = true ↔
      Text.lower cs = "infinite".toList := decide_eq_true_iff
  rw [hword]
  constructor
  · intro h
    cases h with
    | sign => exact Or.inl rfl
    | word h => exact Or.inr h
  · rintro (rfl | h)
    · exact .sign
    · exact .word h

/-- A text that specifies a box does not specify the plane. -/
theorem Spelling.not_plane {cs : List Char} {joining : Joining} {width height : Int}
    (h : Spelling cs (Surface.box joining width height)) : ¬Spelling cs plane := by
  intro hplane
  cases h with
  | box hletter hsizes =>
      cases hplane with
      | sign => rcases hletter with h | h <;> cases joining <;> exact absurd h (by decide)
      | word hword =>
          injection hword with hfirst
          rcases hletter with rfl | rfl <;> cases joining <;> exact absurd hfirst (by decide)

/-- What does not specify the plane specifies a box by its letter and its sizes. -/
theorem spelling_cons_iff {letter : Char} {cs : List Char} {s : Surface}
    (hplane : ¬Spelling (letter :: cs) plane) : Spelling (letter :: cs) s ↔
      ∃ joining width height, Joining.ofSymbol? letter = some joining ∧
        sizes? cs = some (width, height) ∧ box joining width height = s := by
  constructor
  · intro h
    cases h with
    | sign => exact absurd .sign hplane
    | word h => exact absurd (.word h) hplane
    | box hletter hsizes =>
        exact ⟨_, _, _, Joining.ofSymbol?_eq_some_iff.mpr hletter,
          sizes?_eq_some_iff.mpr hsizes, rfl⟩
  · rintro ⟨joining, width, height, hletter, hsizes, rfl⟩
    exact .box (Joining.ofSymbol?_eq_some_iff.mp hletter) (sizes?_eq_some_iff.mp hsizes)

/-- **Reading accepts exactly the ways of specifying a surface.** -/
theorem ofSpecifier_eq_ok_iff {text : String} {s : Surface} :
    ofSpecifier text = .ok s ↔ Spelling (Text.trim text.toList) s := by
  unfold ofSpecifier
  generalize Text.trim text.toList = cs
  simp only
  split
  · rename_i hplane
    rw [← spelling_plane_iff] at hplane
    cases s with
    | plane => exact iff_of_true rfl hplane
    | box joining width height => exact iff_of_false (by simp) fun h => h.not_plane hplane
  · rename_i hplane
    rw [← spelling_plane_iff] at hplane
    cases cs with
    | nil =>
        refine iff_of_false (by simp) fun h => ?_
        cases h with
        | word h => exact hplane (.word h)
    | cons letter rest =>
        rw [spelling_cons_iff hplane]
        dsimp only
        cases sizes? rest with
        | none => simp
        | some sizes =>
            cases sizes
            cases Joining.ofSymbol? letter <;> simp [and_assoc]

/-! ### What is written -/

/-- Are the sizes integers of 64 bits, and none of them negative? -/
def Specifiable : Surface → Prop
  | plane => True
  | box _ width height => (0 ≤ width ∧ width < 2 ^ 63) ∧ 0 ≤ height ∧ height < 2 ^ 63

theorem Sizes.bounds {cs : List Char} {width height : Int} (h : Sizes cs width height) :
    (0 ≤ width ∧ width < 2 ^ 63) ∧ 0 ≤ height ∧ height < 2 ^ 63 := by
  cases h with
  | square h => exact ⟨h.2, h.2⟩
  | sides hwidth hheight => exact ⟨hwidth.2, hheight.2⟩

/-- No other surface can be specified. -/
theorem Spelling.specifiable {cs : List Char} {s : Surface} (h : Spelling cs s) :
    s.Specifiable := by
  cases h with
  | sign => trivial
  | word => trivial
  | box _ hsizes => exact hsizes.bounds

theorem size_toString {n : Nat} (hn : (n : Int) < 2 ^ 63) : Size (toString n).toList n := by
  have hnumeral := Text.Numeral.digits (Text.digits_toString n)
  rw [Text.digitsValue_toString] at hnumeral
  exact ⟨hnumeral, Int.natCast_nonneg n, hn⟩

theorem trim_toString (n : Nat) : Text.trim (toString n).toList = (toString n).toList :=
  Text.trim_of_not_blank fun _ => Text.isBlank_of_mem_toString

theorem toList_specifier (joining : Joining) (width height : Nat) :
    (box joining width height).specifier.toList = joining.symbol ::
      if width = height then (toString width).toList
      else (toString width).toList ++ ',' :: (toString height).toList := by
  have hnat : ∀ k : Nat, toString (k : Int) = toString k := fun _ => rfl
  have hchar : ∀ c : Char, toString c = String.singleton c := fun _ => rfl
  have hstr : ∀ t : String, toString t = t := fun _ => rfl
  simp only [specifier, Nat.cast_inj, hnat, hchar, hstr]
  split
  · simp
  · simp

/-- What is written has no blanks. -/
theorem trim_specifier {s : Surface} (h : s.Specifiable) :
    Text.trim s.specifier.toList = s.specifier.toList := by
  cases s with
  | plane => rfl
  | box joining width height =>
      obtain ⟨⟨hwidth, -⟩, hheight, -⟩ := h
      obtain ⟨w, rfl⟩ := Int.eq_ofNat_of_zero_le hwidth
      obtain ⟨h, rfl⟩ := Int.eq_ofNat_of_zero_le hheight
      have hsymbol : Text.isBlank joining.symbol = false := by cases joining <;> decide
      rw [toList_specifier]
      refine Text.trim_of_not_blank (List.forall_mem_cons.mpr ⟨hsymbol, ?_⟩)
      split
      · exact fun _ => Text.isBlank_of_mem_toString
      · exact List.forall_mem_append.mpr ⟨fun _ => Text.isBlank_of_mem_toString,
          List.forall_mem_cons.mpr ⟨by decide, fun _ => Text.isBlank_of_mem_toString⟩⟩

/-- What is written is one of the ways of specifying the surface. -/
theorem spelling_specifier {s : Surface} (h : s.Specifiable) : Spelling s.specifier.toList s := by
  cases s with
  | plane => exact .sign
  | box joining width height =>
      obtain ⟨⟨hwidth, hwidthLt⟩, hheight, hheightLt⟩ := h
      obtain ⟨w, rfl⟩ := Int.eq_ofNat_of_zero_le hwidth
      obtain ⟨h, rfl⟩ := Int.eq_ofNat_of_zero_le hheight
      rw [toList_specifier]
      refine .box (Or.inl rfl) ?_
      split
      · rename_i heq
        rw [heq]
        exact .square (size_toString hheightLt)
      · refine .sides ?_ ?_
        · rw [trim_toString]
          exact size_toString hwidthLt
        · rw [trim_toString]
          exact size_toString hheightLt

theorem ofSpecifier_specifier {s : Surface} (h : s.Specifiable) :
    ofSpecifier s.specifier = .ok s := by
  rw [ofSpecifier_eq_ok_iff, trim_specifier h]
  exact spelling_specifier h

/--
**Specifiers are read back, and reading brings every text that is accepted to one form.**  For
every surface whose sizes are integers of 64 bits and not negative, the text that is written for
it is read as that surface.  A text is read as the surface exactly if it is one of the ways of
specifying it, with blanks at its ends or without: whatever the case of its letters, with one
size for a square or with two and blanks around them, with zeros and a plus sign in front of a
size or without.  What is written for the surface is then read as the same surface, and is what
is written for that again.
-/
theorem specifier_round_trip (s : Surface) :
    (s.Specifiable → ofSpecifier s.specifier = .ok s) ∧
      ∀ text, (ofSpecifier text = .ok s ↔ Spelling (Text.trim text.toList) s) ∧
        (ofSpecifier text = .ok s →
          ofSpecifier s.specifier = .ok s ∧
            (ofSpecifier s.specifier).map specifier = .ok s.specifier) := by
  refine ⟨ofSpecifier_specifier, fun text => ⟨ofSpecifier_eq_ok_iff, fun h => ?_⟩⟩
  have hback := ofSpecifier_specifier (ofSpecifier_eq_ok_iff.mp h).specifiable
  rw [hback]
  exact ⟨rfl, rfl⟩

/-- Blanks, a small letter, a plus sign, zeros in front and the height of a square. -/
theorem specifier_round_trip_of_loose_text :
    let s := box .klein 64 64
    s.Specifiable ∧ Spelling (Text.trim " k+064 ,\t64\n".toList) s ∧
      ofSpecifier " k+064 ,\t64\n" = .ok s ∧ ofSpecifier "K64" = .ok s ∧
      (ofSpecifier "K64").map specifier = .ok "K64" := by
  have hread : ofSpecifier " k+064 ,\t64\n" = .ok (box .klein 64 64) := by decide
  have hwritten : (box .klein 64 64).specifier = "K64" := by decide
  have hs : (box .klein 64 64).Specifiable := by unfold Specifiable; omega
  obtain ⟨hback, htexts⟩ := specifier_round_trip (box .klein 64 64)
  obtain ⟨haccepted, hagain⟩ := htexts " k+064 ,\t64\n"
  rw [hwritten] at hback hagain
  exact ⟨hs, haccepted.mp hread, hread, hback hs, (hagain hread).2⟩

end Surface

end Cellular
