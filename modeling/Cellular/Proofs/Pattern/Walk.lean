/-
Reading a pattern is walking over its symbols one by one.

The digits before a symbol say how often it stands there.  `unroll` writes the symbols out and
knows no largest count, and a walk over them takes one at a time: it is possible as long as each
symbol fits (`Writable`), and `Pen.mark` says where it leads.

The reader checks a run as a whole, with counts and positions that stop at `limit`.  For a box
that is smaller than that the check passes exactly if every symbol of the run fits: a run that is
cut off at the limit leaves the box anyway.  `take_iff` says so for one run, and `foldlM_take_iff`
goes over the text with the invariant that the reader holds the value of the digits it has seen,
up to the limit.
-/
import Cellular.Proofs.Pattern.Reading

namespace Cellular

namespace Pattern

variable {h : Header} {n : Nat}

/-! ### What a text says -/

/-- The lines of a text that are neither blank nor comments, without the blanks around them. -/
def contents (text : String) : List (List Char) :=
  ((Text.pieces '\n' text.toList).map Text.trim).filter isContent

/-- The first of these lines is a header, and the others follow. -/
def Opens (text : String) (h : Header) (rest : List (List Char)) : Prop :=
  ∃ first, contents text = first :: rest ∧ (first.head? = some 'x' ∨ first.head? = some 'X') ∧
    Header.ofLine? first = some h

/-- The symbols of a text, each as often as the digits since the one before it say and at least
once.  Blanks may stand between the digits. -/
def unroll (digits : List Char) : List Char → List Char
  | [] => []
  | c :: cs =>
    if c.isDigit then unroll (digits ++ [c]) cs
    else if Text.isBlank c then unroll digits cs
    else List.replicate (max 1 (Text.digitsValue digits)) c ++ unroll [] cs

/-- The symbols of the lines below the header, up to the exclamation mark. -/
def symbolsOf (rest : List (List Char)) : List Char :=
  unroll [] (rest.flatten.takeWhile (· ≠ '!'))

/-- The pen without what it has read of a count. -/
def Pen.lifted (p : Pen) : Pen := { p with count := 0 }

theorem Pen.lifted_of_count {p : Pen} (hp : p.count = 0) : p.lifted = p := by
  unfold lifted
  rw [← hp]

/-! ### Equal symbols that fit -/

theorem writable_background {c : Char} (hc : c = '.' ∨ c = 'b') (k : Nat) :
    ∀ {p : Pen}, p.col + k ≤ h.width → Writable h n p (List.replicate k c) := by
  induction k with
  | zero => intro p _; trivial
  | succ k ih =>
      intro p hle
      refine ⟨Fits.background hc (by omega), ih ?_⟩
      rw [Pen.mark_background p hc]
      simp only
      omega

theorem writable_rowEnd (k : Nat) :
    ∀ {p : Pen}, p.row + k ≤ h.height → Writable h n p (List.replicate k '$') := by
  induction k with
  | zero => intro p _; trivial
  | succ k ih =>
      intro p hle
      refine ⟨Fits.rowEnd (by omega), ih ?_⟩
      rw [Pen.mark_rowEnd p]
      simp only
      omega

theorem writable_letter {c : Char} {s : State} (hc : letterState? c = some s) (hs : s < n)
    (k : Nat) : ∀ {p : Pen}, p.row < h.height → p.col + k ≤ h.width →
      Writable h n p (List.replicate k c) := by
  induction k with
  | zero => intro p _ _; trivial
  | succ k ih =>
      intro p hrow hle
      refine ⟨Fits.letter hc hs hrow (by omega), ih ?_ ?_⟩
      · rw [Pen.mark_letter p hc]
        exact hrow
      · rw [Pen.mark_letter p hc]
        simp only
        omega

/-! ### A run -/

/-- A run that the reader takes in a box below the limit fits symbol by symbol, also if its count
was cut off. -/
theorem writable_of_take {p q : Pen} {c : Char} {line k : Nat} (hdigit : ¬c.isDigit = true)
    (hblank : ¬Text.isBlank c = true) (hwidth : h.width < limit) (hheight : h.height < limit)
    (hrun : p.run = min k limit) (htake : p.take h n c line = .ok q) :
    Writable h n p.lifted (List.replicate k c) := by
  unfold Pen.take Pen.nextCol Pen.nextRow at htake
  simp only [hrun] at htake
  rw [if_neg hdigit] at htake
  by_cases hpoint : c = '.' ∨ c = 'b'
  · rw [if_pos hpoint] at htake
    split at htake
    · simp at htake
    · refine writable_background hpoint k ?_
      show p.col + k ≤ h.width
      omega
  · rw [if_neg hpoint] at htake
    by_cases hend : c = '$'
    · rw [if_pos hend] at htake
      split at htake
      · simp at htake
      · rw [hend]
        refine writable_rowEnd k ?_
        show p.row + k ≤ h.height
        omega
    · rw [if_neg hend, if_neg hblank] at htake
      split at htake
      · simp at htake
      · rename_i s hletter
        split at htake
        · simp at htake
        · rename_i hs
          split at htake
          · simp at htake
          · rename_i hroom
            refine writable_letter hletter (Nat.lt_of_not_le hs) k ?_ ?_
            · show p.row < h.height
              omega
            · show p.col + k ≤ h.width
              omega

/-- **A run is taken exactly if its symbols fit one by one,** and then with the same outcome. -/
theorem take_iff {p q : Pen} {c : Char} {line k : Nat} (hdigit : ¬c.isDigit = true)
    (hblank : ¬Text.isBlank c = true) (hwidth : h.width < limit) (hheight : h.height < limit)
    (hk : 1 ≤ k) (hrun : p.run = min k limit) (hcol : p.col ≤ h.width) (hrow : p.row ≤ h.height) :
    p.take h n c line = .ok q ↔ Writable h n p.lifted (List.replicate k c) ∧
      q = (List.replicate k c).foldl Pen.mark p.lifted := by
  have hmarked : Writable h n p.lifted (List.replicate k c) →
      p.take h n c line = .ok ((List.replicate k c).foldl Pen.mark p.lifted) := by
    intro hw
    have hlimit : k ≤ limit := length_le_of_writable hw hcol hrow (Nat.le_of_lt hwidth)
      (Nat.le_of_lt hheight)
    rw [Nat.min_eq_left hlimit] at hrun
    exact take_run hk hw hrun hcol hrow (Nat.le_of_lt hwidth) (Nat.le_of_lt hheight) line
  constructor
  · intro htake
    have hw := writable_of_take hdigit hblank hwidth hheight hrun htake
    rw [hmarked hw] at htake
    exact ⟨hw, (Except.ok.inj htake).symm⟩
  · rintro ⟨hw, rfl⟩
    exact hmarked hw

/-! ### A text -/

theorem take_blank {p : Pen} {c : Char} {line : Nat} (hblank : Text.isBlank c = true) :
    p.take h n c line = .ok p := by
  have hne : ∀ d, Text.isBlank d = false → c ≠ d := by
    intro d hd heq
    rw [heq, hd] at hblank
    exact Bool.noConfusion hblank
  have hdigit : ¬c.isDigit = true := fun hd => hne c (Text.isBlank_of_isDigit hd) rfl
  have hpoint : ¬(c = '.' ∨ c = 'b') := by
    rintro (hpoint | hpoint)
    · exact hne '.' (by decide) hpoint
    · exact hne 'b' (by decide) hpoint
  unfold Pen.take
  simp only
  rw [if_neg hdigit, if_neg hpoint, if_neg (hne '$' (by decide)), if_pos hblank]

theorem digitsValue_concat (ds : List Char) (c : Char) :
    Text.digitsValue (ds ++ [c]) = 10 * Text.digitsValue ds + Text.digitValue c := by
  unfold Text.digitsValue
  rw [List.foldl_append]
  rfl

/-- The characters are read exactly if their symbols fit one by one, and the pen then stands
where these lead it.  It holds the value of the digits so far, up to the limit. -/
theorem foldlM_take_iff (hwidth : h.width < limit) (hheight : h.height < limit)
    (l : List (Nat × Char)) :
    ∀ (p r : Pen) (ds : List Char), p.count = min (Text.digitsValue ds) limit →
      p.col ≤ h.width → p.row ≤ h.height →
      ((∃ q, l.foldlM (fun (p : Pen) (x : Nat × Char) => p.take h n x.2 x.1) p = .ok q ∧
          q.lifted = r) ↔
        Writable h n p.lifted (unroll ds (l.map Prod.snd)) ∧
          r = (unroll ds (l.map Prod.snd)).foldl Pen.mark p.lifted) := by
  induction l with
  | nil =>
      intro p r ds _ _ _
      constructor
      · rintro ⟨q, hq, rfl⟩
        rw [← Except.ok.inj hq]
        exact ⟨trivial, rfl⟩
      · rintro ⟨-, rfl⟩
        exact ⟨p, rfl, rfl⟩
  | cons x rest ih =>
      intro p r ds hcount hcol hrow
      obtain ⟨line, c⟩ := x
      rw [List.map_cons, unroll]
      simp only [List.foldlM_cons]
      by_cases hdigit : c.isDigit = true
      · have htake : p.take h n c line
            = .ok { p with count := min (10 * p.count + Text.digitValue c) limit } := if_pos hdigit
        rw [if_pos hdigit, htake]
        refine ih { p with count := min (10 * p.count + Text.digitValue c) limit } r (ds ++ [c])
          ?_ hcol hrow
        rw [digitsValue_concat]
        simp only
        omega
      rw [if_neg hdigit]
      by_cases hblank : Text.isBlank c = true
      · rw [if_pos hblank, take_blank hblank]
        exact ih p r ds hcount hcol hrow
      rw [if_neg hblank]
      -- A symbol: the reader takes its run at once, and the rest starts without a count.
      have hrun : p.run = min (max 1 (Text.digitsValue ds)) limit := by
        have hlimit : 1 ≤ limit := by decide
        unfold Pen.run
        omega
      have hsymbol : ∀ q, p.take h n c line = .ok q ↔
          Writable h n p.lifted (List.replicate (max 1 (Text.digitsValue ds)) c) ∧
            q = (List.replicate (max 1 (Text.digitsValue ds)) c).foldl Pen.mark p.lifted :=
        fun q => take_iff hdigit hblank hwidth hheight (Nat.le_max_left 1 _) hrun hcol hrow
      generalize List.replicate (max 1 (Text.digitsValue ds)) c = run at hsymbol ⊢
      rw [writable_append, List.foldl_append]
      constructor
      · rintro ⟨q, hq, hr⟩
        obtain ⟨q', htake, hq⟩ := ok_of_bind hq
        obtain ⟨hw, rfl⟩ := (hsymbol q').mp htake
        obtain ⟨hcol', hrow'⟩ := foldl_mark_inside hw hcol hrow
        have hcount' : (run.foldl Pen.mark p.lifted).count = 0 := Pen.foldl_mark_count run p.lifted
        have hrest := (ih _ r [] hcount' hcol' hrow').mp ⟨q, hq, hr⟩
        rw [Pen.lifted_of_count hcount'] at hrest
        exact ⟨⟨hw, hrest.1⟩, hrest.2⟩
      · rintro ⟨⟨hw, hrest⟩, hr⟩
        obtain ⟨hcol', hrow'⟩ := foldl_mark_inside hw hcol hrow
        have hcount' : (run.foldl Pen.mark p.lifted).count = 0 := Pen.foldl_mark_count run p.lifted
        rw [← Pen.lifted_of_count hcount'] at hrest hr
        obtain ⟨q, hq, hqr⟩ := (ih _ r [] hcount' hcol' hrow').mpr ⟨hrest, hr⟩
        refine ⟨q, ?_, hqr⟩
        rw [(hsymbol _).mpr ⟨hw, rfl⟩]
        exact hq

/-- The reader looks for the header and takes what follows it. -/
theorem decode_of_opens {text : String} {rest : List (List Char)} (hopens : Opens text h rest) :
    ∃ l : List (Nat × Char), l.map Prod.snd = rest.flatten.takeWhile (· ≠ '!') ∧
      decode text n = (do
        let pen ← l.foldlM (fun (p : Pen) (x : Nat × Char) => p.take h n x.2 x.1) .start
        return ⟨pen.grid, h.width, h.height, h.rule⟩) := by
  obtain ⟨first, hcontents, hx, hheader⟩ := hopens
  have hnumbered : (Text.numberedLines text).map Prod.snd
      = (Text.pieces '\n' text.toList).map Text.trim := by
    conv_rhs => rw [← List.zipIdx_map_fst 1 (Text.pieces '\n' text.toList)]
    unfold Text.numberedLines
    rw [List.map_map, List.map_map]
    rfl
  have hlines : ((Text.numberedLines text).filter fun x => isContent x.2).map Prod.snd
      = first :: rest := by
    rw [← hcontents, contents, ← hnumbered, List.filter_map]
    rfl
  obtain ⟨x, lines, hfilter, rfl, hrest⟩ := List.map_eq_cons_iff.mp hlines
  refine ⟨bodyChars lines, ?_, ?_⟩
  · rw [map_snd_bodyChars, ← hrest, List.flatMap_def]
  · unfold decode
    rw [hfilter]
    simp only
    rw [if_neg fun hnone => hx.elim hnone.1 hnone.2, hheader]

/--
**A text is read exactly if one can walk over its symbols one by one.**  Let a text have a header
with sizes below `limit`.  Write out the symbols below it, each as often as its count says.  The
text is read exactly if each of them is known, belongs to a state below `n` and fits into the box
at its turn, and the pattern then has the cells that the walk has marked.
-/
theorem decode_iff_writable {text : String} {rest : List (List Char)} (hopens : Opens text h rest)
    (hwidth : h.width < limit) (hheight : h.height < limit) (n : Nat) (p : Pattern) :
    decode text n = .ok p ↔ Writable h n .start (symbolsOf rest) ∧
      p = ⟨((symbolsOf rest).foldl Pen.mark .start).grid, h.width, h.height, h.rule⟩ := by
  obtain ⟨l, hl, hdecode⟩ := decode_of_opens (n := n) hopens
  have hwalk : ∀ r, (∃ q, l.foldlM (fun (p : Pen) (x : Nat × Char) => p.take h n x.2 x.1) .start
      = .ok q ∧ q.lifted = r) ↔
        Writable h n .start (symbolsOf rest) ∧ r = (symbolsOf rest).foldl Pen.mark .start := by
    intro r
    have hiff := foldlM_take_iff (n := n) hwidth hheight l .start r [] rfl (Nat.zero_le _)
      (Nat.zero_le _)
    rw [hl] at hiff
    exact hiff
  rw [hdecode]
  constructor
  · intro hp
    obtain ⟨q, hq, hp⟩ := ok_of_bind hp
    obtain ⟨hw, hgrid⟩ := (hwalk q.lifted).mp ⟨q, hq, rfl⟩
    refine ⟨hw, ?_⟩
    rw [← Except.ok.inj hp, ← hgrid]
    rfl
  · rintro ⟨hw, rfl⟩
    obtain ⟨q, hq, hr⟩ := (hwalk _).mpr ⟨hw, rfl⟩
    rw [hq, ← hr]
    rfl

/-- Comments, blanks and breaks between digits and symbols, a count of zero, a run that ends on
the edge and text after the end. -/
theorem decode_iff_writable_of_loose_text :
    let text := "#C made by hand\n X=12, y = 3\n1\n 0 b2 \no $\n#C more\n 0A! end"
    let h : Header := ⟨12, 3, none⟩
    let cs := "bbbbbbbbbboo$A".toList
    Opens text h ["1".toList, "0 b2".toList, "o $".toList, "0A! end".toList] ∧
      symbolsOf ["1".toList, "0 b2".toList, "o $".toList, "0A! end".toList] = cs ∧
      ∃ p, decode text 2 = .ok p ∧ Writable h 2 .start cs ∧
        p = ⟨(cs.foldl Pen.mark .start).grid, 12, 3, none⟩ ∧
        p.grid.toList = [(⟨0, 10⟩, 1), (⟨0, 11⟩, 1), (⟨1, 0⟩, 1)] := by
  intro text h cs
  have hopens : Opens text h ["1".toList, "0 b2".toList, "o $".toList, "0A! end".toList] :=
    ⟨"X=12, y = 3".toList, by decide +kernel, by decide, rfl⟩
  have hcs : symbolsOf ["1".toList, "0 b2".toList, "o $".toList, "0A! end".toList] = cs := by
    decide +kernel
  obtain ⟨p, hp, hcells⟩ : ∃ p, decode text 2 = .ok p ∧
      decide (p.grid.toList = [(⟨0, 10⟩, 1), (⟨0, 11⟩, 1), (⟨1, 0⟩, 1)]) = true :=
    exists_ok_of_any (by decide +kernel)
  have hwalk := (decode_iff_writable hopens (by decide) (by decide) 2 p).mp hp
  rw [hcs] at hwalk
  exact ⟨hopens, hcs, p, hp, hwalk.1, hwalk.2, of_decide_eq_true hcells⟩

end Pattern

end Cellular
