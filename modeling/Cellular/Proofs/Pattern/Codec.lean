/-
What is written can be read.

A window is written if each of its cells has a letter, and the text is then read back
as the window, moved so that its corner is the origin.  The two sides meet in the list
of symbols of the window: `symbols_eq` says what the writer writes, `marked_rows` what
becomes of it under the pen, row after row, and `decode_body` and `ofLine_header` put
the lines around it.

Background at the end of a row is not written.  Nothing is lost by that, since the end
of the row takes the pen back to the first column from wherever it stands.

The writer calculates the sizes of the window within words, and the edges of the window of a
whole grid, which lie behind its last column and its last row.  It gives up where these do not
fit, so a cell in the last column of all cannot be written with its grid
(`no_text_beyond_last_column`).
-/
import Mathlib.Data.List.DropRight
import Cellular.Proofs.Chain
import Cellular.Proofs.Pattern.Reading
import Cellular.Proofs.Word

namespace Cellular

/-! ### Windows -/

namespace Window

/-- Is the cell in the window? -/
def Contains (w : Window) (c : Coord) : Prop :=
  w.top ≤ c.row ∧ c.row < w.bottom ∧ w.left ≤ c.col ∧ c.col < w.right

instance (w : Window) (c : Coord) : Decidable (w.Contains c) :=
  inferInstanceAs (Decidable (_ ∧ _))

/-- How far the first cell of the window lies from the origin. -/
def corner (w : Window) : Offset := ⟨w.top, w.left⟩

/-- The window moved by a displacement. -/
def shift (w : Window) (o : Offset) : Window :=
  ⟨w.left + o.dx, w.top + o.dy, w.right + o.dx, w.bottom + o.dy⟩

/-- Its sizes are signed numbers of 64 bits, as those of the header are. -/
def Fits (w : Window) : Prop :=
  w.right - w.left ≤ Pattern.limit ∧ w.bottom - w.top ≤ Pattern.limit

instance (w : Window) : Decidable w.Fits := inferInstanceAs (Decidable (_ ∧ _))

end Window

/-- The window that a grid is written in. -/
def Grid.window (g : Grid) : Window := (g.tightBounds.map Bounds.window).getD ⟨0, 0, 0, 0⟩

theorem Grid.window_contains {g : Grid} {c : Coord} (hc : g.get c ≠ 0) : g.window.Contains c := by
  unfold window
  cases hb : g.tightBounds with
  | none => exact absurd (get_of_tightBounds_none hb c) hc
  | some b =>
      have h := Bounds.contains_iff.mp (contains_of_tightBounds hb hc)
      show b.top ≤ c.row ∧ c.row < b.bottom + 1 ∧ b.left ≤ c.col ∧ c.col < b.right + 1
      omega

theorem Grid.window_sides (g : Grid) :
    g.window.left ≤ g.window.right ∧ g.window.top ≤ g.window.bottom := by
  unfold window
  cases hb : g.tightBounds with
  | none => exact ⟨Int.le_refl 0, Int.le_refl 0⟩
  | some b =>
      have hne : g.coords ≠ [] := by
        intro hnil
        unfold tightBounds at hb
        simp [hnil, Bounds.enclosing?] at hb
      obtain ⟨c, hc⟩ := List.exists_mem_of_ne_nil _ hne
      have h := Bounds.contains_iff.mp (contains_of_tightBounds hb (mem_coords.mp hc))
      show b.left ≤ b.right + 1 ∧ b.top ≤ b.bottom + 1
      omega

namespace Pattern

variable {g : Grid} {w : Window} {h : Header} {n : Nat}

/-! ### The symbols of a window -/

/-- The symbol of a state up to the highest that has one. -/
def letter (s : State) : Char := if s = 0 then '.' else Char.ofNat (64 + s)

theorem letterState?_letter : ∀ s ≤ maxState, s ≠ 0 → letterState? (letter s) = some s := by decide

theorem cellSymbol_ok {row col : Int} :
    (∃ c, cellSymbol g row col = .ok c) ↔ g.get ⟨row, col⟩ ≤ maxState := by
  unfold cellSymbol symbol?
  constructor
  · intro hok
    obtain ⟨c, hc⟩ := hok
    split at hc
    · rename_i hsome
      split at hsome
      · rename_i hzero
        rw [hzero]
        exact Nat.zero_le maxState
      · split at hsome
        · assumption
        · simp at hsome
    · simp at hc
  · intro hle
    by_cases hzero : g.get ⟨row, col⟩ = 0
    · rw [if_pos hzero]
      exact ⟨_, rfl⟩
    · rw [if_neg hzero, if_pos hle]
      exact ⟨_, rfl⟩

theorem cellSymbol_eq {row col : Int} (hle : g.get ⟨row, col⟩ ≤ maxState) :
    cellSymbol g row col = .ok (letter (g.get ⟨row, col⟩)) := by
  unfold cellSymbol symbol? letter
  by_cases hzero : g.get ⟨row, col⟩ = 0
  · rw [if_pos hzero, if_pos hzero]
  · rw [if_neg hzero, if_neg hzero, if_pos hle]

/-- The symbols of a row, with the background at its end. -/
def rowLetters (g : Grid) (w : Window) (row : Int) : List Char :=
  (between w.left w.right).map fun col => letter (g.get ⟨row, col⟩)

theorem symbols_eq (hle : ∀ c, w.Contains c → g.get c ≤ maxState) :
    symbols g w = .ok ((between w.top w.bottom).flatMap fun row =>
      trimRow (rowLetters g w row) ++ ['$']) := by
  have hrow : ∀ row ∈ between w.top w.bottom,
      rowSymbols g w row = .ok (trimRow (rowLetters g w row) ++ ['$']) := by
    intro row hrow
    rw [mem_between] at hrow
    unfold rowSymbols
    rw [mapM_eq_ok (g := fun col => letter (g.get ⟨row, col⟩))]
    · rfl
    · intro col hcol
      rw [mem_between] at hcol
      exact cellSymbol_eq (hle ⟨row, col⟩ ⟨hrow.1, hrow.2, hcol.1, hcol.2⟩)
  unfold symbols
  rw [mapM_eq_ok hrow]
  rfl

theorem le_of_symbols {cs : List Char} (hs : symbols g w = .ok cs) {c : Coord}
    (hc : w.Contains c) : g.get c ≤ maxState := by
  obtain ⟨rows, hrows, -⟩ := ok_of_bind hs
  obtain ⟨r, -, hr⟩ := (ok_of_mapM hrows).1 c.row (mem_between.mpr ⟨hc.1, hc.2.1⟩)
  obtain ⟨l, hl, -⟩ := ok_of_bind hr
  obtain ⟨d, -, hd⟩ := (ok_of_mapM hl).1 c.col (mem_between.mpr ⟨hc.2.2.1, hc.2.2.2⟩)
  exact cellSymbol_ok.mp ⟨d, hd⟩

/-! ### The pen over the symbols -/

/-- A row is marked cell by cell. -/
theorem marked_row {p : Pen} (f : Nat → State) (hp : p.col = 0) (hrow : p.row < h.height)
    (hempty : ∀ c : Coord, c.row = p.row → p.grid.get c = 0) (k : Nat) :
    k ≤ h.width → (∀ j < k, f j ≤ maxState ∧ (f j ≠ 0 → f j < n)) →
      Writable h n p ((List.range k).map fun j => letter (f j)) ∧
      ∃ grid : Grid, ((List.range k).map fun j => letter (f j)).foldl Pen.mark p
          = { p with col := k, grid := grid } ∧
        ∀ c, grid.get c
          = if c.row = p.row ∧ 0 ≤ c.col ∧ c.col < k then f c.col.toNat else p.grid.get c := by
  induction k with
  | zero =>
      intro _ _
      refine ⟨trivial, p.grid, ?_, fun c => (if_neg ?_).symm⟩
      · show p = { p with col := 0 }
        rw [← hp]
      · intro hc
        omega
  | succ k ih =>
      intro hk hf
      obtain ⟨hw, grid, hfold, hget⟩ := ih (by omega) fun j hj => hf j (by omega)
      obtain ⟨hle, hlt⟩ := hf k (by omega)
      rw [List.range_succ, List.map_append, writable_append, List.foldl_append, hfold]
      by_cases hzero : f k = 0
      · -- Background is passed over, and the row was background before.
        have hletter : letter (f k) = '.' := if_pos hzero
        rw [List.map_singleton, hletter]
        refine ⟨⟨hw, Fits.background (Or.inl rfl) (by simp only; omega), trivial⟩, grid, ?_, fun c => ?_⟩
        · rw [List.foldl_cons, List.foldl_nil, Pen.mark_background _ (Or.inl rfl)]
        · rw [hget c]
          by_cases hc : c.row = p.row ∧ c.col = k
          · rw [if_neg (by omega), if_pos (by omega), hempty c hc.1, hc.2]
            exact hzero.symm
          · by_cases hbefore : c.row = p.row ∧ 0 ≤ c.col ∧ c.col < k
            · rw [if_pos hbefore, if_pos (by omega)]
            · rw [if_neg hbefore, if_neg (by omega)]
      · have hletter := letterState?_letter (f k) hle hzero
        rw [List.map_singleton]
        refine ⟨⟨hw, Fits.letter hletter (hlt hzero) hrow (by simp only; omega), trivial⟩,
          grid.set ⟨p.row, k⟩ (f k), ?_, fun c => ?_⟩
        · rw [List.foldl_cons, List.foldl_nil, Pen.mark_letter _ hletter]
        · rw [Grid.get_set, hget c]
          by_cases hc : c.row = p.row ∧ c.col = k
          · rw [if_pos (Coord.ext hc.1 hc.2), if_pos (by omega), hc.2]
            rfl
          · rw [if_neg (fun heq => hc ⟨by rw [heq], by rw [heq]⟩)]
            by_cases hbefore : c.row = p.row ∧ 0 ≤ c.col ∧ c.col < k
            · rw [if_pos hbefore, if_pos (by omega)]
            · rw [if_neg hbefore, if_neg (by omega)]

private theorem foldl_mark_background {cs : List Char} (hcs : ∀ c ∈ cs, c = '.') :
    ∀ p : Pen, cs.foldl Pen.mark p = { p with col := p.col + cs.length } := by
  induction cs with
  | nil => intro p; rfl
  | cons c rest ih =>
      intro p
      rw [List.foldl_cons, hcs c List.mem_cons_self, Pen.mark_background _ (Or.inl rfl),
        ih fun d hd => hcs d (List.mem_cons_of_mem c hd)]
      simp only [List.length_cons, Pen.mk.injEq, and_true, true_and]
      omega

/-- The background at the end of a row makes no difference once the row has ended. -/
theorem marked_trimRow {p q : Pen} {cs : List Char} (hw : Writable h n p cs)
    (hq : cs.foldl Pen.mark p = q) (hrow : q.row < h.height) :
    Writable h n p (trimRow cs ++ ['$']) ∧
      (trimRow cs ++ ['$']).foldl Pen.mark p = { q with row := q.row + 1, col := 0 } := by
  have hparts : trimRow cs ++ cs.rtakeWhile (· = '.') = cs := List.rdropWhile_append_rtakeWhile
  have hend : ∀ c ∈ cs.rtakeWhile (· = '.'), c = '.' := by
    intro c hc
    have hpoint := List.mem_rtakeWhile_imp hc
    exact of_decide_eq_true hpoint
  rw [← hparts, writable_append] at hw
  rw [← hparts, List.foldl_append, foldl_mark_background hend] at hq
  subst hq
  refine ⟨writable_append.mpr ⟨hw.1, Fits.rowEnd hrow, trivial⟩, ?_⟩
  rw [List.foldl_append, List.foldl_cons, List.foldl_nil, Pen.mark_rowEnd]

theorem rowLetters_eq (hwidth : (h.width : Int) = w.right - w.left) (row : Int) :
    rowLetters g w row
      = (List.range h.width).map fun (j : Nat) => letter (g.get ⟨row, w.left + (j : Int)⟩) := by
  unfold rowLetters between
  rw [List.map_map, ← hwidth]
  rfl

/-- The rows are marked one below the other. -/
theorem marked_rows (hwidth : (h.width : Int) = w.right - w.left)
    (hheight : (h.height : Int) = w.bottom - w.top)
    (hle : ∀ c, w.Contains c → g.get c ≤ maxState ∧ (g.get c ≠ 0 → g.get c < n)) (k : Nat) :
    k ≤ h.height →
      Writable h n .start ((List.range k).flatMap fun (i : Nat) =>
        trimRow (rowLetters g w (w.top + (i : Int))) ++ ['$']) ∧
      ∃ grid : Grid, ((List.range k).flatMap fun (i : Nat) =>
          trimRow (rowLetters g w (w.top + (i : Int))) ++ ['$']).foldl Pen.mark .start
          = ⟨k, 0, 0, grid⟩ ∧
        ∀ c, grid.get c
          = if 0 ≤ c.row ∧ c.row < k ∧ 0 ≤ c.col ∧ c.col < h.width then g.get (c + w.corner)
            else 0 := by
  induction k with
  | zero =>
      intro _
      refine ⟨trivial, .empty, rfl, fun c => ?_⟩
      rw [Grid.get_empty, if_neg (by omega)]
  | succ k ih =>
      intro hk
      obtain ⟨hw, grid, hfold, hget⟩ := ih (by omega)
      have hempty : ∀ c : Coord, c.row = (k : Nat) → grid.get c = 0 := by
        intro c hc
        rw [hget c, if_neg (by omega)]
      have hstates : ∀ j < h.width, g.get ⟨w.top + (k : Int), w.left + (j : Int)⟩ ≤ maxState ∧
          (g.get ⟨w.top + (k : Int), w.left + (j : Int)⟩ ≠ 0 →
            g.get ⟨w.top + (k : Int), w.left + (j : Int)⟩ < n) := by
        intro j hj
        refine hle _ ⟨?_, ?_, ?_, ?_⟩ <;> simp only <;> omega
      obtain ⟨hrow, grid', hfold', hget'⟩ := marked_row (h := h) (n := n) (p := ⟨k, 0, 0, grid⟩)
        (fun j => g.get ⟨w.top + (k : Int), w.left + (j : Int)⟩) rfl hk hempty h.width
        (Nat.le_refl _) hstates
      rw [← rowLetters_eq hwidth] at hrow hfold'
      obtain ⟨hend, hfoldEnd⟩ := marked_trimRow hrow hfold' hk
      rw [List.range_succ, List.flatMap_append, List.flatMap_singleton, writable_append,
        List.foldl_append, hfold]
      refine ⟨⟨hw, hend⟩, grid', hfoldEnd, fun c => ?_⟩
      rw [hget' c, hget c]
      by_cases hc : c.row = k ∧ 0 ≤ c.col ∧ c.col < h.width
      · rw [if_pos hc, if_pos (by omega)]
        congr 1
        ext
        · simp only [Coord.add_row, Window.corner]
          omega
        · simp only [Coord.add_col, Window.corner]
          omega
      · rw [if_neg hc]
        by_cases hbefore : 0 ≤ c.row ∧ c.row < k ∧ 0 ≤ c.col ∧ c.col < h.width
        · rw [if_pos hbefore, if_pos (by omega)]
        · rw [if_neg hbefore, if_neg (by omega)]

/-! ### The lines of the text -/

theorem plain_background : Plain '.' := ⟨by decide, by simp, by simp⟩

theorem plain_rowEnd : Plain '$' := ⟨by decide, by simp, by simp⟩

theorem plain_of_writable {cs : List Char} :
    ∀ {p : Pen}, Writable h n p cs → ∀ c ∈ cs, Plain c := by
  induction cs with
  | nil =>
      intro p _ c hc
      simp at hc
  | cons d rest ih =>
      intro p hw c hc
      rcases List.mem_cons.mp hc with rfl | htail
      · cases hw.1 with
        | background hor =>
            rcases hor with rfl | rfl
            · exact plain_background
            · exact plain_of_range (by decide)
        | rowEnd => exact plain_rowEnd
        | letter hletter => exact plain_of_letter hletter
      · exact ih hw.2 c htail

theorem plain_token {cs : List Char} (hcs : ∀ c ∈ cs, Plain c) :
    ∀ r ∈ runs cs, ∀ c ∈ (token r).toList, Plain c := by
  intro r hr c hc
  obtain ⟨k, d⟩ := r
  have hd : Plain d := by
    refine hcs d ?_
    rw [← expand_runs cs]
    exact List.mem_flatMap.mpr
      ⟨(k, d), hr, List.mem_replicate.mpr ⟨Nat.ne_of_gt (runs_pos cs _ hr), rfl⟩⟩
  rw [toList_token] at hc
  split at hc
  · rcases List.mem_append.mp hc with hdigit | hlast
    · have hrange := Text.isDigit_range (Text.isDigit_of_mem_toString hdigit)
      exact plain_of_range (by omega)
    · rw [List.mem_singleton.mp hlast]
      exact hd
  · rw [List.mem_singleton.mp hc]
    exact hd

theorem ne_lineFeed_of_plain {c : Char} (hc : Plain c) : c ≠ '\n' := by
  intro heq
  rw [heq] at hc
  exact absurd hc.1 (by decide)

/-- Line feeds apart, runs are placed one after the other. -/
theorem filter_place {toks : List String} (htoks : ∀ t ∈ toks, ∀ c ∈ t.toList, c ≠ '\n') :
    ∀ acc : String × Nat, ((toks.foldl place acc).1.toList).filter (· ≠ '\n')
      = acc.1.toList.filter (· ≠ '\n') ++ toks.flatMap String.toList := by
  induction toks with
  | nil => intro acc; rw [List.flatMap_nil, List.append_nil]; rfl
  | cons t rest ih =>
      intro acc
      have ht : t.toList.filter (· ≠ '\n') = t.toList :=
        List.filter_eq_self.mpr fun c hc => decide_eq_true (htoks t List.mem_cons_self c hc)
      have hplace : ((place acc t).1.toList).filter (· ≠ '\n')
          = acc.1.toList.filter (· ≠ '\n') ++ t.toList := by
        unfold place
        simp only
        split
        · rw [String.toList_append, String.toList_append, List.filter_append, List.filter_append,
            ht]
          simp
        · rw [String.toList_append, List.filter_append, ht]
      rw [List.foldl_cons, ih (fun x hx => htoks x (List.mem_cons_of_mem t hx)), hplace,
        List.flatMap_cons, List.append_assoc]

theorem filter_body {cs : List Char} (hcs : ∀ c ∈ cs, Plain c) :
    (body cs).toList.filter (· ≠ '\n')
      = ((runs cs).flatMap fun r => (token r).toList) ++ ['!'] := by
  have htoks : ∀ t ∈ (runs cs).map token, ∀ c ∈ t.toList, c ≠ '\n' := by
    intro t ht c hc
    obtain ⟨r, hr, rfl⟩ := List.mem_map.mp ht
    exact ne_lineFeed_of_plain (plain_token hcs r hr c hc)
  unfold body
  rw [String.toList_append, List.filter_append, filter_place htoks, List.flatMap_map]
  rfl

/-- The text of symbols that fit is read as these symbols. -/
theorem decode_body {text : String} {first cs : List Char}
    (htext : text.toList = first ++ '\n' :: (body cs).toList) (hfirst : '\n' ∉ first)
    (hx : (Text.trim first).head? = some 'x') (hh : Header.ofLine? (Text.trim first) = some h)
    (hwidth : h.width ≤ limit) (hheight : h.height ≤ limit) (hw : Writable h n .start cs) :
    decode text n = .ok ⟨(cs.foldl Pen.mark .start).grid, h.width, h.height, h.rule⟩ := by
  have hcs := plain_of_writable hw
  have hfilter := filter_body hcs
  have htokens : ∀ c ∈ (runs cs).flatMap fun r => (token r).toList, Plain c := by
    intro c hc
    obtain ⟨r, hr, hmem⟩ := List.mem_flatMap.mp hc
    exact plain_token hcs r hr c hmem
  have hread : Reads h n .start ((runs cs).flatMap fun r => (token r).toList)
      (cs.foldl Pen.mark .start) := by
    have hruns := reads_runs hwidth hheight (p := .start) (runs_pos cs) rfl
      (by rw [expand_runs]; exact hw) (Nat.zero_le _) (Nat.zero_le _)
    rwa [expand_runs] at hruns
  refine decode_of_reads htext hfirst hx hh ?_ ?_
  · intro c hc hne
    have hmem : c ∈ (body cs).toList.filter (· ≠ '\n') :=
      List.mem_filter.mpr ⟨hc, decide_eq_true hne⟩
    rw [hfilter] at hmem
    rcases List.mem_append.mp hmem with htoken | hlast
    · exact ⟨(htokens c htoken).1, (htokens c htoken).2.1⟩
    · rw [List.mem_singleton.mp hlast]
      exact ⟨by decide, by simp⟩
  · rw [hfilter, List.takeWhile_append_of_pos, List.takeWhile_cons_of_neg (by simp),
      List.append_nil]
    · exact hread
    · intro c hc
      exact decide_eq_true (htokens c hc).2.2

/-! ### The first line -/

theorem headerValue?_eq {key : String} {k : List Char} (hk : '=' ∉ k)
    (hkey : Text.sameIgnoringCase (Text.trim k) key.toList = true) (v : List Char) :
    headerValue? key (k ++ '=' :: v) = some (Text.trim v) := by
  unfold headerValue?
  rw [Text.cutAt_append hk]
  exact if_pos hkey

theorem headerSize?_eq {key : String} {k : List Char} (hk : '=' ∉ k)
    (hkey : Text.sameIgnoringCase (Text.trim k) key.toList = true) {size : Nat}
    (hsize : size < 2 ^ 63) :
    headerSize? key (k ++ '=' :: ' ' :: (toString size).toList) = some size := by
  unfold headerSize?
  rw [headerValue?_eq hk hkey, Text.trim_cons_of_blank (by decide),
    Text.trim_of_not_blank fun _ => Text.isBlank_of_mem_toString]
  simp only [Option.bind_eq_bind, Option.bind_some, Text.signed?_toString hsize]
  rw [if_pos (Int.natCast_nonneg size), Int.toNat_natCast]

/-- The first line as it is written, in its three parts. -/
def firstLine (width height : Nat) (name : List Char) : List Char :=
  ("x ".toList ++ '=' :: ' ' :: (toString width).toList) ++ ',' ::
    ((" y ".toList ++ '=' :: ' ' :: (toString height).toList) ++ ',' ::
      (" rule ".toList ++ '=' :: name))

theorem toList_header {width height : Nat} (hwidth : (width : Int) = w.right - w.left)
    (hheight : (height : Int) = w.bottom - w.top) (name : String) :
    (header w name).toList = firstLine width height (' ' :: name.toList) ++ ['\n'] := by
  have hnat : ∀ k : Nat, toString (k : Int) = toString k := fun _ => rfl
  have hstr : ∀ t : String, toString t = t := fun _ => rfl
  unfold header firstLine
  rw [← hwidth, ← hheight, hnat, hnat]
  simp only [hstr, String.toList_append]
  generalize (toString width).toList = a
  generalize (toString height).toList = b
  simp

theorem not_mem_firstLine {width height : Nat} {name : List Char} (hname : '\n' ∉ name) :
    '\n' ∉ firstLine width height (' ' :: name) := by
  have ha : '\n' ∉ (toString width).toList := Text.not_mem_toString (by decide)
  have hb : '\n' ∉ (toString height).toList := Text.not_mem_toString (by decide)
  unfold firstLine
  generalize (toString width).toList = a at ha
  generalize (toString height).toList = b at hb
  simp [ha, hb, hname]

/-- Of the blanks around the line none but those around the name matter. -/
theorem trim_firstLine (width height : Nat) (name : List Char) :
    Text.trim (firstLine width height name) = firstLine width height (Text.trimEnd name) := by
  have hsplit : ∀ v : List Char, firstLine width height v
      = 'x' :: ((' ' :: '=' :: ' ' :: (toString width).toList ++ ',' ::
          ((" y ".toList ++ '=' :: ' ' :: (toString height).toList) ++ ',' :: " rule ".toList))
          ++ '=' :: v) := by
    intro v
    unfold firstLine
    simp
  rw [hsplit, hsplit, Text.trim_cons_of_not_blank (by decide), Text.trimEnd_append (by decide)]

theorem ofLine_firstLine {width height : Nat} (hwidth : width < 2 ^ 63) (hheight : height < 2 ^ 63)
    (name : List Char) : Header.ofLine? (firstLine width height name)
      = some ⟨width, height, some (String.ofList (Text.trim name))⟩ := by
  have hfirst : ',' ∉ "x ".toList ++ '=' :: ' ' :: (toString width).toList := by
    have ha : ',' ∉ (toString width).toList := Text.not_mem_toString (by decide)
    generalize (toString width).toList = a at ha
    simp [ha]
  have hsecond : ',' ∉ " y ".toList ++ '=' :: ' ' :: (toString height).toList := by
    have hb : ',' ∉ (toString height).toList := Text.not_mem_toString (by decide)
    generalize (toString height).toList = b at hb
    simp [hb]
  have hx : headerSize? "x" ("x ".toList ++ '=' :: ' ' :: (toString width).toList) = some width :=
    headerSize?_eq (by decide) (by decide) hwidth
  have hy : headerSize? "y" (" y ".toList ++ '=' :: ' ' :: (toString height).toList)
      = some height := headerSize?_eq (by decide) (by decide) hheight
  have hrule : headerValue? "rule" (" rule ".toList ++ '=' :: name) = some (Text.trim name) :=
    headerValue?_eq (by decide) (by decide) name
  unfold Header.ofLine? firstLine
  rw [Text.cutAt_append hfirst]
  simp only [Option.bind_eq_bind, Option.bind_some]
  rw [Text.cutAt_append hsecond]
  simp only [hx, hy, headerRule?, hrule, Option.map_some, Option.bind_some]
  rfl

/-! ### The round trip -/

/-- The pattern is the window of the grid, moved to the origin, under the trimmed name. -/
structure Shows (p : Pattern) (g : Grid) (w : Window) (name : String) : Prop where
  width : (p.width : Int) = w.right - w.left
  height : (p.height : Int) = w.bottom - w.top
  rule : p.rule = some (String.ofList (Text.trim name.toList))
  cells : ∀ c, p.grid.get c = if w.Contains (c + w.corner) then g.get (c + w.corner) else 0

/-- What can be written is read back. -/
theorem decode_symbols {name : String} {cs : List Char}
    (hsides : w.left ≤ w.right ∧ w.top ≤ w.bottom) (hname : '\n' ∉ name.toList) (hfits : w.Fits)
    (hcs : symbols g w = .ok cs) (hn : ∀ c, w.Contains c → g.get c ≠ 0 → g.get c < n) :
    ∃ p, decode (header w name ++ body cs) n = .ok p ∧ p.Shows g w name := by
  obtain ⟨width, hw⟩ := Int.eq_ofNat_of_zero_le (Int.sub_nonneg_of_le hsides.1)
  obtain ⟨height, hh⟩ := Int.eq_ofNat_of_zero_le (Int.sub_nonneg_of_le hsides.2)
  have hlimit : (limit : Int) = 2 ^ 63 - 1 := by decide
  obtain ⟨hwidth, hheight⟩ := hfits
  have hstates : ∀ c, w.Contains c → g.get c ≤ maxState ∧ (g.get c ≠ 0 → g.get c < n) := fun c hc =>
    ⟨le_of_symbols hcs hc, hn c hc⟩
  obtain ⟨hwritable, grid, hfold, hget⟩ := marked_rows
    (h := ⟨width, height, some (String.ofList (Text.trim name.toList))⟩) hw.symm hh.symm hstates
    height (Nat.le_refl _)
  have hsymbols : cs = (List.range height).flatMap fun (i : Nat) =>
      trimRow (rowLetters g w (w.top + (i : Int))) ++ ['$'] := by
    rw [symbols_eq fun c hc => (hstates c hc).1] at hcs
    injection hcs with hcs
    rw [← hcs]
    unfold between
    rw [List.flatMap_map, hh]
    rfl
  have htext : (header w name ++ body cs).toList
      = firstLine width height (' ' :: name.toList) ++ '\n' :: (body cs).toList := by
    rw [String.toList_append, toList_header hw.symm hh.symm, List.append_assoc]
    rfl
  have htrim : Text.trim (firstLine width height (' ' :: name.toList))
      = firstLine width height (Text.trimEnd (' ' :: name.toList)) := trim_firstLine _ _ _
  have hheader : Header.ofLine? (firstLine width height (Text.trimEnd (' ' :: name.toList)))
      = some ⟨width, height, some (String.ofList (Text.trim (Text.trimEnd (' ' :: name.toList))))⟩ :=
    ofLine_firstLine (by omega) (by omega) _
  rw [Text.trim_trimEnd, Text.trim_cons_of_blank (by decide), ← htrim] at hheader
  rw [← hsymbols] at hwritable hfold
  have hdecode := decode_body htext (not_mem_firstLine hname) (by rw [htrim]; rfl) hheader
    (by simp only; omega) (by simp only; omega) hwritable
  rw [hfold] at hdecode
  refine ⟨_, hdecode, hw.symm, hh.symm, rfl, fun c => ?_⟩
  rw [hget c]
  by_cases hc : w.Contains (c + w.corner)
  · rw [if_pos hc, if_pos]
    simp only [Window.Contains, Coord.add_row, Coord.add_col, Window.corner] at hc
    simp only
    omega
  · rw [if_neg hc, if_neg]
    intro hin
    refine hc ?_
    simp only [Window.Contains, Coord.add_row, Coord.add_col, Window.corner]
    simp only at hin
    omega

/-- A window is written exactly if its states have letters. -/
theorem encode_ok_iff {name : String} :
    (∃ text, encode g w name = .ok text) ↔ ∀ c, w.Contains c → g.get c ≤ maxState := by
  constructor
  · intro hok c hc
    obtain ⟨text, htext⟩ := hok
    obtain ⟨cs, hcs, -⟩ := ok_of_bind htext
    exact le_of_symbols hcs hc
  · intro hle
    unfold encode
    rw [symbols_eq hle]
    exact ⟨_, rfl⟩

/-- The text of a window, once its symbols are known. -/
theorem eq_of_encode {name text : String} (h : encode g w name = .ok text) :
    ∃ cs, symbols g w = .ok cs ∧ text = header w name ++ body cs := by
  obtain ⟨cs, hcs, htext⟩ := ok_of_bind h
  injection htext with htext
  exact ⟨cs, hcs, htext.symm⟩

/-- A written window is read back, one whose sizes fit. -/
theorem decode_of_encode {name text : String} (hsides : w.left ≤ w.right ∧ w.top ≤ w.bottom)
    (hname : '\n' ∉ name.toList) (hfits : w.Fits) (htext : encode g w name = .ok text)
    (hn : ∀ c, w.Contains c → g.get c ≠ 0 → g.get c < n) :
    ∃ p, decode text n = .ok p ∧ p.Shows g w name := by
  obtain ⟨cs, hcs, rfl⟩ := eq_of_encode htext
  exact decode_symbols hsides hname hfits hcs hn

/-- A whole grid is written exactly if its states have letters. -/
theorem encodeGrid_ok_iff {name : String} :
    (∃ text, encodeGrid g name = .ok text) ↔ ∀ c, g.get c ≤ maxState := by
  have hiff : (∃ text, encode g g.window name = .ok text) ↔
      ∀ c, g.window.Contains c → g.get c ≤ maxState := encode_ok_iff
  refine hiff.trans ⟨fun hle => ?_, fun hle c _ => hle c⟩
  exact Grid.forall_get (P := (· ≤ maxState)) (Nat.zero_le maxState)
    fun c hc => hle c (Grid.window_contains hc)

theorem between_add (lo hi d : Int) : between (lo + d) (hi + d) = (between lo hi).map (· + d) := by
  unfold between
  rw [List.map_map, show hi + d - (lo + d) = hi - lo by omega]
  refine List.map_congr_left fun i _ => ?_
  show lo + d + (i : Int) = lo + (i : Int) + d
  omega

/-- A window that moves with the cells is written as it was. -/
theorem encode_shift {k : Grid} {o : Offset} (hm : ∀ c, k.get (c + o) = g.get c)
    (hk : ∀ c, k.get c ≤ maxState) (name : String) :
    encode k (w.shift o) name = encode g w name := by
  have hg : ∀ c, g.get c ≤ maxState := fun c => hm c ▸ hk (c + o)
  have hrow : ∀ row, rowLetters k (w.shift o) (row + o.dy) = rowLetters g w row := by
    intro row
    show (between (w.left + o.dx) (w.right + o.dx)).map _ = _
    rw [between_add, List.map_map]
    refine List.map_congr_left fun col _ => ?_
    show letter (k.get ((⟨row, col⟩ : Coord) + o)) = letter (g.get ⟨row, col⟩)
    rw [hm]
  have hsymbols : symbols k (w.shift o) = symbols g w := by
    rw [symbols_eq fun c _ => hg c, symbols_eq fun c _ => hk c]
    show Except.ok ((between (w.top + o.dy) (w.bottom + o.dy)).flatMap _) = _
    rw [between_add, List.flatMap_map]
    refine congrArg Except.ok (List.flatMap_congr fun row _ => ?_)
    rw [hrow]
  have hheader : header (w.shift o) name = header w name := by
    unfold header Window.shift
    rw [show w.right + o.dx - (w.left + o.dx) = w.right - w.left by omega,
      show w.bottom + o.dy - (w.top + o.dy) = w.bottom - w.top by omega]
  unfold encode
  rw [hsymbols, hheader]

/-- **The text of a grid does not say where the grid lies.** -/
theorem encodeGrid_of_moved {k : Grid} {o : Offset} (hm : ∀ c, k.get (c + o) = g.get c)
    {name text : String} (htext : encodeGrid k name = .ok text) : encodeGrid g name = .ok text := by
  have hk : ∀ c, k.get c ≤ maxState := encodeGrid_ok_iff.mp ⟨text, htext⟩
  rw [← htext]
  show encode g g.window name = encode k k.window name
  have hbounds := Grid.tightBounds_of_moved hm
  unfold Grid.window
  rw [hbounds]
  cases g.tightBounds with
  | none => rfl
  | some b =>
      have hshift : (b.shift o).window = b.window.shift o := by
        simp only [Bounds.window, Bounds.shift, Window.shift, Window.mk.injEq, true_and]
        omega
      show encode g b.window name = encode k (b.shift o).window name
      rw [hshift, encode_shift hm hk]

/-- Nothing of a grid lies outside of its own window. -/
theorem Shows.get {p : Pattern} {name : String} (hp : p.Shows g g.window name) (c : Coord) :
    p.grid.get c = g.get (c + g.window.corner) := by
  rw [hp.cells c]
  by_cases hc : g.window.Contains (c + g.window.corner)
  · exact if_pos hc
  · rw [if_neg hc]
    by_contra hlive
    exact hc (Grid.window_contains (Ne.symm hlive))

/-! ### Within words -/

/-- The sizes that the header names fit, if the sides are in order. -/
theorem allFit_header (hsides : w.left ≤ w.right ∧ w.top ≤ w.bottom) :
    AllFit (headerArithmetic w) ↔ w.Fits := by
  have hlimit : (limit : Int) = 2 ^ 63 - 1 := by decide
  simp only [headerArithmetic, allFit_cons, allFit_nil, and_true, Calculation.Fits, InWord,
    Window.Fits]
  omega

theorem allFit_window : AllFit (windowArithmetic g) ↔
    ∀ b, g.tightBounds = some b → InWord (b.right + 1) ∧ InWord (b.bottom + 1) := by
  unfold windowArithmetic
  split
  · rename_i b hb
    simp only [hb, Option.some.injEq, forall_eq', allFit_cons, allFit_nil, and_true,
      Calculation.Fits]
  · rename_i hb
    simp only [hb, allFit_nil, reduceCtorEq, false_implies, implies_true]

theorem encodeInWords_eq_ok {name text : String}
    (hsides : w.left ≤ w.right ∧ w.top ≤ w.bottom) :
    encodeInWords g w name = .ok text ↔ w.Fits ∧ encode g w name = .ok text := by
  unfold encodeInWords
  rw [perform_mapError_then_eq_ok, allFit_header hsides]

theorem encodeGridInWords_eq_ok {name text : String} :
    encodeGridInWords g name = .ok text ↔
      (∀ b, g.tightBounds = some b → InWord (b.right + 1) ∧ InWord (b.bottom + 1)) ∧
        g.window.Fits ∧ encodeGrid g name = .ok text := by
  unfold encodeGridInWords
  rw [perform_mapError_then_eq_ok, allFit_window]
  exact and_congr_right fun _ => encodeInWords_eq_ok g.window_sides

/--
**Reading undoes writing.**  A window is written exactly if its sizes are words and each of its
cells has a state with a letter.  What is written is read as the window, moved to the origin, for
every number of states above those of the window, and the rule is the name without the blanks
around it.  The same holds of a whole grid and the smallest window around it, where the edges of
the window behind the last column and the last row must be words as well.
-/
theorem decode_encode (g : Grid) (name : String) (hname : '\n' ∉ name.toList) :
    (∀ w : Window, w.left ≤ w.right → w.top ≤ w.bottom →
      ((∃ text, encodeInWords g w name = .ok text) ↔
        w.Fits ∧ ∀ c, w.Contains c → g.get c ≤ maxState) ∧
      ∀ text n, encodeInWords g w name = .ok text → (∀ c, w.Contains c → g.get c < n) →
        ∃ p, decode text n = .ok p ∧ p.Shows g w name) ∧
    ((∃ text, encodeGridInWords g name = .ok text) ↔
      (∀ b, g.tightBounds = some b → InWord (b.right + 1) ∧ InWord (b.bottom + 1)) ∧
        g.window.Fits ∧ ∀ c, g.get c ≤ maxState) ∧
    ∀ text n, encodeGridInWords g name = .ok text → (∀ c, g.window.Contains c → g.get c < n) →
      ∃ p, decode text n = .ok p ∧ p.Shows g g.window name ∧
        ∀ c, p.grid.get c = g.get (c + g.window.corner) := by
  refine ⟨fun w hx hy => ⟨?_, fun text n htext hn => ?_⟩, ?_, fun text n htext hn => ?_⟩
  · simp only [encodeInWords_eq_ok ⟨hx, hy⟩, exists_and_left, encode_ok_iff]
  · obtain ⟨hfits, htext⟩ := (encodeInWords_eq_ok ⟨hx, hy⟩).mp htext
    exact decode_of_encode ⟨hx, hy⟩ hname hfits htext fun c hc _ => hn c hc
  · simp only [encodeGridInWords_eq_ok, exists_and_left, encodeGrid_ok_iff]
  · obtain ⟨-, hfits, htext⟩ := encodeGridInWords_eq_ok.mp htext
    obtain ⟨p, hp, hshows⟩ := decode_of_encode g.window_sides hname hfits htext
      fun c hc _ => hn c hc
    exact ⟨p, hp, hshows, hshows.get⟩

theorem decode_encode_between_blank_rows :
    let g := Grid.ofList [(⟨0, 0⟩, 1), (⟨0, 1⟩, 1), (⟨2, 2⟩, 25)]
    let w : Window := ⟨-1, -2, 4, 3⟩
    let text := "x = 5, y = 5, rule =  a=b, c \n2$.2A2$3.Y$!\n"
    '\n' ∉ " a=b, c ".toList ∧ encodeInWords g w " a=b, c " = .ok text ∧
      ∃ p, decode text 26 = .ok p ∧ p.Shows g w " a=b, c " := by
  intro g w text
  have hname : '\n' ∉ " a=b, c ".toList := by decide
  have htext : encodeInWords g w " a=b, c " = .ok text := by decide +kernel
  have hlive : ∀ c ∈ g.coords, g.get c < 26 := by decide +kernel
  have hn : ∀ c, w.Contains c → g.get c < 26 := by
    intro c _
    by_cases hc : g.get c = 0
    · rw [hc]
      decide
    · exact hlive c (Grid.mem_coords.mpr hc)
  have hwindow := (decode_encode g " a=b, c " hname).1 w (by decide) (by decide)
  exact ⟨hname, htext, hwindow.2 text 26 htext hn⟩

/-- A cell in the last column of all has a letter, but the window around it has an edge that is no
word; and so has a window one of whose sizes is no word, though its edges are. -/
theorem no_text_beyond_last_column :
    let g := Grid.ofList [(⟨0, 9223372036854775807⟩, 1)]
    let w : Window := ⟨-1, 0, 9223372036854775807, 1⟩
    (∀ c, g.get c ≤ maxState) ∧
      encodeGridInWords g "Life" = .error (.overflow (.add 9223372036854775807 1)) ∧
      (w.left ≤ w.right ∧ w.top ≤ w.bottom) ∧
      encodeInWords .empty w "Life" = .error (.overflow (.sub 9223372036854775807 (-1))) := by
  intro g w
  have hall : (∀ c ∈ g.coords, g.get c ≤ maxState) ∧
      encodeGridInWords g "Life" = .error (.overflow (.add 9223372036854775807 1)) ∧
      (w.left ≤ w.right ∧ w.top ≤ w.bottom) ∧
      encodeInWords .empty w "Life" = .error (.overflow (.sub 9223372036854775807 (-1))) := by
    decide +kernel
  obtain ⟨hlive, hrest⟩ := hall
  exact ⟨Grid.forall_get (P := (· ≤ maxState)) (Nat.zero_le maxState) fun c hc =>
    hlive c (Grid.mem_coords.mpr hc), hrest⟩

end Pattern

end Cellular
