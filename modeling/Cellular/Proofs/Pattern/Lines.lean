/-
The lines of a written pattern.

A line is broken between two runs, before it would grow past seventy characters, so it holds
whole runs and at most seventy characters of them (`Lined`).  A run takes a few digits and a
symbol, as it counts symbols of a window, and so it always fits on a line of its own.

The exclamation mark at the end is not a run and nothing is broken before it.  It follows the
last run on the same line, and if the runs already fill this line it has seventy-one characters.
-/
import Mathlib.Algebra.Order.BigOperators.Group.List
import Mathlib.Algebra.Order.Ring.Nat
import Cellular.Proofs.Pattern.Codec

namespace Cellular

namespace Pattern

variable {g : Grid} {w : Window}

/-- The characters of some runs that are placed on one line. -/
def line (toks : List String) : List Char := toks.flatMap String.toList

/-- The text of a pattern in lines: the first line is the header, on the others there are whole
runs in their order, and an exclamation mark ends the last of them. -/
structure Lined (text : String) (first : List Char) (toks : List String)
    (rows : List (List String)) (last : List String) : Prop where
  runs : (rows ++ [last]).flatten = toks
  fits : ∀ row ∈ rows ++ [last], (line row).length ≤ lineWidth
  lines : Text.pieces '\n' text.toList
    = first :: (rows.map line ++ [line last ++ ['!'], []])
  ends : ['!', '\n'] <:+ text.toList

/-! ### Placing runs -/

theorem line_append (toks toks' : List String) : line (toks ++ toks') = line toks ++ line toks' :=
  List.flatMap_append

theorem length_line_concat (toks : List String) (t : String) :
    (line (toks ++ [t])).length = (line toks).length + t.length := by
  rw [line_append, List.length_append]
  simp [line, String.length_toList]

theorem place_of_full {text t : String} {used : Nat} (h : lineWidth < used + t.length) :
    place (text, used) t = (text ++ "\n" ++ t, t.length) := if_pos h

theorem place_of_room {text t : String} {used : Nat} (h : used + t.length ≤ lineWidth) :
    place (text, used) t = (text ++ t, used + t.length) := if_neg (Nat.not_lt.mpr h)

/-- Runs that fit on a line each are placed on lines that they fit on. -/
theorem exists_rows {toks : List String} (htoks : ∀ t ∈ toks, t.length ≤ lineWidth) :
    ∃ (rows : List (List String)) (last : List String),
      (rows ++ [last]).flatten = toks ∧ (∀ row ∈ rows ++ [last], (line row).length ≤ lineWidth) ∧
      (toks.foldl place ("", 0)).1.toList
        = (rows.flatMap fun row => line row ++ ['\n']) ++ line last ∧
      (toks.foldl place ("", 0)).2 = (line last).length := by
  induction toks using List.reverseRecOn with
  | nil => exact ⟨[], [], rfl, by simp [line], rfl, rfl⟩
  | append_singleton toks t ih =>
      obtain ⟨rows, last, hflatten, hfits, htext, hused⟩ :=
        ih fun u hu => htoks u (List.mem_append_left _ hu)
      have ht : t.length ≤ lineWidth := htoks t (List.mem_append_right _ (List.mem_singleton_self t))
      have hone : line [t] = t.toList := List.append_nil _
      rw [List.foldl_append, List.foldl_cons, List.foldl_nil]
      generalize toks.foldl place ("", 0) = acc at htext hused ⊢
      obtain ⟨text, used⟩ := acc
      simp only at htext hused
      by_cases hbreak : lineWidth < used + t.length
      · -- The run opens the next line.
        rw [place_of_full hbreak]
        refine ⟨rows ++ [last], [t], ?_, fun row hrow => ?_, ?_, ?_⟩
        · rw [List.flatten_append, hflatten, List.flatten_singleton]
        · rcases List.mem_append.mp hrow with hold | hnew
          · exact hfits row hold
          · rw [List.mem_singleton.mp hnew, hone, String.length_toList]
            exact ht
        · rw [String.toList_append, String.toList_append, htext, List.flatMap_append,
            List.flatMap_singleton, hone, List.append_assoc, List.append_assoc, List.append_assoc,
            List.append_assoc]
          rfl
        · rw [hone, String.length_toList]
      · have hroom := Nat.le_of_not_lt hbreak
        rw [place_of_room hroom]
        refine ⟨rows, last ++ [t], ?_, fun row hrow => ?_, ?_, ?_⟩
        · rw [← hflatten, List.flatten_append, List.flatten_append, List.flatten_singleton,
            List.flatten_singleton, List.append_assoc]
        · rcases List.mem_append.mp hrow with hold | hnew
          · exact hfits row (List.mem_append_left _ hold)
          · rw [List.mem_singleton.mp hnew, length_line_concat, ← hused]
            exact hroom
        · rw [String.toList_append, htext, line_append, hone, List.append_assoc]
        · rw [length_line_concat, ← hused]

/-- Lines that hold no line feed are cut where they were joined. -/
theorem pieces_lines {rows : List (List Char)} (hrows : ∀ row ∈ rows, '\n' ∉ row)
    (rest : List Char) :
    Text.pieces '\n' ((rows.flatMap fun row => row ++ ['\n']) ++ rest)
      = rows ++ Text.pieces '\n' rest := by
  induction rows with
  | nil => rfl
  | cons row more ih =>
      rw [List.flatMap_cons, List.append_assoc, List.append_assoc, List.singleton_append,
        Text.pieces_append (hrows row List.mem_cons_self),
        ih fun x hx => hrows x (List.mem_cons_of_mem row hx)]
      rfl

/-! ### The runs of a window -/

theorem length_between (lo hi : Int) : (between lo hi).length = (hi - lo).toNat := by
  unfold between
  rw [List.length_map, List.length_range]

theorem length_trimRow_le (cs : List Char) : (trimRow cs).length ≤ cs.length :=
  (List.rdropWhile_prefix (· = '.') cs).length_le

theorem symbols_eq_of_ok {cs : List Char} (hcs : symbols g w = .ok cs) :
    cs = (between w.top w.bottom).flatMap fun row => trimRow (rowLetters g w row) ++ ['$'] := by
  rw [symbols_eq fun c hc => le_of_symbols hcs hc] at hcs
  exact (Except.ok.inj hcs).symm

/-- There are no more symbols than cells and ends of rows. -/
theorem length_symbols_le {cs : List Char} (hcs : symbols g w = .ok cs) :
    cs.length ≤ (w.bottom - w.top).toNat * ((w.right - w.left).toNat + 1) := by
  have hrow : ∀ row, (trimRow (rowLetters g w row) ++ ['$']).length
      ≤ (w.right - w.left).toNat + 1 := by
    intro row
    have htrim := length_trimRow_le (rowLetters g w row)
    unfold rowLetters at htrim
    rw [List.length_map, length_between] at htrim
    rw [List.length_append]
    exact Nat.add_le_add_right htrim 1
  rw [symbols_eq_of_ok hcs, List.length_flatMap]
  refine (List.sum_le_card_nsmul _ ((w.right - w.left).toNat + 1) fun n hn => ?_).trans ?_
  · obtain ⟨row, -, rfl⟩ := List.mem_map.mp hn
    exact hrow row
  · rw [List.length_map, length_between, Nat.nsmul_eq_mul]

theorem plain_symbols {cs : List Char} (hcs : symbols g w = .ok cs) : ∀ c ∈ cs, Plain c := by
  have hstates : ∀ c, w.Contains c → g.get c ≤ maxState := fun c hc => le_of_symbols hcs hc
  intro c hc
  rw [symbols_eq_of_ok hcs] at hc
  obtain ⟨row, hrow, hc⟩ := List.mem_flatMap.mp hc
  rcases List.mem_append.mp hc with hcell | hend
  · obtain ⟨col, hcol, rfl⟩ :=
      List.mem_map.mp ((List.rdropWhile_prefix (· = '.') _).subset hcell)
    have hle := hstates ⟨row, col⟩
      ⟨(mem_between.mp hrow).1, (mem_between.mp hrow).2, (mem_between.mp hcol).1,
        (mem_between.mp hcol).2⟩
    by_cases hzero : g.get ⟨row, col⟩ = 0
    · rw [show letter (g.get ⟨row, col⟩) = '.' from if_pos hzero]
      exact plain_background
    · exact plain_of_letter (letterState?_letter _ hle hzero)
  · rw [List.mem_singleton.mp hend]
    exact plain_rowEnd

/-- A run counts some of the symbols. -/
theorem le_length_of_mem_runs {cs : List Char} {r : Nat × Char} (hr : r ∈ runs cs) :
    r.1 ≤ cs.length := by
  have hmem : List.replicate r.1 r.2 ∈ (runs cs).map fun r => List.replicate r.1 r.2 :=
    List.mem_map.mpr ⟨r, hr, rfl⟩
  have hpart := (List.sublist_flatten_of_mem hmem).length_le
  rwa [← List.flatMap_def, List.length_replicate, ← expand, expand_runs] at hpart

/-- A number of a few digits and a symbol fit on a line. -/
theorem length_token_le {r : Nat × Char} (hr : r.1 < 10 ^ 69) : (token r).length ≤ lineWidth := by
  rw [← String.length_toList, toList_token]
  split
  · have hdigits : (toString r.1).toList.length ≤ 69 := by
      rw [show toString r.1 = r.1.repr from rfl, Nat.toList_repr]
      exact (Nat.length_toDigits_le_iff (by decide) (by decide)).mpr hr
    rw [List.length_append]
    exact Nat.add_le_add_right hdigits 1
  · exact Nat.le_add_left 1 69

/-- The runs of a window fit on a line each, as its sizes have at most twenty digits. -/
theorem length_run_le {cs : List Char} (hcs : symbols g w = .ok cs)
    (hsizes : w.right - w.left < 2 ^ 64 ∧ w.bottom - w.top < 2 ^ 64) :
    ∀ t ∈ (runs cs).map token, t.length ≤ lineWidth := by
  intro t ht
  obtain ⟨r, hr, rfl⟩ := List.mem_map.mp ht
  refine length_token_le ?_
  calc r.1 ≤ cs.length := le_length_of_mem_runs hr
    _ ≤ (w.bottom - w.top).toNat * ((w.right - w.left).toNat + 1) := length_symbols_le hcs
    _ ≤ 2 ^ 64 * (2 ^ 64 + 1) := Nat.mul_le_mul (by omega) (by omega)
    _ < 10 ^ 69 := by decide

/-! ### The lines -/

/-- The header is one line. -/
theorem exists_header {name : String} (hname : '\n' ∉ name.toList) :
    ∃ first, (header w name).toList = first ++ ['\n'] ∧ '\n' ∉ first := by
  have hsize : ∀ i : Int, '\n' ∉ (toString i).toList := by
    intro i hmem
    cases i with
    | ofNat k => exact absurd (Text.isDigit_of_mem_toString hmem) (by decide)
    | negSucc k =>
        rw [show toString (Int.negSucc k) = "-" ++ toString (k + 1) from rfl,
          String.toList_append] at hmem
        rcases List.mem_append.mp hmem with hsign | hdigit
        · exact absurd hsign (by decide)
        · exact absurd (Text.isDigit_of_mem_toString hdigit) (by decide)
  have hstr : ∀ t : String, toString t = t := fun _ => rfl
  refine ⟨(s!"x = {w.right - w.left}, y = {w.bottom - w.top}, rule = {name}").toList, ?_, ?_⟩
  · rw [← show "\n".toList = ['\n'] from rfl, ← String.toList_append]
    rfl
  · have hwidth := hsize (w.right - w.left)
    have hheight := hsize (w.bottom - w.top)
    simp only [hstr, String.toList_append]
    generalize (toString (w.right - w.left)).toList = a at hwidth
    generalize (toString (w.bottom - w.top)).toList = b at hheight
    simp [hwidth, hheight, hname]

/-- The body is cut where the runs were broken. -/
theorem pieces_body {cs : List Char} (hcs : ∀ c ∈ cs, Plain c) {rows : List (List String)}
    {last : List String} (hruns : (rows ++ [last]).flatten = (runs cs).map token)
    (hplaced : (((runs cs).map token).foldl place ("", 0)).1.toList
      = (rows.flatMap fun row => line row ++ ['\n']) ++ line last) :
    Text.pieces '\n' (body cs).toList = rows.map line ++ [line last ++ ['!'], []] := by
  have hplain : ∀ row ∈ rows ++ [last], '\n' ∉ line row := by
    intro row hrow hmem
    obtain ⟨t, ht, hc⟩ := List.mem_flatMap.mp hmem
    have htok : t ∈ (runs cs).map token := hruns ▸ List.mem_flatten.mpr ⟨row, hrow, ht⟩
    obtain ⟨r, hr, rfl⟩ := List.mem_map.mp htok
    exact ne_lineFeed_of_plain (plain_token hcs r hr _ hc) rfl
  have hrows : ∀ row ∈ rows.map line, '\n' ∉ row := by
    intro row hrow
    obtain ⟨toks, htoks, rfl⟩ := List.mem_map.mp hrow
    exact hplain toks (List.mem_append_left _ htoks)
  have hlast : '\n' ∉ line last ++ ['!'] := by
    intro hmem
    rcases List.mem_append.mp hmem with hrun | hmark
    · exact hplain last (List.mem_append_right _ (List.mem_singleton_self last)) hrun
    · simp at hmark
  have hbody : (body cs).toList = ((rows.map line).flatMap fun row => row ++ ['\n'])
      ++ ((line last ++ ['!']) ++ '\n' :: []) := by
    unfold body
    rw [String.toList_append, hplaced, List.flatMap_map, List.append_assoc, List.append_assoc]
    rfl
  rw [hbody, pieces_lines hrows, Text.pieces_append hlast, Text.pieces_nil]

/-- The exclamation mark is what makes a line too long. -/
theorem Lined.le_lineWidth_iff {text : String} {first : List Char} {toks : List String}
    {rows : List (List String)} {last : List String} (h : Lined text first toks rows last) :
    (∀ l ∈ (Text.pieces '\n' text.toList).tail, l.length ≤ lineWidth) ↔
      (line last).length < lineWidth := by
  rw [h.lines, List.tail_cons]
  constructor
  · intro hle
    have hmark := hle (line last ++ ['!']) (List.mem_append_right _ List.mem_cons_self)
    rwa [List.length_append] at hmark
  · intro hlt l hl
    rcases List.mem_append.mp hl with hrow | hend
    · obtain ⟨toks, htoks, rfl⟩ := List.mem_map.mp hrow
      exact h.fits toks (List.mem_append_left _ htoks)
    · rcases List.mem_cons.mp hend with rfl | hempty
      · rw [List.length_append]
        exact hlt
      · rw [List.mem_singleton.mp hempty]
        exact Nat.zero_le _

/--
**Runs are written in lines of at most seventy characters.**  Let a window whose sizes are
below `2 ^ 64` be written under a name of one line.  Then every line after the first holds whole
runs, in their order, and these take at most seventy characters.  The text ends with an
exclamation mark and a line feed.

The exclamation mark is put on the last line however long it is, so no line after the first has
more than seventy characters exactly if the runs on the last one take fewer.
-/
theorem encode_lines {name text : String} (hname : '\n' ∉ name.toList)
    (hsizes : w.right - w.left < 2 ^ 64 ∧ w.bottom - w.top < 2 ^ 64)
    (htext : encode g w name = .ok text) :
    ∃ (cs first : List Char) (rows : List (List String)) (last : List String),
      symbols g w = .ok cs ∧ (header w name).toList = first ++ ['\n'] ∧
      Lined text first ((runs cs).map token) rows last ∧
      ((∀ l ∈ (Text.pieces '\n' text.toList).tail, l.length ≤ lineWidth) ↔
        (line last).length < lineWidth) := by
  obtain ⟨cs, hcs, rfl⟩ := eq_of_encode htext
  obtain ⟨first, hheader, hfirst⟩ := exists_header (w := w) hname
  obtain ⟨rows, last, hruns, hfits, hplaced, -⟩ := exists_rows (length_run_le hcs hsizes)
  have hchars : (header w name ++ body cs).toList = first ++ '\n' :: (body cs).toList := by
    rw [String.toList_append, hheader, List.append_assoc]
    rfl
  have hlined : Lined (header w name ++ body cs) first ((runs cs).map token) rows last := by
    refine ⟨hruns, hfits, ?_, ?_⟩
    · rw [hchars, Text.pieces_append hfirst, pieces_body (plain_symbols hcs) hruns hplaced]
    · unfold body
      rw [← String.append_assoc, String.toList_append]
      exact List.suffix_append _ _
  exact ⟨cs, first, rows, last, hcs, hheader, hlined, hlined.le_lineWidth_iff⟩

/-- Forty cells with gaps between them take a line of seventy characters and a second one. -/
theorem encode_lines_of_forty_cells :
    let g := Grid.ofList ((List.range 40).map fun (i : Nat) => (⟨0, 2 * (i : Int)⟩, 1))
    let w : Window := ⟨0, 0, 80, 1⟩
    '\n' ∉ "Life".toList ∧ (w.right - w.left < 2 ^ 64 ∧ w.bottom - w.top < 2 ^ 64) ∧
      ∃ text, encode g w "Life" = .ok text ∧
        (Text.pieces '\n' text.toList).map List.length = [26, 70, 11, 0] ∧
        ∃ (cs first : List Char) (rows : List (List String)) (last : List String),
          symbols g w = .ok cs ∧ (header w "Life").toList = first ++ ['\n'] ∧
          Lined text first ((runs cs).map token) rows last ∧
          ((∀ l ∈ (Text.pieces '\n' text.toList).tail, l.length ≤ lineWidth) ↔
            (line last).length < lineWidth) := by
  intro g w
  have hname : '\n' ∉ "Life".toList := by decide
  have hsizes : w.right - w.left < 2 ^ 64 ∧ w.bottom - w.top < 2 ^ 64 := by decide
  obtain ⟨text, htext, hlengths⟩ : ∃ text, encode g w "Life" = .ok text ∧
      decide ((Text.pieces '\n' text.toList).map List.length = [26, 70, 11, 0]) = true :=
    exists_ok_of_any (by decide +kernel)
  exact ⟨hname, hsizes, text, htext, of_decide_eq_true hlengths,
    encode_lines hname hsizes htext⟩

/-- Thirty-five cells with gaps between them and the end of their row fill a line, and the
exclamation mark follows on the same one. -/
theorem line_of_seventy_one :
    let g := Grid.ofList ((List.range 35).map fun (i : Nat) => (⟨0, 2 * (i : Int)⟩, 1))
    let w : Window := ⟨0, 0, 69, 1⟩
    '\n' ∉ "Life".toList ∧ ∃ text, encode g w "Life" = .ok text ∧
      ∃ l ∈ (Text.pieces '\n' text.toList).tail, lineWidth < l.length := by
  intro g w
  obtain ⟨text, htext, hlong⟩ : ∃ text, encode g w "Life" = .ok text ∧
      decide (∃ l ∈ (Text.pieces '\n' text.toList).tail, lineWidth < l.length) = true :=
    exists_ok_of_any (by decide +kernel)
  exact ⟨by decide, text, htext, of_decide_eq_true hlong⟩

end Pattern

end Cellular
