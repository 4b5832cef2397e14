/-
Writing what was read.

A header declares a box, and every run is checked against it before it is written.  The end of
a run is capped at the largest position, so the check tells nothing about the columns of a box
that is itself as wide as that: there the pen gives up where it would leave the box.  So no cell
lies outside of any box (`cell_of_decode`).

A text that is read may be written in many ways: with comments, blanks and breaks, with `b` and
`o`, with counts of zero, without its last rows, with anything after the exclamation mark.  The
box of what was read is written in one of them, and that one is read as the same pattern.
-/
import Cellular.Proofs.Pattern.Codec

namespace Cellular

namespace Pattern

variable {n : Nat} {text : String} {p : Pattern}

/-- The box that the header declares. -/
def box (p : Pattern) : Window := ⟨0, 0, p.width, p.height⟩

/-! ### What a header says -/

theorem le_of_headerSize? {key : String} {part : List Char} {size : Nat}
    (h : headerSize? key part = some size) : size ≤ limit := by
  obtain ⟨v, -, h⟩ := Option.bind_eq_some_iff.mp h
  obtain ⟨k, hk, h⟩ := Option.bind_eq_some_iff.mp h
  have hbits := (Option.filter_eq_some_iff.mp hk).2
  rw [Bool.and_eq_true, decide_eq_true_eq, decide_eq_true_eq] at hbits
  have hlimit : ((1 <<< (64 - 1) : Nat) : Int) = limit + 1 := by decide
  split at h
  · injection h with h
    omega
  · simp at h

/-- The name of the rule is a part of the line. -/
theorem mem_of_headerRule? {part : List Char} {name : String} (h : headerRule? part = some name)
    {c : Char} (hc : c ∈ name.toList) : c ∈ part := by
  obtain ⟨v, hv, rfl⟩ := Option.map_eq_some_iff.mp h
  rw [String.toList_ofList] at hc
  obtain ⟨⟨k, value⟩, hcut, hv⟩ := Option.bind_eq_some_iff.mp hv
  simp only at hv
  split at hv
  · injection hv with hv
    rw [← hv] at hc
    exact (Text.sublist_of_cutAt hcut).mem ((Text.trim_sublist value).mem hc)
  · simp at hv

/-- What a header says fits into 64 bits, and its rule is a part of the line. -/
theorem bounds_of_header {line : List Char} {h : Header} (hh : Header.ofLine? line = some h) :
    h.width ≤ limit ∧ h.height ≤ limit ∧ ∀ c ∈ (h.rule.getD "").toList, c ∈ line := by
  obtain ⟨⟨first, rest⟩, hcut, hh⟩ := Option.bind_eq_some_iff.mp hh
  simp only at hh
  split at hh
  · obtain ⟨width, hwidth, hh⟩ := Option.bind_eq_some_iff.mp hh
    obtain ⟨height, hheight, hh⟩ := Option.bind_eq_some_iff.mp hh
    injection hh with hh
    subst hh
    exact ⟨le_of_headerSize? hwidth, le_of_headerSize? hheight,
      fun c hc => absurd hc List.not_mem_nil⟩
  · rename_i second third hcut'
    obtain ⟨width, hwidth, hh⟩ := Option.bind_eq_some_iff.mp hh
    obtain ⟨height, hheight, hh⟩ := Option.bind_eq_some_iff.mp hh
    obtain ⟨name, hname, hh⟩ := Option.bind_eq_some_iff.mp hh
    injection hh with hh
    subst hh
    refine ⟨le_of_headerSize? hwidth, le_of_headerSize? hheight, fun c hc => ?_⟩
    have hthird : c ∈ third := mem_of_headerRule? hname hc
    exact (Text.sublist_of_cutAt hcut).mem ((Text.sublist_of_cutAt hcut').mem hthird)

/-- The sizes of a pattern that was read fit into 64 bits, and its rule is named in one line. -/
theorem bounds_of_decode (hdecode : decode text n = .ok p) :
    p.width ≤ limit ∧ p.height ≤ limit ∧ '\n' ∉ (p.rule.getD "").toList := by
  obtain ⟨first, h, lines, pen, hfirst, hheader, -, rfl⟩ := parts_of_decode hdecode
  obtain ⟨hwidth, hheight, hrule⟩ := bounds_of_header hheader
  exact ⟨hwidth, hheight, fun hmem => Text.not_mem_line hfirst (hrule '\n' hmem)⟩

/-! ### Where the cells lie -/

theorem letterState?_le {c : Char} {s : State} (h : letterState? c = some s) : s ≤ maxState := by
  unfold letterState? at h
  split at h
  · injection h with h
    rw [← h]
    decide
  · split at h
    · rename_i hrange
      have hlast : c.toNat ≤ 89 := hrange.2
      injection h with h
      rw [← h]
      show c.toNat - 64 ≤ 25
      omega
    · simp at h

/-- **No run leaves the box,** and its state is one of the rule that has a letter. -/
theorem cell_of_decode (hdecode : decode text n = .ok p) {c : Coord} (hc : p.grid.get c ≠ 0) :
    p.box.Contains c ∧ p.grid.get c ≤ maxState ∧ p.grid.get c < n := by
  obtain ⟨q, symbol, hletter, hs, hrow, hend, i, hi, hcell⟩ := taken_of_decode hdecode hc
  have hrowOf : c.row = q.row := congrArg Coord.row hcell
  have hcolOf : c.col = (q.col : Int) + (i : Int) := congrArg Coord.col hcell
  refine ⟨?_, letterState?_le hletter, hs⟩
  show 0 ≤ c.row ∧ c.row < (p.height : Int) ∧ 0 ≤ c.col ∧ c.col < (p.width : Int)
  omega

/-! ### Writing the box -/

/-- The box of a pattern that was read can be written, and is read as what is shown in it. -/
theorem decode_of_box (hdecode : decode text n = .ok p) :
    ∃ written q, encodeInWords p.grid p.box (p.rule.getD "") = .ok written ∧
      decode written n = .ok q ∧ q.Shows p.grid p.box (p.rule.getD "") := by
  obtain ⟨hwidth, hheight, hname⟩ := bounds_of_decode hdecode
  have hstates : ∀ c, p.grid.get c ≤ maxState :=
    Grid.forall_get (P := (· ≤ maxState)) (Nat.zero_le maxState)
      fun c hc => (cell_of_decode hdecode hc).2.1
  have hsides : p.box.left ≤ p.box.right ∧ p.box.top ≤ p.box.bottom :=
    ⟨Int.natCast_nonneg p.width, Int.natCast_nonneg p.height⟩
  have hfits : p.box.Fits := by
    show (p.width : Int) - 0 ≤ limit ∧ (p.height : Int) - 0 ≤ limit
    omega
  obtain ⟨written, hwritten⟩ := encode_ok_iff.mpr fun c _ => hstates c
  obtain ⟨q, hq, hshows⟩ := decode_of_encode hsides hname hfits hwritten
    fun c _ hc => (cell_of_decode hdecode hc).2.2
  exact ⟨written, q, (encodeInWords_eq_ok hsides).mpr ⟨hfits, hwritten⟩, hq, hshows⟩

/-- What is shown in the box is the whole pattern. -/
theorem Shows.toList_eq {q : Pattern} {name : String} (hq : q.Shows p.grid p.box name)
    (hdecode : decode text n = .ok p) : q.grid.toList = p.grid.toList := by
  refine Grid.toList_congr fun c => ?_
  have hcell := hq.cells c
  rw [show c + p.box.corner = c from Coord.add_zero c] at hcell
  rw [hcell]
  split
  · rfl
  · rename_i hout
    by_contra hc
    exact hout (cell_of_decode hdecode (Ne.symm hc)).1

/--
**Writing undoes reading.**  The cells of a pattern that was read lie in its box and are in states
of the rule that have a letter.  The box can be written under the name that was read, and the text
is read as a pattern of the same sizes and the same cells.
-/
theorem encode_of_decode (hdecode : decode text n = .ok p) :
    (∀ c, p.grid.get c ≠ 0 →
      (0 ≤ c.row ∧ c.row < p.height ∧ 0 ≤ c.col ∧ c.col < p.width) ∧
        p.grid.get c ≤ maxState ∧ p.grid.get c < n) ∧
    ∃ written q, encodeInWords p.grid p.box (p.rule.getD "") = .ok written ∧
      decode written n = .ok q ∧ q.width = p.width ∧ q.height = p.height ∧
      q.grid.toList = p.grid.toList := by
  obtain ⟨written, q, hwritten, hq, hshows⟩ := decode_of_box hdecode
  have hwidth : (q.width : Int) = p.width - 0 := hshows.width
  have hheight : (q.height : Int) = p.height - 0 := hshows.height
  exact ⟨fun c hc => cell_of_decode hdecode hc, written, q, hwritten, hq, by omega, by omega,
    hshows.toList_eq hdecode⟩

/-- Comments, blanks, breaks, a count of zero, a run that ends on the edge, a row that is left
out and text after the end. -/
theorem encode_of_decode_of_loose_text :
    let text := "#C made by hand\n X=4, y = 3 , rule = a=b, c \n2\n b2 \no $\n#C more\n 0A! end"
    ∃ p, decode text 2 = .ok p ∧
      p.grid.toList = [(⟨0, 2⟩, 1), (⟨0, 3⟩, 1), (⟨1, 0⟩, 1)] ∧
      ∃ written q, encodeInWords p.grid p.box (p.rule.getD "") = .ok written ∧
        written = "x = 4, y = 3, rule = a=b, c\n2.2A$A2$!\n" ∧
        decode written 2 = .ok q ∧ q.width = p.width ∧ q.height = p.height ∧
        q.grid.toList = p.grid.toList := by
  intro text
  obtain ⟨p, hp, hpoint⟩ : ∃ p, decode text 2 = .ok p ∧ decide (
      p.grid.toList = [(⟨0, 2⟩, 1), (⟨0, 3⟩, 1), (⟨1, 0⟩, 1)] ∧
      (encodeInWords p.grid p.box (p.rule.getD "")).toOption
        = some "x = 4, y = 3, rule = a=b, c\n2.2A$A2$!\n") = true :=
    exists_ok_of_any (by decide +kernel)
  obtain ⟨hlist, htext⟩ := of_decide_eq_true hpoint
  obtain ⟨-, written, q, hwritten, hq, hw, hh, hcells⟩ := encode_of_decode hp
  refine ⟨p, hp, hlist, written, q, hwritten, ?_, hq, hw, hh, hcells⟩
  rw [hwritten] at htext
  exact Option.some.inj htext

/-- In a box of the largest width the check lets every run pass, and a run that starts on the edge
is given up. -/
example : (decode "x = 9223372036854775807, y = 1\n9223372036854775807.A!" 2).map (·.width)
    = .error (.overflow (.add 9223372036854775807 1)) := by decide +kernel

end Pattern

end Cellular
