/-
The reader takes a run as it takes the symbols of the run one by one.

The writer counts equal symbols and the reader checks a whole run against the box
before it walks it.  Between the two stands `Pen.mark`, which takes one symbol and
knows no counts.  A list of symbols is `Writable` when each of them fits into the box
at the moment it is marked, and then the text of its runs is read with the same pen as
outcome, whatever line the characters stand on: that is `reads_runs`.

What surrounds the symbols is taken off by `decode_of_reads`: the first line is the
header, and the breaks between the other lines do not matter.
-/
import Cellular.Pattern.Decode
import Cellular.Proofs.Chain
import Cellular.Proofs.Grid
import Cellular.Proofs.Text

namespace Cellular

namespace Pattern

/-! ### Runs -/

/-- The symbols that a list of runs stands for. -/
def expand (rs : List (Nat × Char)) : List Char := rs.flatMap fun r => List.replicate r.1 r.2

@[simp] theorem expand_cons (r : Nat × Char) (rs : List (Nat × Char)) :
    expand (r :: rs) = List.replicate r.1 r.2 ++ expand rs := rfl

private theorem runs_cons (c : Char) (cs : List Char) :
    runs (c :: cs) = match runs cs with
      | (n, d) :: r => if c = d then (n + 1, d) :: r else (1, c) :: (n, d) :: r
      | [] => [(1, c)] := by
  show (match runs cs with
    | (n, d) :: r => if c = d then (n + 1, d) :: r else (1, c) :: runs cs
    | [] => [(1, c)]) = _
  cases h : runs cs with
  | nil => rfl
  | cons r rs => rfl

/-- Counting equal symbols loses none. -/
theorem expand_runs (cs : List Char) : expand (runs cs) = cs := by
  induction cs with
  | nil => rfl
  | cons c rest ih =>
      rw [runs_cons]
      cases hruns : runs rest with
      | nil =>
          rw [hruns] at ih
          rw [← ih]
          rfl
      | cons r rs =>
          obtain ⟨n, d⟩ := r
          rw [hruns] at ih
          simp only
          split
          · rename_i hcd
            rw [← ih, hcd, expand_cons, expand_cons]
            rfl
          · rw [← ih]
            rfl

theorem runs_pos (cs : List Char) : ∀ r ∈ runs cs, 1 ≤ r.1 := by
  induction cs with
  | nil =>
      intro r hr
      simp [runs] at hr
  | cons c rest ih =>
      intro r hr
      rw [runs_cons] at hr
      cases hruns : runs rest with
      | nil =>
          rw [hruns] at hr
          rw [List.mem_singleton.mp hr]
      | cons q qs =>
          obtain ⟨n, d⟩ := q
          rw [hruns] at hr ih
          simp only at hr
          split at hr
          · rcases List.mem_cons.mp hr with rfl | htail
            · exact Nat.le_add_left 1 n
            · exact ih r (List.mem_cons_of_mem _ htail)
          · rcases List.mem_cons.mp hr with rfl | htail
            · exact Nat.le_refl 1
            · exact ih r htail

/-! ### Symbols -/

theorem letterState?_range {c : Char} {s : State} (h : letterState? c = some s) :
    c = 'o' ∨ (65 ≤ c.toNat ∧ c.toNat ≤ 89) := by
  unfold letterState? at h
  split at h
  · rename_i ho
    exact Or.inl ho
  · split at h
    · rename_i hrange
      exact Or.inr hrange
    · simp at h

theorem not_background_of_letter {c : Char} {s : State} (h : letterState? c = some s) :
    ¬(c = '.' ∨ c = 'b') := by
  have hrange := letterState?_range h
  intro hor
  rcases hor with heq | heq <;> simp [heq] at hrange

theorem ne_rowEnd_of_letter {c : Char} {s : State} (h : letterState? c = some s) : c ≠ '$' := by
  have hrange := letterState?_range h
  intro heq
  simp [heq] at hrange

/-- The characters that neither end a line nor a pattern and begin no comment. -/
def Plain (c : Char) : Prop := Text.isBlank c = false ∧ c ≠ '#' ∧ c ≠ '!'

theorem plain_of_range {c : Char} (h : 48 ≤ c.toNat ∧ c.toNat ≤ 122) : Plain c := by
  refine ⟨Text.isBlank_of_range h, ?_, ?_⟩
  · intro heq
    simp [heq] at h
  · intro heq
    simp [heq] at h

theorem plain_of_letter {c : Char} {s : State} (h : letterState? c = some s) : Plain c := by
  rcases letterState?_range h with rfl | hrange
  · exact plain_of_range (by decide)
  · exact plain_of_range (by omega)

/-- Takes one symbol, without regard to the box. -/
def Pen.mark (p : Pen) (c : Char) : Pen :=
  if c = '.' ∨ c = 'b' then { p with col := p.col + 1 }
  else if c = '$' then { p with row := p.row + 1, col := 0 }
  else match letterState? c with
    | some s => { p with col := p.col + 1, grid := p.grid.set ⟨p.row, p.col⟩ s }
    | none => p

/-- The symbol may be marked here without leaving the box. -/
inductive Fits (h : Header) (n : Nat) (p : Pen) : Char → Prop where
  | background {c : Char} : c = '.' ∨ c = 'b' → p.col < h.width → Fits h n p c
  | rowEnd : p.row < h.height → Fits h n p '$'
  | letter {c : Char} {s : State} : letterState? c = some s → s < n → p.row < h.height →
      p.col < h.width → Fits h n p c

/-- Each symbol fits at the moment it is marked. -/
def Writable (h : Header) (n : Nat) : Pen → List Char → Prop
  | _, [] => True
  | p, c :: cs => Fits h n p c ∧ Writable h n (p.mark c) cs

variable {h : Header} {n : Nat}

theorem Pen.mark_background (p : Pen) {c : Char} (hc : c = '.' ∨ c = 'b') :
    p.mark c = { p with col := p.col + 1 } := if_pos hc

theorem Pen.mark_rowEnd (p : Pen) : p.mark '$' = { p with row := p.row + 1, col := 0 } := by
  unfold mark
  rw [if_neg (by simp), if_pos rfl]

theorem Pen.mark_letter (p : Pen) {c : Char} {s : State} (hc : letterState? c = some s) :
    p.mark c = { p with col := p.col + 1, grid := p.grid.set ⟨p.row, p.col⟩ s } := by
  unfold mark
  rw [if_neg (not_background_of_letter hc), if_neg (ne_rowEnd_of_letter hc), hc]

@[simp] theorem Pen.mark_count (p : Pen) (c : Char) : (p.mark c).count = p.count := by
  unfold mark
  split
  · rfl
  · split
    · rfl
    · split <;> rfl

@[simp] theorem Pen.foldl_mark_count (cs : List Char) :
    ∀ p : Pen, (cs.foldl mark p).count = p.count := by
  induction cs with
  | nil => intro p; rfl
  | cons c rest ih =>
      intro p
      rw [List.foldl_cons, ih, mark_count]

theorem writable_append {cs ds : List Char} :
    ∀ {p : Pen}, Writable h n p (cs ++ ds) ↔
      Writable h n p cs ∧ Writable h n (cs.foldl Pen.mark p) ds := by
  induction cs with
  | nil => intro p; exact ⟨fun hw => ⟨trivial, hw⟩, fun hw => hw.2⟩
  | cons c rest ih =>
      intro p
      show Fits h n p c ∧ Writable h n (p.mark c) (rest ++ ds)
        ↔ (Fits h n p c ∧ Writable h n (p.mark c) rest) ∧ _
      rw [ih, and_assoc]
      rfl

/-! ### One run, marked symbol by symbol -/

theorem mark_replicate_background {c : Char} (hc : c = '.' ∨ c = 'b') (k : Nat) :
    ∀ {p : Pen}, Writable h n p (List.replicate k c) → p.col ≤ h.width →
      p.col + k ≤ h.width ∧
        (List.replicate k c).foldl Pen.mark p = { p with col := p.col + k } := by
  induction k with
  | zero => intro p _ hcol; exact ⟨hcol, rfl⟩
  | succ k ih =>
      intro p hw _
      obtain ⟨hfit, hrest⟩ := hw
      have hlt : p.col < h.width := by
        cases hfit with
        | background _ hcol => exact hcol
        | rowEnd => simp at hc
        | letter hl => exact absurd hc (not_background_of_letter hl)
      rw [Pen.mark_background _ hc] at hrest
      obtain ⟨hle, hfold⟩ := ih hrest hlt
      refine ⟨by simp only at hle; omega, ?_⟩
      rw [List.replicate_succ, List.foldl_cons, Pen.mark_background _ hc, hfold]
      simp only [Pen.mk.injEq, and_true, true_and]
      omega

theorem mark_replicate_rowEnd (k : Nat) :
    ∀ {p : Pen}, Writable h n p (List.replicate k '$') → p.row ≤ h.height →
      p.row + k ≤ h.height ∧ (1 ≤ k →
        (List.replicate k '$').foldl Pen.mark p = { p with row := p.row + k, col := 0 }) := by
  induction k with
  | zero => intro p _ hrow; exact ⟨hrow, fun hk => absurd hk (by omega)⟩
  | succ k ih =>
      intro p hw _
      obtain ⟨hfit, hrest⟩ := hw
      have hlt : p.row < h.height := by
        cases hfit with
        | background hor => simp at hor
        | rowEnd hrow => exact hrow
        | letter hl => exact absurd rfl (ne_rowEnd_of_letter hl)
      rw [Pen.mark_rowEnd] at hrest
      obtain ⟨hle, hfold⟩ := ih hrest hlt
      refine ⟨by simp only at hle; omega, fun _ => ?_⟩
      rw [List.replicate_succ, List.foldl_cons, Pen.mark_rowEnd]
      by_cases hk : 1 ≤ k
      · rw [hfold hk]
        simp only [Pen.mk.injEq, and_true]
        omega
      · rw [show k = 0 by omega]
        rfl

theorem mark_replicate_letter {c : Char} {s : State} (hc : letterState? c = some s) (k : Nat) :
    ∀ {p : Pen}, Writable h n p (List.replicate k c) → p.col ≤ h.width →
      p.col + k ≤ h.width ∧ (1 ≤ k → s < n ∧ p.row < h.height) ∧
        (List.replicate k c).foldl Pen.mark p = { p with
          col := p.col + k
          grid := (List.range k).foldl
            (fun g (i : Nat) => g.set ⟨p.row, (p.col : Int) + (i : Int)⟩ s) p.grid } := by
  induction k with
  | zero => intro p _ hcol; exact ⟨hcol, fun hk => absurd hk (by omega), rfl⟩
  | succ k ih =>
      intro p hw hcol
      rw [List.replicate_succ', writable_append] at hw
      obtain ⟨hle, -, hfold⟩ := ih hw.1 hcol
      obtain ⟨hfit, -⟩ := hw.2
      rw [hfold] at hfit
      have hroom : s < n ∧ p.row < h.height ∧ p.col + k < h.width := by
        cases hfit with
        | background hor => exact absurd hor (not_background_of_letter hc)
        | rowEnd => exact absurd rfl (ne_rowEnd_of_letter hc)
        | letter hl hs hrow hlt =>
            rw [hc] at hl
            injection hl with hl
            exact ⟨hl ▸ hs, hrow, hlt⟩
      refine ⟨hroom.2.2, fun _ => ⟨hroom.1, hroom.2.1⟩, ?_⟩
      rw [List.replicate_succ', List.foldl_append, hfold, List.foldl_cons, List.foldl_nil,
        Pen.mark_letter _ hc, List.range_succ, List.foldl_append]
      simp only [Pen.mk.injEq, true_and, List.foldl_cons, List.foldl_nil, Int.natCast_add, and_true]
      omega

/-! ### Reading -/

/-- The reader takes the characters from one pen to the other, on whatever lines. -/
def Reads (h : Header) (n : Nat) (p : Pen) (cs : List Char) (q : Pen) : Prop :=
  ∀ l : List (Nat × Char), l.map Prod.snd = cs →
    l.foldlM (fun (p : Pen) (x : Nat × Char) => p.take h n x.2 x.1) p = .ok q

theorem Reads.nil (p : Pen) : Reads h n p [] p := by
  intro l hl
  rw [List.map_eq_nil_iff.mp hl]
  rfl

theorem Reads.append {p q r : Pen} {cs ds : List Char} (hc : Reads h n p cs q)
    (hd : Reads h n q ds r) : Reads h n p (cs ++ ds) r := by
  intro l hl
  obtain ⟨l₁, l₂, rfl, h₁, h₂⟩ := List.map_eq_append_iff.mp hl
  rw [List.foldlM_append, hc l₁ h₁]
  exact hd l₂ h₂

theorem Reads.char {p q : Pen} {c : Char} (hc : ∀ line, p.take h n c line = .ok q) :
    Reads h n p [c] q := by
  intro l hl
  obtain ⟨x, rfl, hx⟩ := List.map_eq_singleton_iff.mp hl
  rw [List.foldlM_cons, hx, hc]
  rfl

private theorem foldl_min_limit (ds : List Char) :
    ∀ m : Nat, ds.foldl (fun m c => min (10 * m + Text.digitValue c) limit) (min m limit)
      = min (ds.foldl (fun m c => 10 * m + Text.digitValue c) m) limit := by
  induction ds with
  | nil => intro m; rfl
  | cons d rest ih =>
      intro m
      rw [List.foldl_cons, List.foldl_cons, ← ih]
      congr 1
      omega

private theorem reads_digits_from (ds : List Char) :
    ∀ p : Pen, (∀ c ∈ ds, c.isDigit = true) → Reads h n p ds { p with
      count := ds.foldl (fun m c => min (10 * m + Text.digitValue c) limit) p.count } := by
  induction ds with
  | nil => intro p _; exact Reads.nil p
  | cons d rest ih =>
      intro p hds
      have hfirst : Reads h n p [d] { p with
          count := min (10 * p.count + Text.digitValue d) limit } :=
        Reads.char fun line => if_pos (hds d List.mem_cons_self)
      exact hfirst.append (ih _ fun c hc => hds c (List.mem_cons_of_mem d hc))

/-- A number is read as it is up to the largest count. -/
theorem reads_number {p : Pen} (hp : p.count = 0) (k : Nat) :
    Reads h n p (toString k).toList { p with count := min k limit } := by
  have hread := reads_digits_from (h := h) (n := n) (toString k).toList p
    fun c hc => Text.isDigit_of_mem_toString hc
  have hvalue := foldl_min_limit (toString k).toList 0
  rw [Nat.zero_min] at hvalue
  rw [hp, hvalue] at hread
  rwa [show (toString k).toList.foldl (fun m c => 10 * m + Text.digitValue c) 0 = k from
    Text.digitsValue_toString k] at hread

/-! ### One run, taken at once -/

theorem take_background {p : Pen} {c : Char} (hc : c = '.' ∨ c = 'b')
    (hfit : p.col + p.run ≤ h.width) (hw : h.width ≤ limit) (line : Nat) :
    p.take h n c line = .ok { p with col := p.col + p.run, count := 0 } := by
  have hcol : p.nextCol = p.col + p.run := Nat.min_eq_left (Nat.le_trans hfit hw)
  have hdigit : ¬c.isDigit = true := by rcases hc with rfl | rfl <;> simp
  unfold Pen.take
  rw [if_neg hdigit, if_pos hc, hcol, if_neg (Nat.not_lt.mpr hfit)]

theorem take_rowEnd {p : Pen} (hfit : p.row + p.run ≤ h.height) (hh : h.height ≤ limit)
    (line : Nat) :
    p.take h n '$' line = .ok { p with row := p.row + p.run, col := 0, count := 0 } := by
  have hrow : p.nextRow = p.row + p.run := Nat.min_eq_left (Nat.le_trans hfit hh)
  unfold Pen.take
  rw [if_neg (by simp), if_neg (by simp), if_pos rfl, hrow, if_neg (Nat.not_lt.mpr hfit)]

theorem take_letter {p : Pen} {c : Char} {s : State} (hc : letterState? c = some s) (hs : s < n)
    (hrow : p.row < h.height) (hfit : p.col + p.run ≤ h.width) (hw : h.width ≤ limit)
    (line : Nat) : p.take h n c line = .ok (p.write s) := by
  have hcol : p.nextCol = p.col + p.run := Nat.min_eq_left (Nat.le_trans hfit hw)
  have hrange := letterState?_range hc
  have hdigit : ¬c.isDigit = true := by
    intro hd
    have hdigit := Text.isDigit_range hd
    rcases hrange with ho | hrange
    · simp [ho] at hd
    · omega
  have hpoint : ¬(c = '.' ∨ c = 'b') := not_background_of_letter hc
  have hend : ¬c = '$' := ne_rowEnd_of_letter hc
  have hblank : ¬Text.isBlank c = true := by simp [(plain_of_letter hc).1]
  unfold Pen.take
  simp only
  rw [if_neg hdigit, if_neg hpoint, if_neg hend, if_neg hblank, hc]
  simp only
  rw [if_neg (Nat.not_le.mpr hs), hcol, if_neg (by omega), if_neg (by omega)]

/-- A run that may be marked symbol by symbol is taken at once with the same outcome. -/
theorem take_run {p : Pen} {k : Nat} {c : Char} (hk : 1 ≤ k)
    (hw : Writable h n { p with count := 0 } (List.replicate k c)) (hrun : p.run = k)
    (hcol : p.col ≤ h.width) (hrow : p.row ≤ h.height) (hwidth : h.width ≤ limit)
    (hheight : h.height ≤ limit) (line : Nat) :
    p.take h n c line = .ok ((List.replicate k c).foldl Pen.mark { p with count := 0 }) := by
  have hfirst : Fits h n { p with count := 0 } c := by
    obtain ⟨k, rfl⟩ := Nat.exists_eq_add_of_le' hk
    exact hw.1
  cases hfirst with
  | background hc =>
      obtain ⟨hle, hfold⟩ := mark_replicate_background hc k hw hcol
      rw [hfold, take_background hc (by rw [hrun]; exact hle) hwidth line, hrun]
  | rowEnd =>
      obtain ⟨hle, hfold⟩ := mark_replicate_rowEnd k hw hrow
      rw [hfold hk, take_rowEnd (by rw [hrun]; exact hle) hheight line, hrun]
  | letter hc =>
      obtain ⟨hle, hroom, hfold⟩ := mark_replicate_letter hc k hw hcol
      obtain ⟨hs, hrow⟩ := hroom hk
      rw [hfold, take_letter (p := p) hc hs hrow (by rw [hrun]; exact hle) hwidth line]
      unfold Pen.write
      rw [hrun]

/-- A pen inside the box stays inside. -/
theorem mark_inside {p : Pen} {c : Char} (hfit : Fits h n p c) (hrow : p.row ≤ h.height) :
    (p.mark c).col ≤ h.width ∧ (p.mark c).row ≤ h.height := by
  cases hfit with
  | background hc hlt => rw [Pen.mark_background _ hc]; exact ⟨hlt, hrow⟩
  | rowEnd hlt => rw [Pen.mark_rowEnd]; exact ⟨Nat.zero_le _, hlt⟩
  | letter hc _ _ hlt => rw [Pen.mark_letter _ hc]; exact ⟨hlt, hrow⟩

theorem foldl_mark_inside {cs : List Char} :
    ∀ {p : Pen}, Writable h n p cs → p.col ≤ h.width → p.row ≤ h.height →
      (cs.foldl Pen.mark p).col ≤ h.width ∧ (cs.foldl Pen.mark p).row ≤ h.height := by
  induction cs with
  | nil => intro p _ hcol hrow; exact ⟨hcol, hrow⟩
  | cons c rest ih =>
      intro p hw hcol hrow
      obtain ⟨hcol', hrow'⟩ := mark_inside hw.1 hrow
      exact ih hw.2 hcol' hrow'

theorem toList_token (k : Nat) (c : Char) :
    (token (k, c)).toList = if 1 < k then (toString k).toList ++ [c] else [c] := by
  unfold token
  split
  · simp [show toString c = String.singleton c from rfl]
  · simp

theorem length_le_of_writable {k : Nat} {c : Char} {p : Pen}
    (hw : Writable h n p (List.replicate k c)) (hcol : p.col ≤ h.width)
    (hrow : p.row ≤ h.height) (hwidth : h.width ≤ limit) (hheight : h.height ≤ limit) :
    k ≤ limit := by
  by_cases hk : 1 ≤ k
  · have hfirst : Fits h n p c := by
      obtain ⟨k, rfl⟩ := Nat.exists_eq_add_of_le' hk
      exact hw.1
    cases hfirst with
    | background hc =>
        obtain ⟨hle, -⟩ := mark_replicate_background hc k hw hcol
        omega
    | rowEnd =>
        obtain ⟨hle, -⟩ := mark_replicate_rowEnd k hw hrow
        omega
    | letter hc =>
        obtain ⟨hle, -⟩ := mark_replicate_letter hc k hw hcol
        omega
  · omega

/-- The text of a run is read as the symbols of the run. -/
theorem reads_token {p : Pen} {k : Nat} {c : Char} (hk : 1 ≤ k) (hp : p.count = 0)
    (hw : Writable h n p (List.replicate k c)) (hcol : p.col ≤ h.width)
    (hrow : p.row ≤ h.height) (hwidth : h.width ≤ limit) (hheight : h.height ≤ limit) :
    Reads h n p (token (k, c)).toList ((List.replicate k c).foldl Pen.mark p) := by
  have hzero : { p with count := 0 } = p := by rw [← hp]
  have htake : ∀ q : Pen, { q with count := 0 } = p → q.run = k → ∀ line,
      q.take h n c line = .ok ((List.replicate k c).foldl Pen.mark p) := by
    intro q hq hrun line
    subst hq
    exact take_run hk hw hrun hcol hrow hwidth hheight line
  rw [toList_token]
  split
  · have hlimit := length_le_of_writable hw hcol hrow hwidth hheight
    have hnumber := reads_number (h := h) (n := n) hp k
    rw [Nat.min_eq_left hlimit] at hnumber
    exact hnumber.append (Reads.char (htake _ hzero (Nat.max_eq_left hk)))
  · refine Reads.char (htake p hzero ?_)
    unfold Pen.run
    omega

/-- **The text of the runs is read as the symbols.** -/
theorem reads_runs {rs : List (Nat × Char)} (hwidth : h.width ≤ limit)
    (hheight : h.height ≤ limit) :
    ∀ {p : Pen}, (∀ r ∈ rs, 1 ≤ r.1) → p.count = 0 → Writable h n p (expand rs) →
      p.col ≤ h.width → p.row ≤ h.height →
      Reads h n p (rs.flatMap fun r => (token r).toList) ((expand rs).foldl Pen.mark p) := by
  induction rs with
  | nil => intro p _ _ _ _ _; exact Reads.nil p
  | cons r rest ih =>
      intro p hpos hp hw hcol hrow
      rw [expand_cons, writable_append] at hw
      obtain ⟨hcol', hrow'⟩ := foldl_mark_inside hw.1 hcol hrow
      have hhead := reads_token (hpos r List.mem_cons_self) hp hw.1 hcol hrow hwidth hheight
      have hrest := ih (fun x hx => hpos x (List.mem_cons_of_mem r hx))
        ((Pen.foldl_mark_count _ p).trans hp) hw.2 hcol' hrow'
      rw [List.flatMap_cons, expand_cons, List.foldl_append]
      exact hhead.append hrest

/-! ### The text around the symbols -/

theorem map_snd_bodyChars (lines : List (Nat × List Char)) :
    (bodyChars lines).map Prod.snd = (lines.flatMap Prod.snd).takeWhile (· ≠ '!') := by
  have hchars : (lines.flatMap fun x => x.2.map (x.1, ·)).map Prod.snd = lines.flatMap Prod.snd := by
    rw [List.map_flatMap]
    refine List.flatMap_congr fun x _ => ?_
    rw [List.map_map]
    exact List.map_id _
  rw [← hchars, List.takeWhile_map]
  rfl

/-- Lines that are no comments, put together again. -/
theorem flatMap_contents {ls : List (List Char × Nat)}
    (hls : ∀ l ∈ ls, ∀ c ∈ l.1, Text.isBlank c = false ∧ c ≠ '#') :
    ((ls.map fun l => (l.2, Text.trim l.1)).filter fun x => isContent x.2).flatMap Prod.snd
      = ls.flatMap Prod.fst := by
  induction ls with
  | nil => rfl
  | cons l rest ih =>
      have hl := hls l List.mem_cons_self
      have htrim : Text.trim l.1 = l.1 := Text.trim_of_not_blank fun c hc => (hl c hc).1
      have hrest := ih fun x hx => hls x (List.mem_cons_of_mem l hx)
      rw [List.map_cons, htrim, List.flatMap_cons, ← hrest]
      cases hchars : l.1 with
      | nil =>
          rw [List.filter_cons_of_neg (by simp [isContent])]
          rfl
      | cons c cs =>
          have hc : c ≠ '#' := (hl c (hchars ▸ List.mem_cons_self)).2
          rw [List.filter_cons_of_pos (by simp [isContent, hc])]
          rfl

/-- **A text is read as its header and its symbols,** however its lines are broken. -/
theorem decode_of_reads {text : String} {first rest : List Char} {q : Pen}
    (htext : text.toList = first ++ '\n' :: rest) (hfirst : '\n' ∉ first)
    (hx : (Text.trim first).head? = some 'x') (hh : Header.ofLine? (Text.trim first) = some h)
    (hrest : ∀ c ∈ rest, c ≠ '\n' → Text.isBlank c = false ∧ c ≠ '#')
    (hq : Reads h n .start ((rest.filter (· ≠ '\n')).takeWhile (· ≠ '!')) q) :
    decode text n = .ok ⟨q.grid, h.width, h.height, h.rule⟩ := by
  have hlines : Text.numberedLines text = (1, Text.trim first) ::
      ((Text.pieces '\n' rest).zipIdx 2).map fun l => (l.2, Text.trim l.1) := by
    unfold Text.numberedLines
    rw [htext, Text.pieces_append hfirst, List.zipIdx_cons]
    rfl
  have hcontent : isContent (Text.trim first) = true := by
    unfold isContent
    rw [hx]
    cases htrim : Text.trim first with
    | nil =>
        rw [htrim] at hx
        simp at hx
    | cons c cs => simp
  have hpieces : ∀ l ∈ (Text.pieces '\n' rest).zipIdx 2, ∀ c ∈ l.1,
      Text.isBlank c = false ∧ c ≠ '#' := by
    intro l hl c hc
    have hmem : c ∈ (Text.pieces '\n' rest).flatten :=
      List.mem_flatten.mpr ⟨l.1, List.fst_mem_of_mem_zipIdx hl, hc⟩
    rw [Text.flatten_pieces, List.mem_filter, decide_eq_true_eq] at hmem
    exact hrest c hmem.1 hmem.2
  have hbody := map_snd_bodyChars
    ((((Text.pieces '\n' rest).zipIdx 2).map fun l => (l.2, Text.trim l.1)).filter
      fun x => isContent x.2)
  rw [flatMap_contents hpieces, List.flatMap_def, List.zipIdx_map_fst, Text.flatten_pieces]
    at hbody
  have hpen := hq _ hbody
  have hcontents : ((Text.numberedLines text).filter fun l => isContent l.2)
      = (1, Text.trim first) ::
        (((Text.pieces '\n' rest).zipIdx 2).map fun l => (l.2, Text.trim l.1)).filter
          fun x => isContent x.2 := by
    rw [hlines]
    exact List.filter_cons_of_pos hcontent
  unfold decode
  rw [hcontents]
  simp only
  rw [if_neg (by rw [hx]; simp), hh]
  show (do
    let pen ← (bodyChars _).foldlM (fun (p : Pen) (x : Nat × Char) => p.take h n x.2 x.1) .start
    return (⟨pen.grid, h.width, h.height, h.rule⟩ : Pattern)) = _
  rw [hpen]
  rfl

/-! ### What is read -/

/-- A text that is read has a header line, and a body that the pen takes from there on. -/
theorem parts_of_decode {text : String} {p : Pattern} (hdecode : decode text n = .ok p) :
    ∃ (first : Nat × List Char) (h : Header) (lines : List (Nat × List Char)) (pen : Pen),
      first ∈ Text.numberedLines text ∧ Header.ofLine? first.2 = some h ∧
      (bodyChars lines).foldlM (fun (q : Pen) (x : Nat × Char) => q.take h n x.2 x.1) .start
        = .ok pen ∧
      p = ⟨pen.grid, h.width, h.height, h.rule⟩ := by
  unfold decode at hdecode
  split at hdecode
  · simp at hdecode
  · rename_i number first lines hlines
    have hfirst : (number, first) ∈ Text.numberedLines text :=
      List.mem_of_mem_filter (hlines ▸ List.mem_cons_self)
    split at hdecode
    · simp at hdecode
    · split at hdecode
      · simp at hdecode
      · rename_i h hheader
        obtain ⟨pen, hpen, hp⟩ := ok_of_bind hdecode
        injection hp with hp
        exact ⟨(number, first), h, lines, pen, hfirst, hheader, hpen, hp.symm⟩

/-- The cell belongs to a run of the state that the reader takes. -/
def Taken (width height n : Nat) (c : Coord) (s : State) : Prop :=
  ∃ (p : Pen) (symbol : Char), letterState? symbol = some s ∧ s < n ∧ p.row < height ∧
    p.col + p.run ≤ width ∧ ∃ i < p.run, c = ⟨p.row, (p.col : Int) + (i : Int)⟩

/-- A character leaves the cells alone or writes a run that fits. -/
theorem grid_of_take {p q : Pen} {c : Char} {line : Nat} (h' : p.take h n c line = .ok q) :
    q.grid = p.grid ∨ ∃ s, letterState? c = some s ∧ s < n ∧ p.row < h.height ∧
      p.col + p.run ≤ h.width ∧ q = p.write s := by
  unfold Pen.take at h'
  simp only at h'
  split at h'
  · injection h' with h'
    exact Or.inl (by rw [← h'])
  · split at h'
    · split at h'
      · simp at h'
      · injection h' with h'
        exact Or.inl (by rw [← h'])
    · split at h'
      · split at h'
        · simp at h'
        · injection h' with h'
          exact Or.inl (by rw [← h'])
      · split at h'
        · injection h' with h'
          exact Or.inl (by rw [← h'])
        · split at h'
          · simp at h'
          · rename_i s hletter
            split at h'
            · simp at h'
            · rename_i hs
              split at h'
              · simp at h'
              · rename_i hroom
                split at h'
                · simp at h'
                · rename_i hlimit
                  have hcol : p.nextCol = p.col + p.run := Nat.min_eq_left (Nat.not_lt.mp hlimit)
                  injection h' with h'
                  exact Or.inr ⟨s, hletter, Nat.lt_of_not_le hs, by omega, by omega, h'.symm⟩

/-- A cell of a pattern is one of the run written last, or was there before. -/
theorem get_write (p : Pen) (s : State) (c : Coord) :
    (p.write s).grid.get c = p.grid.get c ∨
      (p.write s).grid.get c = s ∧ ∃ i < p.run, c = ⟨p.row, (p.col : Int) + (i : Int)⟩ := by
  have hrun : ∀ k ≤ p.run, ∀ grid, grid = (List.range k).foldl
      (fun g (i : Nat) => g.set ⟨p.row, (p.col : Int) + (i : Int)⟩ s) p.grid →
      grid.get c = p.grid.get c ∨
        grid.get c = s ∧ ∃ i < p.run, c = ⟨p.row, (p.col : Int) + (i : Int)⟩ := by
    intro k
    induction k with
    | zero => exact fun _ grid hgrid => Or.inl (by rw [hgrid]; rfl)
    | succ k ih =>
        intro hk grid hgrid
        rw [List.range_succ, List.foldl_append, List.foldl_cons, List.foldl_nil] at hgrid
        rw [hgrid, Grid.get_set]
        split
        · rename_i hc
          exact Or.inr ⟨rfl, k, hk, hc⟩
        · exact ih (by omega) _ rfl
  exact hrun p.run (Nat.le_refl _) _ rfl

/-- **Every cell that is read belongs to a run that fits.** -/
theorem taken_of_decode {text : String} {p : Pattern} (hdecode : decode text n = .ok p) {c : Coord}
    (hc : p.grid.get c ≠ 0) : Taken p.width p.height n c (p.grid.get c) := by
  obtain ⟨-, h, lines, pen, -, -, hpen, rfl⟩ := parts_of_decode hdecode
  refine invariant_of_foldlM
    (fun q : Pen => ∀ c, q.grid.get c ≠ 0 → Taken h.width h.height n c (q.grid.get c))
    ?_ ?_ hpen c hc
  · intro q x _ q' hq hstep c hc
    rcases grid_of_take hstep with hsame | ⟨s, hletter, hs, hrow, hcol, rfl⟩
    · rw [hsame] at hc ⊢
      exact hq c hc
    · rcases get_write q s c with hbefore | ⟨hstate, hrun⟩
      · rw [hbefore] at hc ⊢
        exact hq c hc
      · rw [hstate]
        exact ⟨q, x.2, hletter, hs, hrow, hcol, hrun⟩
  · intro c hc
    exact absurd (Grid.get_empty c) hc

/-- **Every state of a pattern that was read is a state of the rule.** -/
theorem get_lt_of_decode {text : String} {p : Pattern} (hdecode : decode text n = .ok p)
    (hn : 0 < n) (c : Coord) : p.grid.get c < n := by
  refine Grid.forall_get (P := (· < n)) hn (fun c hc => ?_) c
  obtain ⟨-, -, -, hs, -⟩ := taken_of_decode hdecode hc
  exact hs

end Pattern

end Cellular
