/-
Identification within words.

The tests subtract positions of cells, and the second one also adds the difference to positions.
So they give up on patterns whose cells lie too far apart, even if there is something to find
(`no_verdict_far_apart`, `no_copies_far_apart`).  Where they answer, they answer what they do on
unbounded numbers, and so does the search (`search_of_searchInWords`).

They answer as long as three times the distance of every cell from the origin is a word.  That
is so in each generation of a search if it is so of the square that the pattern cannot leave before
the last generation (`Valid.exists_searchInWords`).
-/
import Cellular.Proofs.Identification.FirstMatch
import Cellular.Proofs.Word.Run

namespace Cellular

/-! ### Displacements between cells -/

section

variable {b m : Int} {c c' : Coord} {o : Offset} {g : Grid}

/-- Every live cell is no further from the origin than `b`. -/
def Grid.Within (b : Int) (g : Grid) : Prop := ∀ c, g.get c ≠ 0 → c.Within b

theorem Grid.Within.mem (hg : g.Within b) {p : Coord × State} (hp : p ∈ g.toList) :
    p.1.Within b := by
  obtain ⟨hget, hlive⟩ := Grid.mem_toList.mp hp
  exact hg p.1 (by rwa [hget])

theorem Coord.radius_sub_le (hc : c.Within b) (hc' : c'.Within b) :
    ((c - c').radius : Int) ≤ 2 * b := by
  unfold Within at hc hc'
  unfold Offset.radius
  simp only [Coord.sub_dy, Coord.sub_dx]
  omega

theorem Coord.allFit_sub (hc : c.Within b) (hc' : c'.Within b) (hb : 2 * b < 2 ^ 63) :
    AllFit (c.subArithmetic c') := by
  unfold Within at hc hc'
  simp only [subArithmetic, allFit_cons, allFit_nil, and_true, Calculation.Fits, InWord]
  omega

end

namespace Reference

variable {r : Reference} {g h : Grid} {o : Offset} {b : Int} {kind : PatternKind} {period : Nat}

/-- Both tests try the difference of the first cells. -/
theorem exists_of_guess {cells now : List (Coord × State)} (test : Offset → Bool)
    (ho : (match cells, now with
      | (a, _) :: _, (b, _) :: _ => if test (a - b) then some (a - b) else none
      | _, _ => none) = some o) : ∃ p ∈ cells, ∃ q ∈ now, p.1 - q.1 = o := by
  split at ho
  · split at ho
    · exact ⟨_, List.mem_cons_self, _, List.mem_cons_self, Option.some.inj ho⟩
    · simp at ho
  · simp at ho

/-! ### The first test -/

/-- Where every difference is the same, it is enough that this one fits. -/
theorem allFit_movedBy (hdy : InWord o.dy) (hdx : InWord o.dx) :
    ∀ {cells now : List (Coord × State)}, movedBy o cells now = true →
      AllFit (movedByArithmetic o cells now)
  | [], _, _ => allFit_nil
  | _ :: _, [], _ => allFit_nil
  | (a, s) :: cells, (b, t) :: now, hmoved => by
      unfold movedBy at hmoved
      rw [List.zip_cons_cons, List.all_cons, Bool.and_eq_true] at hmoved
      obtain ⟨hfirst, hrest⟩ := hmoved
      simp only [Bool.and_eq_true, decide_eq_true_eq] at hfirst
      rw [movedByArithmetic, if_pos hfirst, allFit_append]
      refine ⟨?_, allFit_movedBy hdy hdx hrest⟩
      rw [← hfirst.1] at hdy hdx
      simpa [Coord.subArithmetic, Calculation.Fits] using ⟨hdy, hdx⟩

theorem allFit_movedBy_of_within (hb : 2 * b < 2 ^ 63) :
    ∀ {cells now : List (Coord × State)}, (∀ p ∈ cells, p.1.Within b) →
      (∀ p ∈ now, p.1.Within b) → AllFit (movedByArithmetic o cells now)
  | [], _, _, _ => allFit_nil
  | _ :: _, [], _, _ => allFit_nil
  | (a, s) :: cells, (c, t) :: now, hcells, hnow => by
      obtain ⟨ha, hcells⟩ := List.forall_mem_cons.mp hcells
      obtain ⟨hc, hnow⟩ := List.forall_mem_cons.mp hnow
      rw [movedByArithmetic, allFit_append, allFit_ite]
      exact ⟨Coord.allFit_sub ha hc hb, fun _ => allFit_movedBy_of_within hb hcells hnow,
        fun _ => allFit_nil⟩

theorem translationInWords?_eq_ok {answer : Option Offset} :
    r.translationInWords? h = .ok answer ↔
      AllFit (r.translationArithmetic h) ∧ r.translation? h = answer := perform_then

/-- The displacement that is found is the difference of two cells. -/
theorem exists_of_translation? (ho : r.translation? h = some o) :
    ∃ p ∈ r.cells, ∃ q ∈ h.toList, p.1 - q.1 = o := by
  unfold translation? at ho
  split at ho
  · simp at ho
  · exact exists_of_guess (fun o => movedBy o r.cells h.toList) ho

/-- A displacement that is found is found within words exactly if it fits itself. -/
theorem allFit_translation (ho : r.translation? h = some o) :
    AllFit (r.translationArithmetic h) ↔ InWord o.dy ∧ InWord o.dx := by
  unfold translation? at ho
  unfold translationArithmetic
  split at ho
  · simp at ho
  · rename_i hsize
    rw [if_neg hsize]
    simp only at ho ⊢
    split at ho
    · rename_i hcells hnow
      split at ho
      · rename_i hmoved
        obtain rfl := Option.some.inj ho
        simp only [hcells, hnow] at hmoved ⊢
        simp only [Coord.subArithmetic, allFit_append, allFit_cons, allFit_nil, and_true,
          Calculation.Fits]
        exact ⟨And.left, fun hword => ⟨hword, allFit_movedBy hword.1 hword.2 hmoved⟩⟩
      · simp at ho
    · simp at ho

/-- **Within words a pattern is found to be moved exactly if it is, and the displacement fits.** -/
theorem Valid.translationInWords?_eq_some_iff (hr : r.Valid) :
    r.translationInWords? h = .ok (some o) ↔
      r.grid.sameCells (h.translate o) = true ∧ InWord o.dy ∧ InWord o.dx := by
  rw [translationInWords?_eq_ok, ← hr.translation?_eq_some_iff, and_comm]
  exact and_congr_right allFit_translation

/-! ### The second test -/

theorem twoCopiesInWords?_eq_ok {answer : Option Offset} :
    r.twoCopiesInWords? h = .ok answer ↔
      AllFit (r.twoCopiesArithmetic h) ∧ r.twoCopies? h = answer := perform_then

theorem exists_of_twoCopies? (ho : r.twoCopies? h = some o) :
    ∃ p ∈ r.cells, ∃ q ∈ h.toList, p.1 - q.1 = o := by
  unfold twoCopies? at ho
  split at ho
  · simp at ho
  · exact exists_of_guess (fun o => o ≠ .zero && h.toList.all fun p =>
      r.grid.get (p.1 + o) = p.2 || r.grid.get (p.1 + -o) = p.2) ho

theorem allFit_copied (ho : (o.radius : Int) ≤ 2 * b) (hb : 3 * b < 2 ^ 63) :
    ∀ {now : List (Coord × State)}, (∀ p ∈ now, p.1.Within b) → AllFit (copiedArithmetic g o now)
  | [], _ => allFit_nil
  | (c, s) :: now, hnow => by
      have hc : c.Within b := hnow (c, s) List.mem_cons_self
      have hnow : ∀ p ∈ now, p.1.Within b := fun p hp => hnow p (List.mem_cons_of_mem _ hp)
      have hrest := allFit_copied ho hb hnow
      have hback : AllFit [.sub c.row o.dy, .sub c.col o.dx] := by
        unfold Coord.Within at hc
        unfold Offset.radius at ho
        simp only [allFit_cons, allFit_nil, and_true, Calculation.Fits, InWord]
        omega
      rw [copiedArithmetic, allFit_append, allFit_ite, allFit_append, allFit_ite]
      exact ⟨Coord.allFit_add hc ho (by omega), fun _ => hrest, fun _ => ⟨hback, fun _ => hrest,
        fun _ => allFit_nil⟩⟩

/-! ### Patterns that are not too far apart -/

section

variable (hr : r.Valid) (hgrid : r.grid.Within b) (hh : h.Within b)
include hr hgrid hh

theorem Valid.allFit_translation_of_within (hb : 2 * b < 2 ^ 63) :
    AllFit (r.translationArithmetic h) := by
  unfold translationArithmetic
  rw [allFit_ite]
  refine ⟨fun _ => allFit_nil, fun _ => ?_⟩
  simp only
  split
  · rename_i hcells hnow
    have ha := hgrid.mem (hr.cells ▸ hcells ▸ List.mem_cons_self)
    have hc := hh.mem (hnow ▸ List.mem_cons_self)
    rw [allFit_append]
    exact ⟨Coord.allFit_sub ha hc hb, allFit_movedBy_of_within hb
      (fun p hp => hgrid.mem (hr.cells ▸ hp)) fun p hp => hh.mem hp⟩
  · exact allFit_nil

theorem Valid.allFit_twoCopies (hb : 3 * b < 2 ^ 63) (hpos : 0 ≤ b) :
    AllFit (r.twoCopiesArithmetic h) := by
  unfold twoCopiesArithmetic
  rw [allFit_ite]
  refine ⟨fun _ => allFit_nil, fun _ => ?_⟩
  simp only
  split
  · rename_i hcells hnow
    have ha := hgrid.mem (hr.cells ▸ hcells ▸ List.mem_cons_self)
    have hc := hh.mem (hnow ▸ List.mem_cons_self)
    rw [allFit_append, allFit_ite]
    exact ⟨Coord.allFit_sub ha hc (by omega), fun _ => allFit_nil, fun _ =>
      allFit_copied (Coord.radius_sub_le ha hc) hb fun p hp => hh.mem hp⟩
  · exact allFit_nil

/-- The speed of a displacement between cells fits. -/
theorem Valid.allFit_speed (hb : 2 * b < 2 ^ 63)
    (ho : ∃ p ∈ r.cells, ∃ q ∈ h.toList, p.1 - q.1 = o) : AllFit o.absArithmetic := by
  obtain ⟨p, hp, q, hq, rfl⟩ := ho
  have hradius := Coord.radius_sub_le (hgrid.mem (hr.cells ▸ hp)) (hh.mem hq)
  exact Offset.allFit_abs (by omega)

theorem Valid.allFit_verdict (hb : 3 * b < 2 ^ 63) (hpos : 0 ≤ b) :
    AllFit (r.verdictArithmetic kind h) := by
  have hspeed : ∀ {o? : Option Offset},
      (∀ o, o? = some o → ∃ p ∈ r.cells, ∃ q ∈ h.toList, p.1 - q.1 = o) →
      AllFit ((o?.map Offset.absArithmetic).getD []) := by
    intro o? ho
    cases o? with
    | none => exact allFit_nil
    | some o => exact hr.allFit_speed hgrid hh (by omega) (ho o rfl)
  unfold verdictArithmetic
  simp only [allFit_append, allFit_ite]
  refine ⟨⟨fun hkind => ⟨hr.allFit_translation_of_within hgrid hh (by omega), ?_⟩,
    fun _ => allFit_nil⟩, fun _ => ⟨hr.allFit_twoCopies hgrid hh hb hpos, ?_⟩, fun _ => allFit_nil⟩
  · rw [if_pos hkind]
    exact hspeed fun o => exists_of_translation?
  · exact hspeed fun o => exists_of_twoCopies?

end

/--
**The replicator test finds two disjoint copies, and nothing else.**  A pattern with cells has a
reference.  Where its test of another pattern answers, it finds something exactly if that pattern is
made of two copies of the first one that share no cell, moved by opposite displacements, every cell
in the state of its copy.  The displacement that is found is then that of one of the two copies.
The test answers wherever three times the distance of each cell from the origin is a word.
-/
theorem twoCopies?_exact (hg : g.isEmpty = false) :
    ∃ r, ofGrid? g = some r ∧ ∀ h : Grid,
      (∀ o?, r.twoCopiesInWords? h = .ok o? →
        ((∃ o, o? = some o) ↔ ∃ d, g.TwoCopies d h) ∧
        ∀ d, g.TwoCopies d h → o? = some d ∨ o? = some (-d)) ∧
      ∀ b : Int, 0 ≤ b → 3 * b < 2 ^ 63 → g.Within b → h.Within b →
        ∃ o?, r.twoCopiesInWords? h = .ok o? := by
  obtain ⟨r, hofGrid, rfl, hr⟩ := exists_ofGrid? hg
  refine ⟨r, hofGrid, fun h => ⟨fun o? hanswer => ?_, fun b hpos hb hgrid hh => ?_⟩⟩
  · obtain ⟨-, rfl⟩ := twoCopiesInWords?_eq_ok.mp hanswer
    exact ⟨hr.exists_twoCopies?_iff, fun d => hr.twoCopies?_of_twoCopies⟩
  · exact ⟨_, twoCopiesInWords?_eq_ok.mpr ⟨hr.allFit_twoCopies hgrid hh hb hpos, rfl⟩⟩

/-- Two copies of a row of cells that reach into each other without sharing a cell, and the same
cells with one of them in the state of another. -/
theorem twoCopies?_of_interlocked_cells :
    let g := Grid.ofList [(⟨0, 0⟩, 1), (⟨0, 1⟩, 2), (⟨0, 6⟩, 3)]
    let h := Grid.ofList [(⟨0, -2⟩, 1), (⟨0, -1⟩, 2), (⟨0, 4⟩, 3), (⟨0, 2⟩, 1), (⟨0, 3⟩, 2),
      (⟨0, 8⟩, 3)]
    g.isEmpty = false ∧ (∃ d, g.TwoCopies d h) ∧ ¬∃ d, g.TwoCopies d (h.set ⟨0, 4⟩ 1) := by
  intro g h
  have hall : g.isEmpty = false ∧
      (ofGrid? g).map (·.twoCopiesInWords? h) = some (.ok (some ⟨0, 2⟩)) ∧
      (ofGrid? g).map (·.twoCopiesInWords? (h.set ⟨0, 4⟩ 1)) = some (.ok none) := by
    decide +kernel
  obtain ⟨hg, hpassed, hfailed⟩ := hall
  clear_value g h
  obtain ⟨r, hr, hexact⟩ := twoCopies?_exact hg
  rw [hr, Option.map_some] at hpassed hfailed
  refine ⟨hg, ((hexact h).1 _ (Option.some.inj hpassed)).1.mp ⟨_, rfl⟩, fun hcopies => ?_⟩
  obtain ⟨o, ho⟩ := ((hexact _).1 _ (Option.some.inj hfailed)).1.mpr hcopies
  exact Option.some_ne_none o ho.symm

/-- Two copies of a cell that the test gives up on: it adds their displacement to the second one. -/
theorem no_copies_far_apart :
    let g := Grid.ofList [(⟨0, 0⟩, 1)]
    let h := Grid.ofList [(⟨0, -4611686018427387906⟩, 1), (⟨0, 4611686018427387906⟩, 1)]
    g.isEmpty = false ∧ (∃ d, g.TwoCopies d h) ∧ ∃ r, ofGrid? g = some r ∧
      r.twoCopiesInWords? h = .error (.add 4611686018427387906 4611686018427387906) := by
  intro g h
  have hall : g.isEmpty = false ∧
      (ofGrid? g).map (·.twoCopies? h) = some (some ⟨0, 4611686018427387906⟩) ∧
      (ofGrid? g).map (·.twoCopiesInWords? h)
        = some (.error (.add 4611686018427387906 4611686018427387906)) := by
    decide +kernel
  obtain ⟨hg, hcopies, herror⟩ := hall
  clear_value g h
  obtain ⟨r, hofGrid, rfl, hr⟩ := exists_ofGrid? hg
  rw [hofGrid, Option.map_some] at hcopies herror
  exact ⟨hg, ⟨_, hr.of_twoCopies? (Option.some.inj hcopies)⟩, r, hofGrid, Option.some.inj herror⟩

/-! ### The search -/

section

variable {left : Nat} {m : Simulation} {v : Verdict} {cancelled : Nat → Bool}

/-- What follows on a verdict is answered if the verdict is. -/
theorem verdictInWords?_then_eq_ok {α : Type} {f : Option Verdict → Except Calculation α} {x : α} :
    (r.verdictInWords? kind h period >>= f) = .ok x ↔
      AllFit (r.verdictArithmetic kind h) ∧ f (r.verdict? kind h period) = .ok x :=
  perform_return_then_eq_ok

/-- **A search that answers within words answers what the search does.** -/
theorem search_of_searchInWords (h : r.searchInWords kind cancelled left period m = .ok v) :
    r.search kind cancelled left period m = v := by
  induction left generalizing period m with
  | zero => exact Except.ok.inj h
  | succ left ih =>
      unfold searchInWords at h
      unfold search
      split at h
      · rename_i hcancelled
        rw [if_pos hcancelled]
        exact Except.ok.inj h
      · rename_i hcancelled
        rw [if_neg hcancelled]
        obtain ⟨-, hstep⟩ := Simulation.stepInWords_then_eq_ok.mp h
        simp only
        split at hstep
        · rename_i hempty
          rw [if_pos hempty]
          exact Except.ok.inj hstep
        · rename_i hempty
          rw [if_neg hempty]
          obtain ⟨-, hverdict⟩ := verdictInWords?_then_eq_ok.mp hstep
          split at hverdict
          · exact Except.ok.inj hverdict
          · exact ih hverdict

/-- **A search answers if the pattern cannot come near the limits before its last generation.** -/
theorem Valid.exists_searchInWords (hr : r.Valid) {last : Int} (hgrid : r.grid.Within last)
    (hlast : 3 * last < 2 ^ 63) (hm : m.Inside b) (hb : 0 ≤ b)
    (hreach : b + left * m.rule.margin ≤ last) (hgeneration : m.generation + left < 2 ^ 64) :
    ∃ v, r.searchInWords kind cancelled left period m = .ok v := by
  induction left generalizing period m b with
  | zero => exact ⟨_, rfl⟩
  | succ left ih =>
      rw [Int.natCast_succ, Int.add_mul, Int.one_mul] at hreach
      have hrest : 0 ≤ left * (m.rule.margin : Int) := Int.mul_nonneg (by omega) (by omega)
      have hfits := hm.fitsWords hb (by omega) (by omega)
      have hnext : m.step.grid.Within last := fun c hc => (hm.step.live c hc).mono (by omega)
      have hverdict : AllFit (r.verdictArithmetic kind m.step.grid) :=
        hr.allFit_verdict hgrid hnext hlast (by omega)
      unfold searchInWords
      split
      · exact ⟨_, rfl⟩
      · simp only [Simulation.stepInWords_then_eq_ok, hfits, true_and]
        split
        · exact ⟨_, rfl⟩
        · simp only [verdictInWords?_then_eq_ok, hverdict, true_and]
          split
          · exact ⟨_, rfl⟩
          · refine ih hm.step (by omega) ?_ ?_
            · show b + m.rule.margin + left * m.rule.margin ≤ last
              omega
            · show m.generation + 1 + left < 2 ^ 64
              omega

end

end Reference

section

variable {kind : PatternKind} {generation : Nat} {g : Grid} {cancelled : Nat → Bool} {v : Verdict}

/-- What is answered within words is what is answered. -/
theorem identify_of_identifyInWords {r : Rule} {s : Surface}
    (h : identifyInWords r s kind generation cancelled g = .ok v) :
    identify r s kind generation cancelled g = v := by
  unfold identifyInWords at h
  unfold identify
  split at h
  · exact Except.ok.inj h
  · exact Reference.search_of_searchInWords h

/--
**A pattern is called what its first match makes it, and nothing else.**  Take a pattern with
cells, under any rule, on any surface, from any generation on, whatever is looked for.  If some
generation among the first 5000 matches, and the pattern lives up to there, then a verdict that is
reached is the one that the first such generation deserves; if there is none, it is that of a
failure.  A verdict is reached wherever the pattern cannot come near the limits within 5000
generations.

A grid passes the first test with a displacement exactly if the pattern is that grid moved by it,
which can be so for one displacement only, and this displacement fits into words.  It passes the
last test exactly if it has more cells than the pattern and shows the same in the smallest box of
the pattern.
-/
theorem identify_first_match (r : Rule) (s : Surface) (kind : PatternKind) (generation : Nat)
    (hg : g.isEmpty = false) :
    let m := Simulation.start r s g generation
    (∀ w, identifyInWords r s kind generation (fun _ => false) g = .ok w → ∀ v, w = v ↔
      (∃ p, IsLeast (kind.matching m) p ∧ Recognised kind g (m.stepN p).grid p v) ∨
        kind.matching m = ∅ ∧ v = .failed) ∧
    (∀ b : Int, 0 ≤ b → 3 * (b + 5000 * r.margin) < 2 ^ 63 → generation + 5000 < 2 ^ 64 →
      s.Within b → g.Within b →
      ∃ w, identifyInWords r s kind generation (fun _ => false) g = .ok w) ∧
    ∃ ref, Reference.ofGrid? g = some ref ∧ ∀ h : Grid,
      (∀ o, ref.translationInWords? h = .ok (some o) ↔
        g.sameCells (h.translate o) = true ∧ InWord o.dy ∧ InWord o.dx) ∧
      (ref.translationInWords? h = .ok none → ∀ o, g.sameCells (h.translate o) = false) ∧
      (∀ o o', g.sameCells (h.translate o) = true → g.sameCells (h.translate o') = true → o = o') ∧
      (ref.emits h = true ↔ g.size < h.size ∧ ∀ c, g.Frames c → h.get c = g.get c) := by
  intro m
  obtain ⟨ref, hofGrid, hgrid, href⟩ := Reference.exists_ofGrid? hg
  refine ⟨fun w hw v => ?_, fun b hb hword hgeneration hs hcells => ?_, ref, hofGrid, fun h => ?_⟩
  · rw [← identify_of_identifyInWords hw]
    exact identify_eq_iff hg
  · unfold identifyInWords
    rw [hofGrid]
    exact href.exists_searchInWords (hgrid ▸ fun c hc => (hcells c hc).mono (by omega)) hword
      (Simulation.inside_start hs hcells generation) hb (Int.le_refl _) hgeneration
  · subst hgrid
    refine ⟨fun o => href.translationInWords?_eq_some_iff, fun hnone o => ?_,
      fun o o' => href.displacement_unique, href.emits_iff⟩
    obtain ⟨-, hnone⟩ := Reference.translationInWords?_eq_ok.mp hnone
    rw [← Bool.not_eq_true, ← href.translation?_eq_some_iff, hnone]
    exact (Option.some_ne_none o).symm

/-- Two cells that each turn into their neighbours: after one generation they are two cells again,
but farther apart, and after two generations two copies of what they were. -/
theorem identify_first_match_of_parting_cells :
    let r : Rule := {
      name := "Part", nStates := 2, neighbourhoods := [.ofOffsets [⟨0, -1⟩, ⟨0, 1⟩]]
      stateWeights := [[0, 1]], space := .custom, conditions := .weighted
      transition := .function fun _ neighbours _ => neighbours.sum % 2
      palette := none, neighbourhoods_ne := by simp }
    let g := Grid.ofList [(⟨0, 0⟩, 1), (⟨0, 2⟩, 1)]
    let m := Simulation.start r .plane g 0
    let v : Verdict := .replicator ⟨2, 0, 2, .orthogonal⟩
    g.isEmpty = false ∧ identifyInWords r .plane .any 0 (fun _ => false) g = .ok v ∧
      ∃ p, IsLeast (PatternKind.any.matching m) p ∧ Recognised .any g (m.stepN p).grid p v := by
  intro r g m v
  have hall : g.isEmpty = false ∧ identifyInWords r .plane .any 0 (fun _ => false) g = .ok v := by
    decide +kernel
  obtain ⟨hg, hverdict⟩ := hall
  clear_value g r
  rcases ((identify_first_match r .plane .any 0 hg).1 v hverdict v).mp rfl with
    hmatch | ⟨-, hfailed⟩
  · exact ⟨hg, hverdict, hmatch⟩
  · exact absurd hfailed (by decide)

/-- Two rows of three cells so far apart that the difference of their columns is no word: each of
them turns about its middle and back, but what becomes of both is not said. -/
theorem no_verdict_far_apart :
    let g := Grid.ofList [(⟨-1, -5000000000000000000⟩, 1), (⟨0, -5000000000000000000⟩, 1),
      (⟨1, -5000000000000000000⟩, 1), (⟨0, 4999999999999999999⟩, 1),
      (⟨0, 5000000000000000000⟩, 1), (⟨0, 5000000000000000001⟩, 1)]
    let m := Simulation.start Rule.life .plane g 0
    g.isEmpty = false ∧
      (∃ p, IsLeast (PatternKind.any.matching m) p ∧
        Recognised .any g (m.stepN p).grid p (.oscillator 2)) ∧
      identifyInWords Rule.life .plane .any 0 (fun _ => false) g
        = .error (.sub (-5000000000000000000) 5000000000000000000) := by
  intro g m
  have hall : g.isEmpty = false ∧
      identify Rule.life .plane .any 0 (fun _ => false) g = .oscillator 2 ∧
      identifyInWords Rule.life .plane .any 0 (fun _ => false) g
        = .error (.sub (-5000000000000000000) 5000000000000000000) := by
    decide +kernel
  obtain ⟨hg, hverdict, herror⟩ := hall
  clear_value g
  rcases (identify_eq_iff hg).mp hverdict with hmatch | ⟨-, hfailed⟩
  · exact ⟨hg, hmatch, herror⟩
  · exact absurd hfailed (by decide)

end

end Cellular
