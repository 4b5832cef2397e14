/-
What a record keeps of its agar.

The patterns of a record are written in the window of the sizes of the surface.  On the
surfaces that join their sides this is all there is: a soup lies in the window, live cells
stay on the surface, and so the texts are read as the patterns that the search has found.
A rectangle has one row and one column more than the window (`mem_window_of_contains`), and
what lives there is not written.  `records_decode` says of every record what its texts are
read as, and that nothing but this last row and column can be lost.
-/
import Cellular.Soup.ChaCha
import Cellular.Proofs.Batch.Report
import Cellular.Proofs.Batch.Soup
import Cellular.Proofs.Pattern.Codec

namespace Cellular

/-! ### The cells of a soup -/

namespace Soup

variable {width height : Int} {c : Coord}

theorem mem_cells : c ∈ cells width height ↔
    (0 ≤ c.row ∧ c.row < height) ∧ 0 ≤ c.col ∧ c.col < width := by
  unfold cells
  split
  · simp only [List.not_mem_nil, false_iff]
    omega
  · simp only [List.mem_flatMap, List.mem_map, mem_between]
    constructor
    · rintro ⟨row, hrow, col, hcol, rfl⟩
      exact ⟨hrow, hcol⟩
    · intro h
      exact ⟨c.row, h.1, c.col, h.2, rfl⟩

private theorem mem_of_foldl_place (source : RandomSource) (chance : source.Chance)
    (cs : List Coord) :
    ∀ acc : Grid × source.Stream, (cs.foldl (place source chance) acc).1.get c ≠ 0 →
      c ∈ cs ∨ acc.1.get c ≠ 0 := by
  induction cs with
  | nil => intro acc h; exact Or.inr h
  | cons a rest ih =>
      intro acc h
      rcases ih (place source chance acc a) h with hmem | hlive
      · exact Or.inl (List.mem_cons_of_mem a hmem)
      · simp only [place] at hlive
        split at hlive
        · rw [Grid.get_set] at hlive
          split at hlive
          · rename_i heq
            exact Or.inl (heq ▸ List.mem_cons_self)
          · exact Or.inr hlive
        · exact Or.inr hlive

/-- A soup lives in its box, wherever the decisions come from. -/
theorem mem_cells_of_draw {source : RandomSource} {chance : source.Chance}
    {stream : source.Stream} (h : (draw source width height chance stream).1.get c ≠ 0) :
    c ∈ cells width height := by
  rcases mem_of_foldl_place source chance _ _ h with hmem | hlive
  · exact hmem
  · simp at hlive

end Soup

/-! ### The window of a surface -/

namespace Surface

variable {joining : Joining} {width height : Int} {c : Coord}

/-- Each cell of a soup is a cell of the surface that the soup fills. -/
theorem contains_of_mem_cells (hwidth : width ≤ maxSoupSize) (hc : c ∈ Soup.cells width height) :
    (box joining width height).contains c = true := by
  obtain ⟨hrow, hcol⟩ := Soup.mem_cells.mp hc
  by_cases hj : joining = .rectangle
  · subst hj
    rw [contains_rectangle]
    intro hnowhere
    unfold resolve at hnowhere
    simp only at hnowhere
    rw [if_neg (by omega)] at hnowhere
    have hlast : c.col = 0x7fffffffffffffff := congrArg Coord.col hnowhere
    unfold maxSoupSize at hwidth
    omega
  · rw [contains_box hj, Axis.outside_eq_false, Axis.outside_eq_false]
    exact ⟨fun _ => hrow, fun _ => hcol⟩

/-- A cell of a closed surface lies in the window of its sizes, or else in the last row or
column of a rectangle. -/
theorem mem_window_of_contains (hs : (box joining width height).isClosed = true)
    (hc : (box joining width height).contains c = true)
    (hlast : joining = .rectangle → c.row ≠ height ∧ c.col ≠ width) :
    Window.Contains ⟨0, 0, width, height⟩ c := by
  simp only [isClosed, dimensions?, Bool.and_eq_true, decide_eq_true_eq] at hs
  by_cases hj : joining = .rectangle
  · have hne := hlast hj
    subst hj
    rw [contains_rectangle, resolve] at hc
    split at hc
    · exact absurd rfl hc
    · show 0 ≤ c.row ∧ c.row < height ∧ 0 ≤ c.col ∧ c.col < width
      omega
  · rw [contains_box hj, Axis.outside_eq_false, Axis.outside_eq_false] at hc
    exact ⟨(hc.1 hs.2).1, (hc.1 hs.2).2, (hc.2 hs.1).1, (hc.2 hs.1).2⟩

end Surface

/-! ### The texts of a record -/

namespace AgarReport

variable {κ : Type} [BEq κ] [Hashable κ] {source : RandomSource}
  {fingerprint : List (Coord × State) → κ} {rule : Rule} {c : BatchConfig} {freshSeed : UInt64}
  {s : Settings} {report : AgarReport} {record : AgarRecord} {joining : Joining}
  {width height : Int}

/-- The text is read as the part of the pattern in the window, for any number of states above
those in the window.  This is the whole pattern exactly if no cell lives in the last row or
column of a rectangle. -/
def Restores (joining : Joining) (width height : Int) (text : String) (g : Grid) : Prop :=
  ∀ n, (∀ e, Window.Contains ⟨0, 0, width, height⟩ e → g.get e < n) →
    ∃ p, Pattern.decode text n = .ok p ∧
      (∀ e, p.grid.get e
        = if Window.Contains ⟨0, 0, width, height⟩ e then g.get e else 0) ∧
      (p.grid.sameCells g = true ↔
        (joining = .rectangle → ∀ e, g.get e ≠ 0 → e.row ≠ height ∧ e.col ≠ width))

/-- What is written of a pattern on a closed surface gives it back. -/
theorem restores_of_encode {g : Grid} {text : String} (hname : '\n' ∉ rule.name.toList)
    (hs : (Surface.box joining width height).isClosed = true)
    (hwidth : width ≤ maxSoupSize) (hheight : height ≤ maxSoupSize)
    (hg : ∀ e, g.get e ≠ 0 → (Surface.box joining width height).contains e = true)
    (htext : Pattern.encode g ⟨0, 0, width, height⟩ rule.name = .ok text) :
    Restores joining width height text g := by
  intro n hn
  have hsides : 0 < width ∧ 0 < height := by
    simpa only [Surface.isClosed, Surface.dimensions?, Bool.and_eq_true, decide_eq_true_eq] using hs
  have hlimit : (Pattern.limit : Int) = 2 ^ 63 - 1 := by decide
  unfold maxSoupSize at hwidth hheight
  have hfits : (⟨0, 0, width, height⟩ : Window).Fits := by
    show width - 0 ≤ _ ∧ height - 0 ≤ _
    omega
  obtain ⟨p, hp, hshows⟩ := Pattern.decode_of_encode ⟨hsides.1.le, hsides.2.le⟩ hname hfits htext
    fun c hc _ => hn c hc
  have hget : ∀ e, p.grid.get e
      = if Window.Contains ⟨0, 0, width, height⟩ e then g.get e else 0 := by
    intro e
    have he := hshows.cells e
    rwa [show e + Window.corner ⟨0, 0, width, height⟩ = e from Coord.add_zero e] at he
  refine ⟨p, hp, hget, ?_⟩
  rw [Grid.sameCells_iff]
  constructor
  · intro hsame _ e hlive
    rw [← hsame e, hget e] at hlive
    split at hlive
    · rename_i hin
      obtain ⟨-, hrow, -, hcol⟩ := hin
      exact ⟨hrow.ne, hcol.ne⟩
    · exact absurd rfl hlive
  · intro hlast e
    rw [hget e]
    split
    · rfl
    · rename_i hout
      by_contra hlive
      have hlive' : g.get e ≠ 0 := fun h0 => hlive h0.symm
      exact hout (Surface.mem_window_of_contains hs (hg e hlive') fun hj => hlast hj e hlive')

/-- Settings that were accepted ask for surfaces of a limited size. -/
theorem sides_of_resolve (h : c.resolve freshSeed = .ok s)
    (hsurface : s.surface.getD (.box .torus s.soupSize s.soupSize) = .box joining width height) :
    width ≤ maxSoupSize ∧ height ≤ maxSoupSize := by
  unfold BatchConfig.resolve at h
  simp only at h
  split at h
  · simp at h
  · split at h
    · simp at h
    · split at h
      · simp at h
      · rename_i hsize
        obtain ⟨hsoup, hside⟩ := not_or.mp hsize
        split at h
        · simp at h
        · split at h
          · simp at h
          · injection h with h
            subst h
            simp only at hsurface
            cases hc : c.surface with
            | none =>
                rw [hc, Option.getD_none, Surface.box.injEq] at hsurface
                omega
            | some surface =>
                rw [hc, Option.getD_some] at hsurface
                rw [hc, hsurface] at hside
                simp only [Option.map_some, Option.getD_some, Surface.longestSide,
                  Surface.dimensions?] at hside
                omega

theorem probability_of_chance? {chance : source.Chance}
    (h : Soup.chance? source s.density = some chance) : s.probability source = .ok chance := by
  unfold Settings.probability
  rw [h]

/-- A search of a closed surface reports on its soups. -/
theorem run_eq {chance : source.Chance}
    (hsurface : s.surface.getD (.box .torus s.soupSize s.soupSize) = .box joining width height)
    (hclosed : (Surface.box joining width height).isClosed = true)
    (hchance : s.probability source = .ok chance) :
    run source fingerprint rule s = ofOutcomes rule.name ⟨0, 0, width, height⟩ s.soups s.seed
      ((List.range s.soups).map fun index =>
        SoupOutcome.ofSoupBy fingerprint rule (.box joining width height)
          (Soup.draw source width height chance (Soup.stream source s.seed index)).1 s.cap) := by
  unfold run
  simp only [hsurface, hclosed, hchance]
  rfl

/-- What a report is made of. -/
theorem of_run (h : run source fingerprint rule s = .ok report) :
    ∃ joining width height chance,
      s.surface.getD (.box .torus s.soupSize s.soupSize) = .box joining width height ∧
      (Surface.box joining width height).isClosed = true ∧ s.probability source = .ok chance ∧
      ofOutcomes rule.name ⟨0, 0, width, height⟩ s.soups s.seed ((List.range s.soups).map
        fun index => SoupOutcome.ofSoupBy fingerprint rule (.box joining width height)
          (Soup.draw source width height chance (Soup.stream source s.seed index)).1 s.cap)
        = .ok report := by
  unfold run at h
  simp only at h
  cases hsurface : s.surface.getD (.box .torus s.soupSize s.soupSize) with
  | plane =>
      rw [hsurface] at h
      simp [Surface.isClosed, Surface.dimensions?] at h
  | box joining width height =>
      rw [hsurface] at h
      cases hclosed : (Surface.box joining width height).isClosed with
      | false =>
          rw [hclosed] at h
          simp at h
      | true =>
          rw [hclosed] at h
          obtain ⟨chance, hchance, houtcomes⟩ := ok_of_bind h
          exact ⟨joining, width, height, chance, rfl, hclosed, hchance, houtcomes⟩

/--
**A record loses nothing, but for the last row and column of a rectangle.**  Let the settings
of a search be accepted and let the search end with a report.  Each record is of a soup whose
search ended with a pattern that came back and the one before it, and its texts are read as
the parts of these in the window of the sizes of the surface.  They are read as the whole
patterns exactly if the surface is no rectangle or nothing lives in its last row and column.

This is so wherever the random decisions come from and whatever the fingerprints are, also if
different grids have the same one.
-/
theorem records_decode [LawfulBEq κ] (hname : '\n' ∉ rule.name.toList)
    (hs : c.resolve freshSeed = .ok s) (h : run source fingerprint rule s = .ok report)
    (hrecord : record ∈ report.records) :
    ∃ joining width height chance populations pattern predecessor,
      s.surface.getD (.box .torus s.soupSize s.soupSize) = .box joining width height ∧
      s.probability source = .ok chance ∧ record.soupIndex < s.soups ∧
      let surface := Surface.box joining width height
      let stream := Soup.stream source s.seed record.soupIndex
      let soup := (Soup.draw source width height chance stream).1
      SoupOutcome.ofSoupBy fingerprint rule surface soup s.cap
        = .periodic record.prePeriod record.period populations pattern predecessor ∧
      pattern = ((Simulation.start rule surface soup 0).stepN
        (record.prePeriod + record.period)).grid ∧
      predecessor = ((Simulation.start rule surface soup 0).stepN
        (record.prePeriod + record.period - 1)).grid ∧
      Restores joining width height record.pattern pattern ∧
      Restores joining width height record.predecessor predecessor := by
  obtain ⟨joining, width, height, chance, hsurface, hclosed, hchance, houtcomes⟩ := of_run h
  obtain ⟨hwidth, hheight⟩ := sides_of_resolve hs hsurface
  obtain ⟨prePeriod, period, populations, pattern, predecessor, houtcome, hshows⟩ :=
    (keeps_ofOutcomes houtcomes).shows record hrecord
  rw [List.getElem?_map, Option.map_eq_some_iff] at houtcome
  obtain ⟨index, hindex, hsoup⟩ := houtcome
  obtain ⟨hlt, hindex⟩ := List.getElem?_eq_some_iff.mp hindex
  rw [List.getElem_range] at hindex
  rw [List.length_range] at hlt
  subst hindex
  have hsettles := (SoupOutcome.ofSoupBy_eq_periodic_iff.mp hsoup).2
  have hcontained : ∀ t, (((Simulation.start rule (.box joining width height)
      (Soup.draw source width height chance (Soup.stream source s.seed record.soupIndex)).1
        0).stepN t).Contained) := fun t =>
    Simulation.contained_stepN (Simulation.contained_start (fun e he =>
      Surface.contains_of_mem_cells hwidth (Soup.mem_cells_of_draw he)) 0) t
  refine ⟨joining, width, height, chance, populations, pattern, predecessor, hsurface, hchance,
    hlt, ?_, ?_, ?_, ?_, ?_⟩
  · rw [hshows.prePeriod, hshows.period]
    exact hsoup
  · rw [hshows.prePeriod, hshows.period]
    exact hsettles.pattern
  · rw [hshows.prePeriod, hshows.period]
    exact hsettles.predecessor
  · refine restores_of_encode hname hclosed hwidth hheight ?_ hshows.pattern
    rw [hsettles.pattern]
    intro e he
    have hin := (hcontained _).inside e he
    rwa [Simulation.surface_stepN] at hin
  · refine restores_of_encode hname hclosed hwidth hheight ?_ hshows.predecessor
    rw [hsettles.predecessor]
    intro e he
    have hin := (hcontained _).inside e he
    rwa [Simulation.surface_stepN] at hin

/-- The record of two cells on a torus that age and are young again. -/
theorem records_decode_of_ageing_cells :
    let r : Rule := {
      name := "Ageing", nStates := 3, neighbourhoods := [.ofOffsets [⟨0, -1⟩]]
      stateWeights := [[0, 1, 1]], space := .custom, conditions := .weighted
      transition := .function fun _ neighbours current =>
        if current = 1 ∧ neighbours = [1] then 2 else if current = 2 then 1 else 0
      palette := none, neighbourhoods_ne := by simp }
    let c : BatchConfig := {
      density := some 1, soups := some 1, cap := some 9, surface := some (.box .torus 2 1) }
    let soup := (Soup.draw .chaCha 2 1 Density.certain (Soup.stream .chaCha 0 0)).1
    let m := Simulation.start r (.box .torus 2 1) soup 0
    ∃ s report record, '\n' ∉ r.name.toList ∧ c.resolve 0 = .ok s ∧
      run .chaCha id r s = .ok report ∧ record ∈ report.records ∧ record.prePeriod = 0 ∧
      record.period = 2 ∧
      Restores .torus 2 1 record.pattern (m.stepN 2).grid ∧
      Restores .torus 2 1 record.predecessor (m.stepN 1).grid := by
  intro r c soup m
  let s : Settings := ⟨0, 16, Soup.clamp 1, 1, 1000, 9, some (.box .torus 2 1)⟩
  have hall : '\n' ∉ r.name.toList ∧ Density.ofFloat? (Soup.clamp s.density) = some .certain ∧
      (m.stepN 2).grid.toList = (m.stepN 0).grid.toList ∧
      (∀ t < 2, ∀ u < 2, (m.stepN t).grid.toList = (m.stepN u).grid.toList → t = u) ∧
      [2, 2] = (List.range 2).map (fun t => (m.stepN (0 + t)).population) ∧
      ((ofOutcomes r.name ⟨0, 0, 2, 1⟩ 1 0
        [.periodic 0 2 [2, 2] (m.stepN 2).grid (m.stepN 1).grid]).toOption.any fun report =>
          report.records.any fun record => record.prePeriod = 0 ∧ record.period = 2) = true := by
    decide +kernel
  obtain ⟨hname, hchance, hback, hdistinct, hpopulations, hrecord⟩ := hall
  have hs : c.resolve 0 = .ok s := rfl
  have hprobability : s.probability .chaCha = .ok Density.certain := probability_of_chance? hchance
  have hrun : run .chaCha id r s = ofOutcomes r.name ⟨0, 0, 2, 1⟩ 1 0
      [SoupOutcome.ofSoupBy id r (.box .torus 2 1) soup 9] := run_eq rfl (by decide) hprobability
  have hsurface : s.surface = some (.box .torus 2 1) := rfl
  have hsoups : s.soups = 1 := rfl
  have hseed : s.seed = 0 := rfl
  have hdrawn : (Soup.draw .chaCha 2 1 Density.certain (Soup.stream .chaCha 0 0)).1 = soup := rfl
  clear_value soup r s
  have hsoup : SoupOutcome.ofSoupBy id r (.box .torus 2 1) soup 9
      = .periodic 0 2 [2, 2] (m.stepN 2).grid (m.stepN 1).grid :=
    SoupOutcome.ofSoupBy_eq_periodic_iff.mpr ⟨by simp, by simp, hback,
      fun t ht u hu => hdistinct t ht u hu, hpopulations, rfl, rfl⟩
  rw [← hsoup, ← hrun] at hrecord
  obtain ⟨report, hreport, hany⟩ := exists_ok_of_any hrecord
  obtain ⟨record, hmem, hshape⟩ := List.any_eq_true.mp hany
  obtain ⟨hpre, hperiod⟩ := of_decide_eq_true hshape
  refine ⟨s, report, record, hname, hs, hreport, hmem, hpre, hperiod, ?_⟩
  obtain ⟨joining, width, height, density, populations, pattern, predecessor, hsides, hdensity',
    hlt, hfound, hpattern, hpredecessor, hrestores, hrestores'⟩ :=
    records_decode hname hs hreport hmem
  rw [hsurface, Option.getD_some, Surface.box.injEq] at hsides
  obtain ⟨rfl, rfl, rfl⟩ := hsides
  obtain rfl := Except.ok.inj (hprobability.symm.trans hdensity')
  rw [hsoups, Nat.lt_one_iff] at hlt
  rw [hseed, hlt, hdrawn, hpre, hperiod] at hpattern hpredecessor
  rw [hpattern] at hrestores
  rw [hpredecessor] at hrestores'
  exact ⟨hrestores, hrestores'⟩

/-- The cells of a rectangle of sides 1 that lie in its last row and column are not written:
two cells alternate with two others, and of either pair at most one is read back. -/
theorem clipped_record_of_rectangle :
    let r : Rule := {
      name := "Checks", nStates := 2
      neighbourhoods := [.ofOffsets [⟨-1, 0⟩, ⟨0, -1⟩, ⟨0, 1⟩, ⟨1, 0⟩]]
      stateWeights := [[0, 1]], space := .custom, conditions := .weighted
      transition := .function fun _ neighbours current =>
        if current = 0 ∧ neighbours.sum ∈ [1, 2] then 1 else 0
      palette := none, neighbourhoods_ne := by simp }
    let c : BatchConfig := {
      density := some 1, soups := some 1, cap := some 9, surface := some (.box .rectangle 1 1) }
    let soup := (Soup.draw .chaCha 1 1 Density.certain (Soup.stream .chaCha 0 0)).1
    let m := Simulation.start r (.box .rectangle 1 1) soup 0
    ∃ s report record p q, '\n' ∉ r.name.toList ∧ c.resolve 0 = .ok s ∧
      run .chaCha id r s = .ok report ∧ record ∈ report.records ∧ record.soupIndex = 0 ∧
      SoupOutcome.ofSoupBy id r (.box .rectangle 1 1) soup 9
        = .periodic 1 2 [2, 2] (m.stepN 3).grid (m.stepN 2).grid ∧
      Pattern.decode record.pattern 2 = .ok p ∧ p.grid.sameCells (m.stepN 3).grid = false ∧
      Pattern.decode record.predecessor 2 = .ok q ∧
        q.grid.sameCells (m.stepN 2).grid = false := by
  intro r c soup m
  let s : Settings := ⟨0, 16, Soup.clamp 1, 1, 1000, 9, some (.box .rectangle 1 1)⟩
  have hall : '\n' ∉ r.name.toList ∧ Density.ofFloat? (Soup.clamp s.density) = some .certain ∧
      (m.stepN 3).grid.toList = (m.stepN 1).grid.toList ∧
      (∀ t < 3, ∀ u < 3, (m.stepN t).grid.toList = (m.stepN u).grid.toList → t = u) ∧
      [2, 2] = (List.range 2).map (fun t => (m.stepN (1 + t)).population) ∧
      ((ofOutcomes r.name ⟨0, 0, 1, 1⟩ 1 0
        [.periodic 1 2 [2, 2] (m.stepN 3).grid (m.stepN 2).grid]).toOption.any fun report =>
          report.records.any fun record => record.soupIndex = 0 ∧
            ((Pattern.decode record.pattern 2).toOption.any fun p =>
              !p.grid.sameCells (m.stepN 3).grid) = true ∧
            ((Pattern.decode record.predecessor 2).toOption.any fun q =>
              !q.grid.sameCells (m.stepN 2).grid) = true) = true := by
    decide +kernel
  obtain ⟨hname, hchance, hback, hdistinct, hpopulations, hrecord⟩ := hall
  have hs : c.resolve 0 = .ok s := rfl
  have hprobability : s.probability .chaCha = .ok Density.certain := probability_of_chance? hchance
  have hrun : run .chaCha id r s = ofOutcomes r.name ⟨0, 0, 1, 1⟩ 1 0
      [SoupOutcome.ofSoupBy id r (.box .rectangle 1 1) soup 9] := run_eq rfl (by decide) hprobability
  clear_value soup r s
  have hsoup : SoupOutcome.ofSoupBy id r (.box .rectangle 1 1) soup 9
      = .periodic 1 2 [2, 2] (m.stepN 3).grid (m.stepN 2).grid :=
    SoupOutcome.ofSoupBy_eq_periodic_iff.mpr ⟨by simp, by simp, hback,
      fun t ht u hu => hdistinct t ht u hu, hpopulations, rfl, rfl⟩
  rw [← hsoup, ← hrun] at hrecord
  obtain ⟨report, hreport, hany⟩ := exists_ok_of_any hrecord
  obtain ⟨record, hmem, hshape⟩ := List.any_eq_true.mp hany
  obtain ⟨hindex, hpattern, hpredecessor⟩ := of_decide_eq_true hshape
  obtain ⟨p, hp, hdiffers⟩ := exists_ok_of_any hpattern
  obtain ⟨q, hq, hdiffers'⟩ := exists_ok_of_any hpredecessor
  exact ⟨s, report, record, p, q, hname, hs, hreport, hmem, hindex, hsoup, hp,
    Bool.not_eq_eq_eq_not.mp hdiffers, hq,
    Bool.not_eq_eq_eq_not.mp hdiffers'⟩

end AgarReport

end Cellular
