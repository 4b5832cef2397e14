/-
A rule means what its text says.

The text gives three lists: blocks of weights, phases of state weights and rulestrings.  In
each generation the rule takes one of each (`PhaseText`), every list starting over at its own
end, and it does so for as many phases as the longest list has.  A block stands around the
cell, so what a phase adds up is a sum over all places of its block (`PhaseText.total`).

The rule itself keeps neither blocks nor rows.  It keeps offsets and weights in two lists of
their own, without the places of weight zero, and a table that holds the weights once more.
`sumAt_ofBlock` says that nothing is lost on the way: what is added up along the two lists is
the sum over the whole block.  The theorem then says it for the table of every generation.
-/
import Mathlib.Algebra.BigOperators.Fin
import Mathlib.Algebra.BigOperators.Group.List.Lemmas
import Cellular.Proofs.Rule.Blocks
import Cellular.Proofs.Rule.Compile
import Cellular.Proofs.Rule.Entry
import Cellular.Proofs.Rule.Rulestring

namespace Cellular

/-! ### Sums over a block -/

namespace Neighbourhood

variable {range : Nat} {rows : List (List Int)} (value : State → Int) (around : Offset → State)

private theorem sumAt_entries (entries : List (Offset × Int)) :
    sumAt value ((entries.map (·.1)).map around) (entries.map (·.2))
      = (entries.map fun e => e.2 * value (around e.1)).sum := by
  induction entries with
  | nil => rfl
  | cons e rest ih =>
      simp only [List.map_cons, List.sum_cons, ← ih]
      rfl

/-- Places of weight zero add nothing. -/
private theorem sum_weighted (entries : List (Offset × Int)) :
    ((entries.filter (·.2 ≠ 0)).map fun e => e.2 * value (around e.1)).sum
      = (entries.map fun e => e.2 * value (around e.1)).sum := by
  induction entries with
  | nil => rfl
  | cons e rest ih =>
      by_cases hzero : e.2 = 0
      · simpa [hzero] using ih
      · simpa [hzero] using ih

private theorem sum_zipIdx {α : Type} (f : α × Nat → Int) (d : α) (l : List α) :
    ∀ first : Nat, ((l.zipIdx first).map f).sum
      = ∑ i ∈ Finset.range l.length, f (l.getD i d, first + i) := by
  induction l with
  | nil => intro _; rfl
  | cons x rest ih =>
      intro first
      rw [List.zipIdx_cons, List.map_cons, List.sum_cons, ih, List.length_cons,
        Finset.sum_range_succ', Int.add_comm]
      simp only [List.getD_cons_zero, List.getD_cons_succ, Nat.add_zero, Nat.add_assoc,
        Nat.add_comm 1]

private theorem sum_flatMap {α β : Type} (f : α → List β) (g : β → Int) (l : List α) :
    ((l.flatMap f).map g).sum = (l.map fun x => ((f x).map g).sum).sum := by
  induction l with
  | nil => rfl
  | cons x rest ih =>
      rw [List.flatMap_cons, List.map_append, List.sum_append, ih, List.map_cons, List.sum_cons]

/-- **Nothing of a block is lost:** along the offsets and the weights that are kept, the same is
added up as over all places of the block. -/
theorem sumAt_ofBlock (hrows : rows.length = 2 * range + 1)
    (hcolumns : ∀ row ∈ rows, row.length = 2 * range + 1) :
    sumAt value ((ofBlock range rows.flatten).offsets.map around)
        (ofBlock range rows.flatten).weights
      = ∑ i ∈ Finset.range (2 * range + 1), ∑ j ∈ Finset.range (2 * range + 1),
          (rows.getD i []).getD j 0 * value (around ⟨(i : Int) - range, (j : Int) - range⟩) := by
  unfold offsets weights
  rw [sumAt_entries, entries_ofBlock hcolumns, sum_weighted, placed, sum_flatMap,
    sum_zipIdx _ [], hrows]
  refine Finset.sum_congr rfl fun i hi => ?_
  have hrow : (rows.getD i []).length = 2 * range + 1 := by
    have hlt : i < rows.length := by
      rw [hrows]
      exact Finset.mem_range.mp hi
    rw [List.getD_eq_getElem _ _ hlt]
    exact hcolumns _ (List.getElem_mem hlt)
  rw [List.map_map, sum_zipIdx _ 0, hrow]
  simp only [Nat.zero_add, Function.comp]

end Neighbourhood

/-! ### The text of one phase -/

/-- What a text gives to one phase: a block of weights around the cell, the weights of the
states, and a rulestring. -/
structure PhaseText where
  range : Nat
  block : List (List Int)
  stateWeights : List Int
  rulestring : List Char

namespace PhaseText

/-- The sum over all places of the block of the weight there times the value of the state
there, where `around` tells the state at each displacement from the cell. -/
def total (t : PhaseText) (value : State → Int) (around : Offset → State) : Int :=
  ∑ i ∈ Finset.range (2 * t.range + 1), ∑ j ∈ Finset.range (2 * t.range + 1),
    (t.block.getD i []).getD j 0 * value (around ⟨(i : Int) - t.range, (j : Int) - t.range⟩)

/-- The sum where each state has its weight, and none past the end of the list. -/
def weightedTotal (t : PhaseText) (around : Offset → State) : Int :=
  t.total (fun s => t.stateWeights.getD s 0) around

/-- The sum over the places where the state is the given one. -/
def stateTotal (t : PhaseText) (state : State) (around : Offset → State) : Int :=
  t.total (fun s => if s = state then 1 else 0) around

/-- The block has as many rows and columns as its range asks for. -/
structure Square (t : PhaseText) : Prop where
  rows : t.block.length = 2 * t.range + 1
  columns : ∀ row ∈ t.block, row.length = 2 * t.range + 1

/-- The phase that is made of the text. -/
def phase (t : PhaseText) : Sections.Phase :=
  { neighbourhood := .ofBlock t.range t.block.flatten
    stateWeights := t.stateWeights
    rulestring := t.rulestring }

variable {t : PhaseText}

theorem sumAt_phase (h : t.Square) (value : State → Int) (around : Offset → State) :
    sumAt value (t.phase.neighbourhood.offsets.map around) t.phase.neighbourhood.weights
      = t.total value around :=
  Neighbourhood.sumAt_ofBlock value around h.rows h.columns

theorem weightedSum_phase (h : t.Square) (around : Offset → State) :
    t.phase.weights.weightedSum (t.phase.neighbourhood.offsets.map around)
      = t.weightedTotal around := by
  have hweight : t.phase.weights.stateWeight = fun s => t.stateWeights.getD s 0 := by
    funext s
    simp [PhaseWeights.stateWeight, Sections.Phase.weights, phase, Array.getD_eq_getD_getElem?,
      List.getD_eq_getElem?_getD]
  unfold PhaseWeights.weightedSum
  rw [hweight]
  exact sumAt_phase h _ around

/-- The text of a phase: one of each list of the sections, and every list starts over at its
end. -/
structure GivenTo (t : PhaseText) (s : Sections) (stateWeights : List (List Int))
    (rulestrings : List (List Char)) (phase : Nat) : Prop where
  range : s.range = some t.range
  block : s.blocks[phase % s.blocks.length]? = some t.block
  weights : stateWeights[phase % stateWeights.length]? = some t.stateWeights
  rulestring : rulestrings[phase % rulestrings.length]? = some t.rulestring
  square : t.Square

end PhaseText

/-! ### Tables that mean what the text says -/

/-- The field of a rulestring is a list of integers, and the condition looks the weighted sum
up in it. -/
def Condition.LooksUp (c : Condition) (field : List Char) : Prop :=
  ∃ values, Rulestring.intSet field = .ok values ∧ c = .totals .weighted values

/-- Likewise for a condition that is left out when its field has no integers. -/
def Condition.MayLookUp (c : Option Condition) (field : List Char) : Prop :=
  ∃ values, Rulestring.intSet field = .ok values ∧
    c = if values.isEmpty then none else some (.totals .weighted values)

variable {t : PhaseText}

/-- The table tests what the text of its phase says. -/
structure LifePhase.Means (table : LifePhase) (t : PhaseText) (offsets : List Offset) : Prop where
  reads : ∃ fs, Rulestring.fields ["b", "s"] 2 Rulestring.swapFirst t.rulestring = .ok fs ∧
    table.birth.LooksUp (fs.getD 0 []) ∧ table.survival.LooksUp (fs.getD 1 [])
  tests : ∀ around, table.weights.weightedSum (offsets.map around) = t.weightedTotal around

/-- Likewise for a phase with five lists, where a sum is over the places in one state. -/
structure BsfklPhase.Means (table : BsfklPhase) (t : PhaseText) (offsets : List Offset) :
    Prop where
  reads : ∃ fs, Rulestring.fields ["b", "s", "f", "k", "l"] 5 id t.rulestring = .ok fs ∧
    Rulestring.intSet (fs.getD 0 []) = .ok table.birth ∧
    Rulestring.intSet (fs.getD 1 []) = .ok table.survival ∧
    Rulestring.intSet (fs.getD 2 []) = .ok table.forcing ∧
    Rulestring.intSet (fs.getD 3 []) = .ok table.killing ∧
    Rulestring.intSet (fs.getD 4 []) = .ok table.living
  tests : ∀ state around, table.sum state (offsets.map around) = t.stateTotal state around

/-- Likewise for a phase with active states, and perhaps with regeneration. -/
structure AgeingPhase.Means (table : AgeingPhase) (nStates : Nat) (regenerating : Bool)
    (t : PhaseText) (offsets : List Offset) : Prop where
  reads : ∃ fs, Rulestring.fields (Rulestring.generationKeys regenerating) 3 Rulestring.swapFirst
      t.rulestring = .ok fs ∧
    table.birth.LooksUp (fs.getD 0 []) ∧ table.survival.LooksUp (fs.getD 1 []) ∧
    Rulestring.activity nStates (fs.getD 2 []) = .ok table.active ∧
    Condition.MayLookUp table.regenBirth (fs.getD 3 []) ∧
    Condition.MayLookUp table.regenSurvival (fs.getD 4 [])
  tests : ∀ around, table.weights.weightedSum (offsets.map around) = t.weightedTotal around

/-- In this phase the rule tests what the text says, by a table of its family. -/
inductive Rule.Tests (r : Rule) (phase : Nat) (t : PhaseText) : Prop
  | life (table : LifePhase) (space : r.space = .outerTotalistic)
      (next : ∀ ns current, r.next phase ns current = table.next ns current)
      (means : table.Means t (r.offsets phase))
  | bsfkl (table : BsfklPhase) (space : r.space = .bsfkl)
      (next : ∀ ns current, r.next phase ns current = table.next ns current)
      (means : table.Means t (r.offsets phase))
  | ageing (table : AgeingPhase) (regenerating : Bool)
      (space : r.space = if regenerating then .regeneratingGenerations else .extendedGenerations)
      (next : ∀ ns current, r.next phase ns current = table.next r.nStates ns current)
      (means : table.Means r.nStates regenerating t (r.offsets phase))

/-! ### What is read of the rulestrings -/

theorem Condition.looksUp_of_condition {c : Condition} {field : List Char}
    (h : Rulestring.condition .weighted field = .ok c) : c.LooksUp field := by
  obtain ⟨values, hvalues, rfl⟩ := ok_of_map h
  exact ⟨values, hvalues, rfl⟩

theorem Condition.mayLookUp_of_regeneration {c : Option Condition} {field : List Char}
    (h : Rulestring.regeneration .weighted field = .ok c) : MayLookUp c field := by
  obtain ⟨values, hvalues, h⟩ := ok_of_bind h
  injection h with h
  exact ⟨values, hvalues, h.symm⟩

theorem Sections.means_life (h : t.Square) {table : LifePhase}
    (htable : t.phase.life .weighted = .ok table) :
    table.Means t t.phase.neighbourhood.offsets := by
  obtain ⟨hweights, hread⟩ := Phase.of_life htable
  obtain ⟨fs, hfs, hbirth, hsurvival⟩ := Rulestring.of_outerTotalistic hread
  refine ⟨⟨fs, hfs, Condition.looksUp_of_condition hbirth,
    Condition.looksUp_of_condition hsurvival⟩, fun around => ?_⟩
  rw [hweights]
  exact PhaseText.weightedSum_phase h around

theorem Sections.means_bsfkl (h : t.Square) {table : BsfklPhase}
    (htable : t.phase.read (Rulestring.bsfkl t.phase.neighbourhood.weights) = .ok table) :
    table.Means t t.phase.neighbourhood.offsets := by
  obtain ⟨fs, hfs, hread⟩ := ok_of_bind (ok_of_mapError htable)
  obtain ⟨birth, hbirth, hread⟩ := ok_of_bind hread
  obtain ⟨survival, hsurvival, hread⟩ := ok_of_bind hread
  obtain ⟨forcing, hforcing, hread⟩ := ok_of_bind hread
  obtain ⟨killing, hkilling, hread⟩ := ok_of_bind hread
  obtain ⟨living, hliving, hread⟩ := ok_of_bind hread
  injection hread with hread
  subst hread
  exact ⟨⟨fs, hfs, hbirth, hsurvival, hforcing, hkilling, hliving⟩,
    fun state around => PhaseText.sumAt_phase h _ around⟩

theorem Sections.means_ageing (h : t.Square) {nStates : Nat} {regenerating : Bool}
    {table : AgeingPhase}
    (htable : t.phase.ages .weighted nStates regenerating = .ok table) :
    table.Means nStates regenerating t t.phase.neighbourhood.offsets := by
  obtain ⟨hweights, fs, hfs, hread⟩ := Rulestring.of_generations (ok_of_mapError htable)
  refine ⟨⟨fs, hfs, Condition.looksUp_of_condition hread.birth,
    Condition.looksUp_of_condition hread.survival, hread.active,
    Condition.mayLookUp_of_regeneration hread.regenBirth,
    Condition.mayLookUp_of_regeneration hread.regenSurvival⟩, fun around => ?_⟩
  rw [hweights]
  exact PhaseText.weightedSum_phase h around

/-! ### The phases of a rule -/

namespace Sections

/-- The rulestring that was read has at least one phase. -/
def HasPhases (s : Sections) : Prop := ∀ rulestrings, s.rulestrings = some rulestrings →
  rulestrings ≠ []

theorem hasPhases_line {s t : Sections} {number : Nat} {l : List Char} (hs : s.HasPhases)
    (h : s.line number l = .ok t) : t.HasPhases := by
  unfold line at h
  split at h
  · injection h with h
    exact h ▸ hs
  · split at h
    · obtain ⟨e, current, hopens, -, hwrite⟩ := says_of_label h
      obtain rfl := Except.ok.inj ((hwrite s number).symm.trans h)
      cases e with
      | rulestrings value =>
          intro rulestrings hrulestrings
          exact Option.some.inj hrulestrings ▸ hopens.1
      | _ => exact hs
    · obtain ⟨_, _, _, -, rfl⟩ := of_continuation h
      exact hs

theorem hasPhases_ofText {text : String} {s : Sections} (h : ofText text = .ok s) :
    s.HasPhases := by
  obtain ⟨t, ht, h⟩ := ok_of_bind h
  injection h with h
  have hphases : t.HasPhases :=
    invariant_of_foldlM HasPhases (fun _ _ _ _ hs hline => hasPhases_line hs hline)
      (fun _ hnone => by cases hnone) ht
  rw [← h]
  exact hphases

theorem stateWeights_ne_nil {stateWeights : List (List Int)} {nStates : Nat}
    (h : stateCount stateWeights = .ok nStates) : stateWeights ≠ [] := by
  rintro rfl
  cases h

/-- A phase takes one of each list. -/
theorem getElem?_phases {period phase : Nat} {parsed : List Neighbourhood}
    {stateWeights : List (List Int)} {rulestrings : List (List Char)} {n : Neighbourhood}
    {weights : List Int} {rulestring : List Char} (hphase : phase < period)
    (hn : cyclic parsed phase = some n) (hweights : cyclic stateWeights phase = some weights)
    (hrulestring : cyclic rulestrings phase = some rulestring) :
    (phases period parsed stateWeights rulestrings)[phase]?
      = some { neighbourhood := n, stateWeights := weights, rulestring := rulestring } := by
  have hplace : ∀ {α : Type} {xs : List α} {x : α}, cyclic xs phase = some x →
      (cycled xs period)[phase]? = some x := by
    intro α xs x hx
    rw [getElem?_cycled (List.ne_nil_of_mem (mem_of_cyclic hx)) hphase, hx]
  have hrest : ((cycled stateWeights period).zip (cycled rulestrings period))[phase]?
      = some (weights, rulestring) :=
    List.getElem?_zip_eq_some.mpr ⟨hplace hweights, hplace hrulestring⟩
  have hall : ((cycled parsed period).zip ((cycled stateWeights period).zip
      (cycled rulestrings period)))[phase]? = some (n, weights, rulestring) :=
    List.getElem?_zip_eq_some.mpr ⟨hplace hn, hrest⟩
  unfold phases
  rw [List.getElem?_map, hall]
  rfl

end Sections

namespace Rule

variable {r : Rule} {s : Sections} {parsed : List Neighbourhood} {stateWeights : List (List Int)}
  {rulestrings : List (List Char)}

/-- In every generation the rule takes one of each list of its text. -/
theorem exists_text (h : s.Assembled r parsed stateWeights rulestrings)
    (hkind : ∀ f, r.conditions ≠ .isotropic f) (hphases : rulestrings ≠ []) (generation : Nat) :
    ∃ t : PhaseText, t.GivenTo s stateWeights rulestrings (r.phase generation) ∧
      r.offsets (r.phase generation) = t.phase.neighbourhood.offsets ∧
      (Sections.phases r.period parsed stateWeights rulestrings)[r.phase generation]?
        = some t.phase := by
  obtain ⟨range, hrange, hblocks, hparsed⟩ := Sections.of_neighbourhoods h.readsBlocks hkind
  obtain ⟨block, -, hblock⟩ := cyclic_mem hblocks (r.phase generation)
  obtain ⟨n, hn, hrows, hcolumns, rfl⟩ := cyclic_of_forall₂ hparsed hblock
  obtain ⟨weights, -, hweights⟩ :=
    cyclic_mem (Sections.stateWeights_ne_nil h.states) (r.phase generation)
  obtain ⟨rulestring, -, hrulestring⟩ := cyclic_mem hphases (r.phase generation)
  have hne : parsed ≠ [] := List.ne_nil_of_mem (mem_of_cyclic hn)
  have hperiod := period_of_assembled h hne
  have hphase := r.phase_lt generation
  refine ⟨⟨range, block, weights, rulestring⟩,
    ⟨hrange, hblock, hweights, hrulestring, hrows, hcolumns⟩, ?_,
    Sections.getElem?_phases hphase hn hweights hrulestring⟩
  have hneighbourhood : r.neighbourhood (r.phase generation) = .ofBlock range block.flatten := by
    unfold neighbourhood
    rw [cyclic_of_lt hphase, h.neighbourhoods, ← hperiod,
      Sections.getElem?_cycled hne hphase, hn]
    rfl
  unfold offsets
  rw [hneighbourhood]
  rfl

/-- The table of a phase is read from the phase. -/
theorem exists_table {α β : Type} {f : α → Except RuleError β} {phases : List α} {tables : List β}
    (h : phases.mapM f = .ok tables) {phase : Nat} {p : α} (hp : phases[phase]? = some p) :
    ∃ table, cyclic tables phase = some table ∧ f p = .ok table := by
  obtain ⟨hphase, -⟩ := List.getElem?_eq_some_iff.mp hp
  exact cyclic_of_forall₂ (forall₂_of_mapM h) ((cyclic_of_lt hphase).trans hp)

/-- **The table of a phase means what the text of the phase says.** -/
theorem tests_of_text (hweighted : r.conditions = .weighted) {phases : List Sections.Phase}
    (htransition : Sections.transition r.space r.conditions r.nStates phases = .ok r.transition)
    {phase : Nat} {t : PhaseText} (hsquare : t.Square)
    (hoffsets : r.offsets phase = t.phase.neighbourhood.offsets)
    (hphase : phases[phase]? = some t.phase) : r.Tests phase t := by
  have hnext : ∀ ns current, r.next phase ns current = r.transition.next phase ns current :=
    fun _ _ => rfl
  rw [hweighted] at htransition
  cases hspace : r.space with
  | outerTotalistic =>
      rw [hspace] at htransition
      obtain ⟨tables, htables, htransition⟩ := ok_of_bind htransition
      obtain ⟨table, htable, hread⟩ := exists_table htables hphase
      refine .life table hspace (fun ns current => ?_)
        (hoffsets ▸ Sections.means_life hsquare hread)
      rw [hnext, ← Except.ok.inj htransition, Transition.next, htable]
      rfl
  | bsfkl =>
      rw [hspace] at htransition
      obtain ⟨-, -, htransition⟩ := ok_of_bind htransition
      obtain ⟨tables, htables, htransition⟩ := ok_of_bind htransition
      obtain ⟨table, htable, hread⟩ := exists_table htables hphase
      refine .bsfkl table hspace (fun ns current => ?_)
        (hoffsets ▸ Sections.means_bsfkl hsquare hread)
      rw [hnext, ← Except.ok.inj htransition, Transition.next, htable]
      rfl
  | extendedGenerations =>
      rw [hspace] at htransition
      obtain ⟨tables, htables, htransition⟩ := ok_of_bind htransition
      obtain ⟨table, htable, hread⟩ := exists_table htables hphase
      refine .ageing table false hspace (fun ns current => ?_)
        (hoffsets ▸ Sections.means_ageing hsquare hread)
      rw [hnext, ← Except.ok.inj htransition, Transition.next, htable]
      rfl
  | regeneratingGenerations =>
      rw [hspace] at htransition
      obtain ⟨tables, htables, htransition⟩ := ok_of_bind htransition
      obtain ⟨table, htable, hread⟩ := exists_table htables hphase
      refine .ageing table true hspace (fun ns current => ?_)
        (hoffsets ▸ Sections.means_ageing hsquare hread)
      rw [hnext, ← Except.ok.inj htransition, Transition.next, htable]
      rfl
  | custom =>
      rw [hspace] at htransition
      cases htransition

/-- A rule of the second family has no choice of conditions. -/
theorem weighted_of_bsfkl (h : s.Assembled r parsed stateWeights rulestrings)
    (hspace : r.space = .bsfkl) : r.conditions = .weighted := by
  have hkind := h.kind
  unfold Sections.conditionKind at hkind
  split at hkind
  · exact (Except.ok.inj hkind).symm
  · split at hkind
    · cases hkind
    · rename_i kind _ hallowed
      rw [hspace] at hallowed
      rw [← Except.ok.inj hkind]
      by_contra hne
      exact hallowed ⟨rfl, hne⟩

end Rule

/--
**A rule means what its text says.**  Let a text be read as a rule whose conditions are weighted
sums, or whose family is BSFKL.  Then the rule has as many phases as the longest of the three
lists of its text, of blocks, of state weights and of rulestrings, where a block without rows
does not count.

In every generation there is one of each list that the text gives to it, every list starting
over at its own end, and the rule tests what they say: whatever the states around a cell, what
is added up along the offsets of the rule is the sum over all places of the block, and it is
looked up in the sets of integers of the rulestring.  In a BSFKL rule the living and the
destructive sum are those over the places in state 1 and in state 2.
-/
theorem Rule.means_its_text {text : String} {r : Rule} (h : Rule.ofText text = .ok r)
    (hkind : r.conditions = .weighted ∨ r.space = .bsfkl) :
    ∃ s stateWeights rulestrings, Sections.ofText text = .ok s ∧
      s.stateWeights = some stateWeights ∧ s.rulestrings = some rulestrings ∧
      r.period = max s.blocks.length (max stateWeights.length rulestrings.length) ∧
      ∀ generation, ∃ t : PhaseText,
        t.GivenTo s stateWeights rulestrings (r.phase generation) ∧
        r.Tests (r.phase generation) t := by
  obtain ⟨s, hs, hcompile⟩ := ok_of_bind h
  obtain ⟨parsed, stateWeights, rulestrings, ha⟩ := Sections.assembled hcompile
  have hweighted : r.conditions = .weighted := hkind.elim id (weighted_of_bsfkl ha)
  have hfamily : ∀ f, r.conditions ≠ .isotropic f := by
    intro f hf
    rw [hweighted] at hf
    cases hf
  obtain ⟨range, -, hblocks, hparsed⟩ := Sections.of_neighbourhoods ha.readsBlocks hfamily
  have hlength := hparsed.length_eq
  have hne : parsed ≠ [] := by
    rintro rfl
    exact hblocks (List.length_eq_zero_iff.mp hlength)
  have hperiod := period_of_assembled ha hne
  refine ⟨s, stateWeights, rulestrings, hs, ha.readsWeights, ha.readsRulestrings, ?_,
    fun generation => ?_⟩
  · rw [hperiod, Sections.period, ← hlength, Nat.max_self]
  · obtain ⟨t, hgiven, hoffsets, hphase⟩ := exists_text ha hfamily
      (Sections.hasPhases_ofText hs rulestrings ha.readsRulestrings) generation
    rw [hperiod] at hphase
    exact ⟨t, hgiven, tests_of_text hweighted ha.transition hgiven.square hoffsets hphase⟩

/-- Two blocks, three phases of state weights and two rulestrings, and so three phases. -/
theorem Rule.means_its_text_of_alternating_blocks :
    let text := "Rulespace: Outer Totalistic\nState Weights: 0,1 | 0,-3 | 2,5\n" ++
      "Rulestring: b3s2,3 | b-4s0\nNeighbourhood Range: 1\n" ++
      "Neighbourhood:\n1,2,0\n0,0,7\n-1,0,0\n--\n0,0,0\n0,4,1\n0,0,9"
    ∃ r, Rule.ofText text = .ok r ∧ r.conditions = .weighted ∧ r.period = 3 ∧
      ∃ t : PhaseText, t.range = 1 ∧ t.block = [[1, 2, 0], [0, 0, 7], [-1, 0, 0]] ∧
        t.stateWeights = [2, 5] ∧ t.rulestring = "b3s2,3".toList ∧ r.Tests (r.phase 5) t := by
  intro text
  have hall : ((Rule.ofText text).toOption.any fun r => r.conditions = .weighted) = true ∧
      ((Sections.ofText text).toOption.any fun s => s.range = some 1 ∧
        s.blocks = [[[1, 2, 0], [0, 0, 7], [-1, 0, 0]], [[0, 0, 0], [0, 4, 1], [0, 0, 9]]] ∧
        s.stateWeights = some [[0, 1], [0, -3], [2, 5]] ∧
        s.rulestrings = some ["b3s2,3".toList, "b-4s0".toList]) = true := by
    decide +kernel
  obtain ⟨hr, hs⟩ := hall
  obtain ⟨r, hr, hweighted⟩ := exists_ok_of_any hr
  obtain ⟨s, hs, hsections⟩ := exists_ok_of_any hs
  obtain ⟨hrange, hblocks, hweights, hrulestrings⟩ := of_decide_eq_true hsections
  have hkind := of_decide_eq_true hweighted
  obtain ⟨s', stateWeights, rulestrings, hs', hweights', hrulestrings', hperiod, htests⟩ :=
    means_its_text hr (.inl hkind)
  obtain rfl := Except.ok.inj (hs.symm.trans hs')
  obtain rfl := Option.some.inj (hweights.symm.trans hweights')
  obtain rfl := Option.some.inj (hrulestrings.symm.trans hrulestrings')
  rw [hblocks] at hperiod
  have hthree : r.period = 3 := hperiod
  have hphase : r.phase 5 = 2 := by
    unfold phase
    rw [hthree]
  obtain ⟨t, hgiven, ht⟩ := htests 5
  have hblock := hgiven.block
  have hweight := hgiven.weights
  have hrulestring := hgiven.rulestring
  rw [hphase, hblocks] at hblock
  rw [hphase] at hweight hrulestring
  exact ⟨r, hr, hkind, hthree, t, Option.some.inj (hgiven.range.symm.trans hrange),
    (Option.some.inj hblock).symm, (Option.some.inj hweight).symm,
    (Option.some.inj hrulestring).symm, ht⟩

end Cellular
