/-
What is known of a rule that was read.

`Sections.compile` checks first and builds last, so the rule it builds has passed all the
checks, and sections that pass them are built (`compile_eq_ok`); `compiled` lists what most of the
later proofs need of that.  Two facts follow about every rule that comes from a text.  Its
transition never leaves its states, since each family answers a state it was given, one of the
first few, or a remainder by the number of states.  And its name is a part of one line, so it holds
no line feed.
-/
import Cellular.Rule.Compile
import Cellular.Proofs.Rule.Entry
import Cellular.Proofs.Step
import Cellular.Proofs.Text

namespace Cellular

theorem mem_of_cyclic {α : Type} {xs : List α} {i : Nat} {x : α} (h : cyclic xs i = some x) :
    x ∈ xs := List.mem_of_getElem? h

theorem cyclic_of_lt {α : Type} {xs : List α} {i : Nat} (hi : i < xs.length) :
    cyclic xs i = xs[i]? := by
  unfold cyclic
  rw [Nat.mod_eq_of_lt hi]

theorem cyclic_map {α β : Type} (f : α → β) (tables : List α) (phase : Nat) :
    cyclic (tables.map f) phase = (cyclic tables phase).map f := by
  unfold cyclic
  rw [List.length_map, List.getElem?_map]

theorem cyclic_of_forall₂ {α β : Type} {R : α → β → Prop} {l : List α} {l' : List β}
    (h : List.Forall₂ R l l') {i : Nat} {x : α} (hx : cyclic l i = some x) :
    ∃ y, cyclic l' i = some y ∧ R x y := by
  obtain ⟨hlength, hall⟩ := List.forall₂_iff_get.mp h
  unfold cyclic at hx ⊢
  obtain ⟨hi, hget⟩ := List.getElem?_eq_some_iff.mp hx
  have hi' : i % l'.length < l'.length := by
    rw [hlength] at hi
    exact hi
  refine ⟨_, List.getElem?_eq_getElem hi', ?_⟩
  have hrelated := hall _ hi (hlength ▸ hi)
  simp only [List.get_eq_getElem, hget] at hrelated
  simpa only [hlength] using hrelated

namespace Sections

theorem mem_of_mem_cycled {α : Type} {xs : List α} {count : Nat} {x : α}
    (h : x ∈ cycled xs count) : x ∈ xs := by
  obtain ⟨i, -, hi⟩ := List.mem_filterMap.mp h
  exact mem_of_cyclic hi

theorem cycled_map {α β : Type} (f : α → β) (xs : List α) (count : Nat) :
    cycled (xs.map f) count = (cycled xs count).map f := by
  unfold cycled
  rw [List.map_filterMap]
  simp only [cyclic_map]

theorem of_check {condition : Bool} {e : RuleError} {u : Unit} (h : check condition e = .ok u) :
    condition = true := by
  unfold check at h
  split at h
  · assumption
  · simp at h

theorem of_required {α : Type} {which : RequiredSection} {o : Option α} {a : α}
    (h : required which o = .ok a) : o = some a := by
  cases o with
  | none => cases h
  | some b => exact congrArg some (Except.ok.inj h)

theorem neighbourhood_mem_of_phases {period : Nat} {parsed : List Neighbourhood}
    {stateWeights : List (List Int)} {rulestrings : List (List Char)} {p : Phase}
    (h : p ∈ phases period parsed stateWeights rulestrings) : p.neighbourhood ∈ parsed := by
  obtain ⟨⟨n, rest⟩, hmem, rfl⟩ := List.mem_map.mp h
  exact mem_of_mem_cycled (List.of_mem_zip hmem).1

theorem rulestring_mem_of_phases {period : Nat} {parsed : List Neighbourhood}
    {stateWeights : List (List Int)} {rulestrings : List (List Char)} {p : Phase}
    (h : p ∈ phases period parsed stateWeights rulestrings) : p.rulestring ∈ rulestrings := by
  obtain ⟨⟨n, rest⟩, hmem, rfl⟩ := List.mem_map.mp h
  exact mem_of_mem_cycled (List.of_mem_zip (List.of_mem_zip hmem).2).2

theorem nStates_of_stateCount {stateWeights : List (List Int)} {nStates : Nat}
    (h : stateCount stateWeights = .ok nStates) : nStates = (stateWeights.headD []).length := by
  obtain ⟨_, -, h⟩ := ok_of_bind h
  obtain ⟨_, -, h⟩ := ok_of_bind h
  injection h with h
  exact h.symm

theorem le_of_stateCount {stateWeights : List (List Int)} {nStates : Nat}
    (h : stateCount stateWeights = .ok nStates) : 2 ≤ nStates ∧ nStates ≤ 256 := by
  obtain ⟨_, hcheck, h⟩ := ok_of_bind h
  obtain ⟨-, -, h⟩ := ok_of_bind h
  injection h with h
  have hcount := of_check hcheck
  rw [Bool.and_eq_true, decide_eq_true_eq, decide_eq_true_eq] at hcount
  exact h ▸ hcount

/-- A block that is read is a square around the cell. -/
theorem of_blockNeighbourhood {range number : Nat} {rows : List (List Int)} {n : Neighbourhood}
    (h : blockNeighbourhood range number rows = .ok n) :
    rows.length = 2 * range + 1 ∧ (∀ row ∈ rows, row.length = 2 * range + 1) ∧
      n = .ofBlock range rows.flatten := by
  obtain ⟨_, hrows, h⟩ := ok_of_bind h
  obtain ⟨_, hcolumns, h⟩ := ok_of_bind h
  injection h with h
  refine ⟨of_decide_eq_true (of_check hrows), fun row hrow => ?_, h.symm⟩
  obtain ⟨i, hi, rfl⟩ := List.getElem_of_mem hrow
  have hmem : (rows[i], 1 + i) ∈ rows.zipIdx 1 := by
    rw [List.mk_mem_zipIdx_iff_le_and_getElem?_sub]
    exact ⟨Nat.le_add_right 1 i, by rw [Nat.add_sub_cancel_left, List.getElem?_eq_getElem hi]⟩
  exact of_decide_eq_true (of_check (ok_of_forM hcolumns _ hmem))

/-- Without a family the neighbourhoods are those of the blocks, one for each. -/
theorem of_neighbourhoods {s : Sections} {kind : ConditionKind} {parsed : List Neighbourhood}
    (h : s.neighbourhoods kind = .ok parsed) (hkind : ∀ f, kind ≠ .isotropic f) :
    ∃ range, s.range = some range ∧ s.blocks ≠ [] ∧
      List.Forall₂ (fun rows n => rows.length = 2 * range + 1 ∧
        (∀ row ∈ rows, row.length = 2 * range + 1) ∧
        n = Neighbourhood.ofBlock range rows.flatten) s.blocks parsed := by
  unfold neighbourhoods at h
  split at h
  · rename_i family
    exact absurd rfl (hkind family)
  · obtain ⟨range, hrange, h⟩ := ok_of_bind h
    obtain ⟨_, hblocks, h⟩ := ok_of_bind h
    have hne := of_check hblocks
    rw [Bool.not_eq_true', List.isEmpty_eq_false_iff] at hne
    refine ⟨range, of_required hrange, hne, ?_⟩
    rw [← List.zipIdx_map_fst 1 s.blocks, List.forall₂_map_left_iff]
    exact (forall₂_of_mapM h).imp fun _ _ hblock => of_blockNeighbourhood hblock

theorem length_cycled {α : Type} {xs : List α} (hne : xs ≠ []) (count : Nat) :
    (cycled xs count).length = count := by
  unfold cycled
  induction count with
  | zero => rfl
  | succ count ih =>
      obtain ⟨x, -, hx⟩ := cyclic_mem hne count
      rw [List.range_succ, List.filterMap_append, List.length_append, ih,
        List.filterMap_cons_some hx]
      rfl

/-- A list that starts over at its end keeps its places. -/
theorem getElem?_cycled {α : Type} {xs : List α} (hne : xs ≠ []) {count i : Nat}
    (hi : i < count) : (cycled xs count)[i]? = cyclic xs i := by
  induction count with
  | zero => omega
  | succ count ih =>
      obtain ⟨x, -, hx⟩ := cyclic_mem hne count
      have hlen := length_cycled hne count
      have hsucc : cycled xs (count + 1) = cycled xs count ++ [x] := by
        unfold cycled
        rw [List.range_succ, List.filterMap_append, List.filterMap_cons_some hx]
        rfl
      rw [hsucc]
      by_cases hlast : i = count
      · rw [hlast, List.getElem?_append_right (by omega), hlen, Nat.sub_self, hx]
        rfl
      · rw [List.getElem?_append_left (by omega), ih (by omega)]

/-- How a rule is put together from the neighbourhoods, the state weights and the rulestrings
that its sections describe. -/
structure Assembled (s : Sections) (r : Rule) (parsed : List Neighbourhood)
    (stateWeights : List (List Int)) (rulestrings : List (List Char)) : Prop where
  name : r.name = s.name.getD "Untitled"
  space : s.space = some r.space
  readsWeights : s.stateWeights = some stateWeights
  readsRulestrings : s.rulestrings = some rulestrings
  states : stateCount stateWeights = .ok r.nStates
  kind : s.conditionKind r.space = .ok r.conditions
  readsBlocks : s.neighbourhoods r.conditions = .ok parsed
  neighbourhoods : r.neighbourhoods = cycled parsed (s.period parsed stateWeights rulestrings)
  transition : Sections.transition r.space r.conditions r.nStates
    (phases (s.period parsed stateWeights rulestrings) parsed stateWeights rulestrings)
      = .ok r.transition

/-- The rule is the one that its sections describe, and they pass all the checks. -/
structure Builds (s : Sections) (r : Rule) (parsed : List Neighbourhood)
    (stateWeights : List (List Int)) (rulestrings : List (List Char)) : Prop
    extends Assembled s r parsed stateWeights rulestrings where
  tiling : s.checkTiling = .ok ()
  fits : checkWeights
    (phases (s.period parsed stateWeights rulestrings) parsed stateWeights rulestrings) = .ok ()
  colours : s.checkPalette r.nStates = .ok ()
  weights : r.stateWeights = cycled stateWeights (s.period parsed stateWeights rulestrings)
  palette : r.palette = s.palette

/-- **A rule is built exactly if the sections describe it and pass all the checks.** -/
theorem compile_eq_ok {s : Sections} {r : Rule} :
    s.compile = .ok r ↔
      ∃ parsed stateWeights rulestrings, s.Builds r parsed stateWeights rulestrings := by
  constructor
  · intro h
    obtain ⟨_, htiling, h⟩ := ok_of_bind h
    obtain ⟨space, hspace, h⟩ := ok_of_bind h
    obtain ⟨stateWeights, hweights, h⟩ := ok_of_bind h
    obtain ⟨rulestrings, hrulestrings, h⟩ := ok_of_bind h
    obtain ⟨nStates, hstates, h⟩ := ok_of_bind h
    obtain ⟨kind, hkind, h⟩ := ok_of_bind h
    obtain ⟨parsed, hparsed, h⟩ := ok_of_bind h
    obtain ⟨_, hfits, h⟩ := ok_of_bind h
    obtain ⟨transition, htransition, h⟩ := ok_of_bind h
    obtain ⟨_, hcolours, h⟩ := ok_of_bind h
    split at h
    · simp at h
    · injection h with h
      subst h
      exact ⟨parsed, stateWeights, rulestrings, {
        name := rfl
        space := of_required hspace
        readsWeights := of_required hweights
        readsRulestrings := of_required hrulestrings
        states := hstates
        kind := hkind
        readsBlocks := hparsed
        neighbourhoods := rfl
        transition := htransition
        tiling := htiling
        fits := hfits
        colours := hcolours
        weights := rfl
        palette := rfl }⟩
  · rintro ⟨parsed, stateWeights, rulestrings, h⟩
    have hne : cycled parsed (s.period parsed stateWeights rulestrings) ≠ [] :=
      h.neighbourhoods ▸ r.neighbourhoods_ne
    simp only [compile, h.tiling, h.space, h.readsWeights, h.readsRulestrings, required, h.states,
      h.kind, h.readsBlocks, h.fits, h.transition, h.colours, bind, Except.bind, dif_neg hne]
    refine congrArg Except.ok ?_
    obtain ⟨name, nStates, neighbourhoods, weights, space, conditions, transition, palette, reach,
      hreach, _⟩ := r
    obtain rfl := h.name
    obtain rfl := h.neighbourhoods
    obtain rfl := h.weights
    obtain rfl := h.palette
    obtain rfl := hreach
    rfl

theorem assembled {s : Sections} {r : Rule} (h : s.compile = .ok r) :
    ∃ parsed stateWeights rulestrings, s.Assembled r parsed stateWeights rulestrings := by
  obtain ⟨parsed, stateWeights, rulestrings, hbuilds⟩ := compile_eq_ok.mp h
  exact ⟨parsed, stateWeights, rulestrings, hbuilds.toAssembled⟩

/-- What a rule owes to the sections that it was built from. -/
structure Compiled (s : Sections) (r : Rule) : Prop where
  name : r.name = s.name.getD "Untitled"
  two_le : 2 ≤ r.nStates
  le_256 : r.nStates ≤ 256
  kind : s.conditionKind r.space = .ok r.conditions
  sources : ∃ parsed phases, s.neighbourhoods r.conditions = .ok parsed ∧
    (∀ n ∈ r.neighbourhoods, n ∈ parsed) ∧ (∀ p ∈ phases, p.neighbourhood ∈ parsed) ∧
    Sections.transition r.space r.conditions r.nStates phases = .ok r.transition

theorem compiled {s : Sections} {r : Rule} (h : s.compile = .ok r) : s.Compiled r := by
  obtain ⟨parsed, stateWeights, rulestrings, hr⟩ := assembled h
  exact {
    name := hr.name
    two_le := (le_of_stateCount hr.states).1
    le_256 := (le_of_stateCount hr.states).2
    kind := hr.kind
    sources := by
      refine ⟨parsed, _, hr.readsBlocks, fun n hn => ?_, fun p hp => neighbourhood_mem_of_phases hp,
        hr.transition⟩
      rw [hr.neighbourhoods] at hn
      exact mem_of_mem_cycled hn }

end Sections

namespace Rule

variable {r : Rule}

theorem period_of_assembled {s : Sections} {parsed : List Neighbourhood}
    {stateWeights : List (List Int)} {rulestrings : List (List Char)}
    (h : s.Assembled r parsed stateWeights rulestrings) (hne : parsed ≠ []) :
    r.period = s.period parsed stateWeights rulestrings := by
  unfold period
  rw [h.neighbourhoods, Sections.length_cycled hne]

/-- The offsets of a phase are those of one of the neighbourhoods that were read. -/
theorem offsets_of_assembled {s : Sections} {parsed : List Neighbourhood}
    {stateWeights : List (List Int)} {rulestrings : List (List Char)}
    (h : s.Assembled r parsed stateWeights rulestrings) (phase : Nat) :
    ∃ n ∈ parsed, r.offsets phase = n.offsets := by
  have hmem := r.neighbourhood_mem phase
  rw [h.neighbourhoods] at hmem
  exact ⟨_, Sections.mem_of_mem_cycled hmem, rfl⟩

end Rule

/-- The sections that a rule was built from. -/
theorem Rule.of_ofText {text : String} {r : Rule} (h : Rule.ofText text = .ok r) :
    ∃ s, Sections.ofText text = .ok s ∧ s.Compiled r := by
  obtain ⟨s, hs, hr⟩ := ok_of_bind h
  exact ⟨s, hs, Sections.compiled hr⟩

/-! ### No transition leaves the states of the rule -/

theorem LifePhase.next_lt (p : LifePhase) {n : Nat} (hn : 2 ≤ n) (neighbours : List State)
    (current : State) : p.next neighbours current < n :=
  Nat.lt_of_lt_of_le (Bool.toNat_lt _) hn

theorem BsfklPhase.next_lt (p : BsfklPhase) (neighbours : List State) (current : State) :
    p.next neighbours current < 3 := by
  unfold next
  simp only
  split
  · split
    · decide
    · split <;> decide
  · split <;> decide
  · split <;> decide

theorem AgeingPhase.next_lt (p : AgeingPhase) {n : Nat} (hn : 2 ≤ n) (neighbours : List State)
    {current : State} (hs : current < n) : p.next n neighbours current < n := by
  have hage : age n current < n := Nat.mod_lt _ (by omega)
  unfold next
  split
  · exact Nat.lt_of_lt_of_le (Bool.toNat_lt _) hn
  · split
    · split
      · exact hs
      · exact hage
    · split
      · exact Nat.lt_of_le_of_lt (Nat.sub_le current 1) hs
      · split
        · exact hs
        · exact hage

/-- What each table of a list keeps, the list keeps, whichever phase it is. -/
private theorem getD_cyclic_lt {α : Type} {tables : List α} {f : α → State} {n : Nat}
    {current : State} (hall : ∀ t ∈ tables, f t < n) (hs : current < n) (phase : Nat) :
    ((cyclic tables phase).map f).getD current < n := by
  cases hc : cyclic tables phase with
  | none => exact hs
  | some t => exact hall t (mem_of_cyclic hc)

theorem Sections.transition_next_lt {space : RuleSpace} {kind : ConditionKind} {n : Nat}
    {phases : List Phase} {t : Transition} (h : transition space kind n phases = .ok t)
    (hn : 2 ≤ n) (phase : Nat) (neighbours : List State) {current : State} (hs : current < n) :
    t.next phase neighbours current < n := by
  cases space with
  | outerTotalistic =>
      obtain ⟨tables, -, ht⟩ := ok_of_bind h
      injection ht with ht
      subst ht
      exact getD_cyclic_lt (fun p _ => p.next_lt hn neighbours current) hs phase
  | bsfkl =>
      obtain ⟨_, hcheck, h⟩ := ok_of_bind h
      obtain ⟨tables, -, ht⟩ := ok_of_bind h
      injection ht with ht
      subst ht
      have hthree : n = 3 := of_decide_eq_true (of_check hcheck)
      subst hthree
      exact getD_cyclic_lt (fun p _ => p.next_lt neighbours current) hs phase
  | extendedGenerations =>
      obtain ⟨tables, -, ht⟩ := ok_of_bind h
      injection ht with ht
      subst ht
      exact getD_cyclic_lt (fun p _ => p.next_lt hn neighbours hs) hs phase
  | regeneratingGenerations =>
      obtain ⟨tables, -, ht⟩ := ok_of_bind h
      injection ht with ht
      subst ht
      exact getD_cyclic_lt (fun p _ => p.next_lt hn neighbours hs) hs phase
  | custom => cases h

/-- **A rule that was read keeps to its states.** -/
theorem Rule.next_lt {text : String} {r : Rule} (h : Rule.ofText text = .ok r) (phase : Nat)
    (neighbours : List State) {current : State} (hs : current < r.nStates) :
    r.next phase neighbours current < r.nStates := by
  obtain ⟨s, -, hr⟩ := Rule.of_ofText h
  obtain ⟨_, _, -, -, -, htransition⟩ := hr.sources
  exact Sections.transition_next_lt htransition hr.two_le phase neighbours hs

/-! ### The name stands on one line -/

namespace Sections

variable {s t : Sections} {number : Nat}

theorem label_name {written key value : List Char} (h : s.label number written key value = .ok t) :
    t.name = s.name ∨ t.name = some (String.ofList value) := by
  obtain ⟨e, current, -, hkey, hwrite⟩ := says_of_label h
  obtain rfl := Except.ok.inj ((hwrite s number).symm.trans h)
  cases e with
  | name _ =>
      -- No other key stands for the name.
      unfold SectionLabel.ofKey? at hkey
      unfold label at h
      split at hkey
      · rename_i hname
        simp only [hname] at h
        exact Or.inr (congrArg Sections.name (Except.ok.inj h)).symm
      all_goals cases hkey
  | _ => exact Or.inl rfl

/-- The name read so far stands on one line. -/
def OneLineName (s : Sections) : Prop := ∀ name, s.name = some name → '\n' ∉ name.toList

theorem line_name {l : List Char} (hl : '\n' ∉ l) (hs : s.OneLineName)
    (h : s.line number l = .ok t) : t.OneLineName := by
  unfold line at h
  split at h
  · injection h with h
    exact h ▸ hs
  · split at h
    · rename_i key value hcut
      intro name hname
      rcases label_name h with hkept | hvalue
      · exact hs name (hkept ▸ hname)
      · rw [hvalue] at hname
        injection hname with hname
        rw [← hname, String.toList_ofList]
        intro hmem
        exact hl ((Text.sublist_of_cutAt hcut).mem ((Text.trim_sublist value).mem hmem))
    · obtain ⟨_, _, _, -, rfl⟩ := of_continuation h
      exact hs

theorem ofText_name {text : String} (h : ofText text = .ok t) : t.OneLineName := by
  obtain ⟨s, hs, ht⟩ := ok_of_bind h
  injection ht with ht
  subst ht
  have hname : s.OneLineName := by
    refine invariant_of_foldlM OneLineName ?_ ?_ hs
    · intro u x hl v hu hstep
      exact line_name (Text.not_mem_line hl) hu hstep
    · intro name hname
      simp at hname
  exact hname

end Sections

/-- **The name of a rule that was read stands on one line.** -/
theorem Rule.name_of_ofText {text : String} {r : Rule} (h : Rule.ofText text = .ok r) :
    '\n' ∉ r.name.toList := by
  obtain ⟨s, hs, hr⟩ := Rule.of_ofText h
  rw [hr.name]
  cases hname : s.name with
  | none => decide
  | some name => exact Sections.ofText_name hs name hname

end Cellular
