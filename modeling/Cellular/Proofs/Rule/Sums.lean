/-
No sum of a rule leaves its word.

The weights of a rule are signed 64-bit numbers, and so are the sums that its conditions look up.
A rule is read only if its weights are small enough: of each phase, the sizes of the weights of
all places are added up, each times the size of the heaviest state, and the outcome must fit.

That is one number for a phase, and it bounds everything that is formed on the way to a sum,
whatever the neighbours are.  A product is at most its own part of the bound, and what has been
added up after some places is at most the parts of these places, though the terms may have either
sign.  A BSFKL rule weighs the states by one or not at all, and no state weighs less than one
in the bound, so it is covered as well.
-/
import Mathlib.Algebra.Order.BigOperators.Group.List
import Cellular.Word
import Cellular.Proofs.Rule.Meaning

namespace Cellular

/-- The products that are added up over the places, in their order. -/
def products (value : State → Int) (ns : List State) (ws : List Int) : List Int :=
  List.zipWith (fun s w => w * value s) ns ws

/-- The sum over the places is formed within 64 bits: every product fits, and so does what has
been added up after each of them. -/
structure FormedInWord (value : State → Int) (ns : List State) (ws : List Int) : Prop where
  products : ∀ x ∈ products value ns ws, InWord x
  sums : ∀ first, first <+: Cellular.products value ns ws → InWord (first.foldl (· + ·) 0)
  total : (Cellular.products value ns ws).foldl (· + ·) 0 = sumAt value ns ws

variable {value : State → Int} {ns : List State} {ws : List Int} {bound : Nat}

/-! ### What bounds a sum -/

theorem sum_products (value : State → Int) (ns : List State) :
    ∀ ws : List Int, (products value ns ws).sum = sumAt value ns ws := by
  induction ns with
  | nil => intro ws; rfl
  | cons s rest ih =>
      intro ws
      cases ws with
      | nil => rfl
      | cons w ws =>
          show (w * value s :: products value rest ws).sum = w * value s + sumAt value rest ws
          rw [List.sum_cons, ih]

/-- Each product is bounded by its own part, and there are no more products than parts. -/
theorem sum_natAbs_products_le (hvalue : ∀ s, (value s).natAbs ≤ bound) (ns : List State) :
    ∀ ws : List Int,
      ((products value ns ws).map Int.natAbs).sum ≤ (ws.map fun w => w.natAbs * bound).sum := by
  induction ns with
  | nil => intro ws; exact Nat.zero_le _
  | cons s rest ih =>
      intro ws
      cases ws with
      | nil => exact Nat.le_refl 0
      | cons w ws =>
          show ((w * value s :: products value rest ws).map Int.natAbs).sum ≤ _
          have hproduct : (w * value s).natAbs ≤ w.natAbs * bound := by
            rw [Int.natAbs_mul]
            exact Nat.mul_le_mul_left _ (hvalue s)
          rw [List.map_cons, List.sum_cons, List.map_cons, List.sum_cons]
          exact Nat.add_le_add hproduct (ih ws)

theorem natAbs_sum_le (l : List Int) : l.sum.natAbs ≤ (l.map Int.natAbs).sum := by
  induction l with
  | nil => exact Nat.le_refl 0
  | cons x rest ih =>
      rw [List.sum_cons, List.map_cons, List.sum_cons]
      exact (Int.natAbs_add_le x rest.sum).trans (Nat.add_le_add_left ih _)

theorem inWord_of_natAbs {n : Int} (h : n.natAbs ≤ 0x7fffffffffffffff) : InWord n := by
  unfold InWord
  omega

/-- **One number bounds all that is formed on the way to a sum.** -/
theorem formedInWord_of_bound (hvalue : ∀ s, (value s).natAbs ≤ bound)
    (hbound : (ws.map fun w => w.natAbs * bound).sum ≤ 0x7fffffffffffffff) (ns : List State) :
    FormedInWord value ns ws := by
  have hsizes : ((products value ns ws).map Int.natAbs).sum ≤ 0x7fffffffffffffff :=
    (sum_natAbs_products_le hvalue ns ws).trans hbound
  refine ⟨fun x hx => ?_, fun first hfirst => ?_, ?_⟩
  · have hpart : x.natAbs ≤ ((products value ns ws).map Int.natAbs).sum :=
      List.single_le_sum (fun _ _ => Nat.zero_le _) _ (List.mem_map_of_mem hx)
    exact inWord_of_natAbs (hpart.trans hsizes)
  · -- The sizes of the first terms are some of the sizes.
    have hparts : (first.map Int.natAbs).sum ≤ ((products value ns ws).map Int.natAbs).sum :=
      (hfirst.sublist.map Int.natAbs).sum_le_sum fun _ _ => Nat.zero_le _
    rw [← List.sum_eq_foldl]
    exact inWord_of_natAbs ((natAbs_sum_le first).trans (hparts.trans hsizes))
  · rw [← List.sum_eq_foldl, sum_products]

/-! ### What the check says -/

theorem PhaseWeights.natAbs_stateWeight_le (w : PhaseWeights) (s : State) :
    (w.stateWeight s).natAbs ≤ (w.stateWeights.toList.map Int.natAbs).foldl max 1 := by
  unfold stateWeight
  rw [Array.getD_eq_getD_getElem?, ← Array.getElem?_toList]
  cases hs : w.stateWeights.toList[s]? with
  | none => exact Nat.zero_le _
  | some v =>
      exact (le_foldl_max _ 1).2 _ (List.mem_map_of_mem (List.mem_of_getElem? hs))

namespace Sections

theorem sum_le_of_weightsFit {n : Neighbourhood} {stateWeights : List Int}
    (h : weightsFit n stateWeights = true) :
    (n.weights.map fun w => w.natAbs * (stateWeights.map Int.natAbs).foldl max 1).sum
      ≤ 0x7fffffffffffffff := by
  have hfold := of_decide_eq_true h
  rwa [← List.foldl_map, ← List.sum_eq_foldl] at hfold

theorem weightsFit_of_checkWeights {phases : List Phase} (h : checkWeights phases = .ok ())
    {p : Phase} (hp : p ∈ phases) : weightsFit p.neighbourhood p.stateWeights = true := by
  rw [← List.zipIdx_map_fst 1 phases] at hp
  obtain ⟨x, hx, rfl⟩ := List.mem_map.mp hp
  exact of_check (ok_of_forM h x hx)

/-- A phase that passes the check forms its weighted sums within 64 bits. -/
theorem formedInWord_weights {p : Phase} (h : weightsFit p.neighbourhood p.stateWeights = true)
    (ns : List State) :
    FormedInWord p.weights.stateWeight ns p.weights.weights :=
  formedInWord_of_bound p.weights.natAbs_stateWeight_le (sum_le_of_weightsFit h) ns

/-- It also does so where each place counts only if its neighbour is in one state. -/
theorem formedInWord_places {p : Phase} (h : weightsFit p.neighbourhood p.stateWeights = true)
    (ns : List State) (s : State) :
    FormedInWord (fun n => if n = s then 1 else 0) ns p.neighbourhood.weights := by
  refine formedInWord_of_bound (fun n => ?_) (sum_le_of_weightsFit h) ns
  have hone : 1 ≤ (p.stateWeights.map Int.natAbs).foldl max 1 := (le_foldl_max _ 1).1
  split
  · exact hone
  · exact Nat.zero_le _

end Sections

/-! ### Rules -/

/-- In this phase there is a table, and its sums over these neighbours are formed within 64
bits: the weighted sum, or in a BSFKL rule the living and the destructive sum. -/
def Transition.FormsInWord (t : Transition) (phase : Nat) (ns : List State) : Prop :=
  match t with
  | outerTotalistic tables => ∃ p, cyclic tables phase = some p ∧
      FormedInWord p.weights.stateWeight ns p.weights.weights
  | bsfkl tables => ∃ p, cyclic tables phase = some p ∧
      FormedInWord (fun n => if n = 1 then 1 else 0) ns p.weights ∧
      FormedInWord (fun n => if n = 2 then 1 else 0) ns p.weights
  | generations _ tables => ∃ p, cyclic tables phase = some p ∧
      FormedInWord p.weights.stateWeight ns p.weights.weights
  | function _ => False

namespace Sections

theorem weights_of_bsfkl {weights : List Int} {cs : List Char} {table : BsfklPhase}
    (h : Rulestring.bsfkl weights cs = .ok table) : table.weights = weights := by
  obtain ⟨fs, -, h⟩ := ok_of_bind h
  obtain ⟨birth, -, h⟩ := ok_of_bind h
  obtain ⟨survival, -, h⟩ := ok_of_bind h
  obtain ⟨forcing, -, h⟩ := ok_of_bind h
  obtain ⟨killing, -, h⟩ := ok_of_bind h
  obtain ⟨living, -, h⟩ := ok_of_bind h
  injection h with h
  rw [← h]

/-- The table of a phase is read from one of the phases of the text. -/
theorem exists_phase {α : Type} {f : Phase → Except RuleError α} {phases : List Phase}
    {tables : List α} (h : phases.mapM f = .ok tables) (hne : phases ≠ []) (phase : Nat) :
    ∃ table, cyclic tables phase = some table ∧ ∃ p ∈ phases, f p = .ok table := by
  obtain ⟨p, hp⟩ := List.exists_mem_of_ne_nil phases hne
  obtain ⟨first, hfirst, -⟩ := (ok_of_mapM h).1 p hp
  obtain ⟨table, htable, hcyclic⟩ := cyclic_mem (List.ne_nil_of_mem hfirst) phase
  exact ⟨table, hcyclic, (ok_of_mapM h).2 table htable⟩

theorem formsInWord_of_transition {space : RuleSpace} {kind : ConditionKind} {nStates : Nat}
    {phases : List Phase} {t : Transition} (h : transition space kind nStates phases = .ok t)
    (hne : phases ≠ []) (hfits : checkWeights phases = .ok ()) (phase : Nat) (ns : List State) :
    t.FormsInWord phase ns := by
  have hage : ∀ {regenerating : Bool} {tables : List AgeingPhase},
      phases.mapM (Phase.ages kind nStates regenerating) = .ok tables →
      (Transition.generations nStates tables).FormsInWord phase ns := by
    intro regenerating tables htables
    obtain ⟨table, hcyclic, p, hp, hread⟩ := exists_phase htables hne phase
    have hweights := (Rulestring.of_generations (ok_of_mapError hread)).1
    refine ⟨table, hcyclic, ?_⟩
    rw [hweights]
    exact formedInWord_weights (weightsFit_of_checkWeights hfits hp) ns
  cases space with
  | outerTotalistic =>
      obtain ⟨tables, htables, rfl⟩ := ok_of_map h
      obtain ⟨table, hcyclic, p, hp, hread⟩ := exists_phase htables hne phase
      refine ⟨table, hcyclic, ?_⟩
      rw [(Phase.of_life hread).1]
      exact formedInWord_weights (weightsFit_of_checkWeights hfits hp) ns
  | bsfkl =>
      obtain ⟨_, -, h⟩ := ok_of_bind h
      obtain ⟨tables, htables, rfl⟩ := ok_of_map h
      obtain ⟨table, hcyclic, p, hp, hread⟩ := exists_phase htables hne phase
      have hfit := weightsFit_of_checkWeights hfits hp
      refine ⟨table, hcyclic, ?_⟩
      rw [weights_of_bsfkl (ok_of_mapError hread)]
      exact ⟨formedInWord_places hfit ns 1, formedInWord_places hfit ns 2⟩
  | extendedGenerations =>
      obtain ⟨tables, htables, rfl⟩ := ok_of_map h
      exact hage htables
  | regeneratingGenerations =>
      obtain ⟨tables, htables, rfl⟩ := ok_of_map h
      exact hage htables
  | custom => cases h

/-- The lists of a text have at least one phase. -/
theorem phases_ne_nil {s : Sections} {r : Rule} {parsed : List Neighbourhood}
    {stateWeights : List (List Int)} {rulestrings : List (List Char)}
    (h : s.Assembled r parsed stateWeights rulestrings) (hrulestrings : rulestrings ≠ []) :
    phases (s.period parsed stateWeights rulestrings) parsed stateWeights rulestrings ≠ [] := by
  have hne : cycled parsed (s.period parsed stateWeights rulestrings) ≠ [] :=
    h.neighbourhoods ▸ r.neighbourhoods_ne
  obtain ⟨n, hn⟩ := List.exists_mem_of_ne_nil _ hne
  have hparsed := List.ne_nil_of_mem (mem_of_mem_cycled hn)
  have hperiod : 0 < s.period parsed stateWeights rulestrings := by
    rw [← length_cycled hparsed (s.period parsed stateWeights rulestrings)]
    exact List.length_pos_of_ne_nil hne
  obtain ⟨first, -, hfirst⟩ := cyclic_mem hparsed 0
  obtain ⟨weights, -, hweights⟩ := cyclic_mem (stateWeights_ne_nil h.states) 0
  obtain ⟨rulestring, -, hrulestring⟩ := cyclic_mem hrulestrings 0
  exact List.ne_nil_of_mem
    (List.mem_of_getElem? (getElem?_phases hperiod hfirst hweights hrulestring))

end Sections

/--
**No sum of a rule that was read overflows.**  In every phase and for every list of neighbours,
of any length and in any states, the products of the weighted sum are signed 64-bit numbers, and
so is what has been added up after each of them.  In a BSFKL rule that holds of the living and of
the destructive sum.
-/
theorem Rule.sums_fit {text : String} {r : Rule} (h : Rule.ofText text = .ok r) (phase : Nat)
    (ns : List State) : r.transition.FormsInWord phase ns := by
  obtain ⟨s, hs, hcompile⟩ := ok_of_bind h
  obtain ⟨parsed, stateWeights, rulestrings, hbuilds⟩ := Sections.compile_eq_ok.mp hcompile
  have hrulestrings := Sections.hasPhases_ofText hs rulestrings hbuilds.readsRulestrings
  exact Sections.formsInWord_of_transition hbuilds.transition
    (Sections.phases_ne_nil hbuilds.toAssembled hrulestrings) hbuilds.fits phase ns

/-- The weights may be as large as that: 3074457345618258602 times 3 is 2 ^ 63 - 2. -/
theorem Rule.sums_fit_of_heavy_cells :
    let text := "Rulespace: Generations\nState Weights: 0,-3,2 | 1,0,-1\nRulestring: b1s2d1-1\n" ++
      "Neighbourhood Range: 1\nNeighbourhood:\n0,-3074457345618258602,0\n0,0,0\n0,0,0"
    ∃ r, Rule.ofText text = .ok r ∧ r.transition.FormsInWord 4 [1, 2, 255] := by
  intro text
  obtain ⟨r, hr, -⟩ : ∃ r, Rule.ofText text = .ok r ∧ decide (r.period = 2) = true :=
    exists_ok_of_any (by decide +kernel)
  exact ⟨r, hr, sums_fit hr 4 [1, 2, 255]⟩

end Cellular
