/-
Where the families of rules coincide.

A Generations rule without regeneration is a regenerating one whose regeneration fields are left
out: the fields of its rulestring are read in the same way with two more keys to look for, and the
tables are the same.  An outer totalistic rule of two states is a Generations rule whose state 1
is active, so that it dies of age the moment it does not survive: its rulestring `S/B` becomes
`S/B/1`, its tables become tables of ages (`LifePhase.ageing`), and no cell in state 0 or 1
notices.  The rest of a rule does not depend on its space.
-/
import Cellular.Proofs.Rule.AgeingForms
import Cellular.Proofs.Rule.Compile
import Cellular.Proofs.Rule.Recast

namespace Cellular

/-! ### Tables -/

/-- The ageing table that says the same of two states: state 1 is active, and the next state
after it is the background. -/
def LifePhase.ageing (p : LifePhase) : AgeingPhase where
  weights := p.weights
  birth := p.birth
  survival := p.survival
  active := [false, true]
  regenBirth := none
  regenSurvival := none

theorem LifePhase.next_ageing (p : LifePhase) (neighbours : List State) {current : State}
    (h : current ≤ 1) : p.ageing.next 2 neighbours current = p.next neighbours current := by
  rcases Nat.le_one_iff_eq_zero_or_eq_one.mp h with rfl | rfl
  · rfl
  · show (if p.survival.holds p.weights neighbours then 1 else 0)
      = (p.survival.holds p.weights neighbours).toNat
    cases p.survival.holds p.weights neighbours <;> rfl

/-- A transition of two states as one of ages. -/
def Transition.ageing : Transition → Transition
  | outerTotalistic phases => generations 2 (phases.map LifePhase.ageing)
  | t => t

theorem Transition.next_ageing (phases : List LifePhase) (phase : Nat) (neighbours : List State)
    {current : State} (h : current ≤ 1) :
    (outerTotalistic phases).ageing.next phase neighbours current
      = (outerTotalistic phases).next phase neighbours current := by
  show ((cyclic (phases.map LifePhase.ageing) phase).map (·.next 2 neighbours current)).getD current
    = ((cyclic phases phase).map (·.next neighbours current)).getD current
  rw [cyclic_map]
  cases cyclic phases phase with
  | none => rfl
  | some p => exact p.next_ageing neighbours h

/-! ### Rulestrings -/

namespace Rulestring

variable {kind : ConditionKind} {nStates : Nat} {w : PhaseWeights} {cs : List Char}

/-- Without regeneration there are two more fields, which are empty. -/
theorem fields_regenerating {fs : List (List Char)}
    (h : fields (generationKeys false) 3 swapFirst cs = .ok fs) (hr : 'r' ∉ fs.getD 2 []) :
    fields (generationKeys true) 3 swapFirst cs = .ok (fs ++ [[], []]) := by
  obtain ⟨birth, survival, active, hfs⟩ := List.length_eq_three.mp (length_fields h)
  unfold fields at h ⊢
  split at h
  · rename_i hslash
    rw [if_pos hslash]
    obtain ⟨parts, hparts, rfl⟩ := ok_of_map h
    have hlen : parts.length = 3 := by
      rw [← length_swapFirst, hfs]
      rfl
    obtain ⟨a, b, c, rfl⟩ := List.length_eq_three.mp hlen
    have hmore : slashFields 3 (generationKeys true).length cs = .ok ([a, b, c] ++ [[], []]) :=
      slashFields_more hparts 2
    rw [hmore]
    rfl
  · rename_i hslash
    rw [if_neg hslash]
    subst hfs
    have hmore := @letterFields_more (generationKeys false) ["rb", "rs"]
    exact hmore (by decide) (by decide) h fun field hfield => by
      obtain rfl := Option.some.inj hfield
      exact keyFree_singleton (k := 'r') rfl (by simpa using hr)

theorem ageingTable_append {fs : List (List Char)} (hlen : fs.length = 3) :
    ageingTable kind nStates w (fs ++ [[], []]) = ageingTable kind nStates w fs := by
  obtain ⟨a, b, c, rfl⟩ := List.length_eq_three.mp hlen
  rfl

/-- **A rulestring without regeneration is one of a regenerating rule,** with the same table. -/
theorem generations_regenerating {t : AgeingPhase}
    (h : generations kind nStates false w cs = .ok t) :
    generations kind nStates true w cs = .ok t := by
  obtain ⟨hw, fs, hfs, hreads⟩ := of_generations h
  have hfields := fields_regenerating hfs (not_mem_of_activity hreads.active (by decide))
  rw [generations_eq, hfields]
  show ageingTable kind nStates w (fs ++ [[], []]) = .ok t
  rw [ageingTable_append (length_fields hfs)]
  exact ageingTable_eq_ok.mpr ⟨hw, hreads⟩

/-- One active state, as the slash form writes it. -/
def oneActive : List Char := ['/', '1']

/-- **A life-like rulestring of the slash form, with one active state, is one of ages.** -/
theorem generations_oneActive (kind : ConditionKind) (w : PhaseWeights)
    (hslash : cs.count '/' = 1) :
    (generations kind 2 false w (cs ++ oneActive)).toOption
      = (outerTotalistic kind cs).toOption.map fun both =>
        ({ weights := w, birth := both.1, survival := both.2 } : LifePhase).ageing := by
  obtain ⟨survival, birth, rfl⟩ := List.append_of_mem (List.count_pos_iff.mp (by omega : 0 < cs.count '/'))
  rw [List.count_append, List.count_cons_self] at hslash
  have hsurvival : '/' ∉ survival := List.count_eq_zero.mp (by omega)
  have hbirth : '/' ∉ birth := List.count_eq_zero.mp (by omega)
  have hgs : ∀ g ∈ [birth, survival, ['1']], '/' ∉ g := by
    simp [hbirth, hsurvival]
  have hslashes : survival ++ '/' :: birth ++ oneActive
      = ['/'].intercalate (swapFirst [birth, survival, ['1']]) := by
    simp [List.intercalate, swapFirst, oneActive]
  have hactive : activity 2 ['1'] = .ok [false, true] := by rfl
  rw [hslashes, generations_slashes rfl hgs, outerTotalistic_slashes hbirth hsurvival]
  unfold ageingTable conditions
  simp only [List.getD_cons_zero, List.getD_cons_succ, List.getD_nil, regeneration_nil, hactive,
    toOption_bind]
  cases condition kind birth with
  | error e => rfl
  | ok b => cases condition kind survival <;> rfl

end Rulestring

/-! ### Transitions -/

namespace Sections

variable {kind : ConditionKind} {nStates : Nat} {φ : List Char → List Char}

/-- The phase with another rulestring. -/
def Phase.recast (φ : List Char → List Char) (p : Phase) : Phase :=
  { p with rulestring := φ p.rulestring }

/-- **Without regeneration the transition is that of a regenerating rule.** -/
theorem transition_regenerating {ps : List Phase} {t : Transition}
    (h : transition .extendedGenerations kind nStates ps = .ok t) :
    transition .regeneratingGenerations kind nStates ps = .ok t := by
  rw [transition_extendedGenerations] at h
  obtain ⟨tables, htables, rfl⟩ := ok_of_map h
  have hmore : ps.mapM (Phase.ages kind nStates true) = .ok tables := by
    refine ok_mapM_of_ok (fun p table hread => ?_) htables
    unfold Phase.ages Phase.read
    rw [Rulestring.generations_regenerating (ok_of_mapError hread)]
    rfl
  rw [transition_regeneratingGenerations, hmore]
  rfl

/-- **Of two states, the transition is that of a rule of ages.** -/
theorem toOption_transition_ageing {ps : List Phase}
    (hslash : ∀ p ∈ ps, p.rulestring.count '/' = 1) :
    (transition .extendedGenerations kind 2
        (ps.map (Phase.recast (· ++ Rulestring.oneActive)))).toOption
      = (transition .outerTotalistic kind 2 ps).toOption.map Transition.ageing := by
  have htables : ((ps.map (Phase.recast (· ++ Rulestring.oneActive))).mapM
        (Phase.ages kind 2 false)).toOption
      = (ps.mapM (Phase.life kind)).toOption.map (List.map LifePhase.ageing) := by
    refine toOption_mapM_map fun p hp => ?_
    have htable := Rulestring.generations_oneActive kind p.weights (hslash p hp)
    unfold Phase.life Phase.ages Phase.read
    rw [toOption_bind, toOption_mapError, toOption_mapError]
    refine Eq.trans htable ?_
    cases Rulestring.outerTotalistic kind p.rulestring <;> rfl
  rw [transition_extendedGenerations, transition_outerTotalistic, toOption_map, toOption_map,
    htables, Option.map_map, Option.map_map]
  rfl

/-! ### Rules -/

theorem phases_map (period : Nat) (parsed : List Neighbourhood) (stateWeights : List (List Int))
    (rulestrings : List (List Char)) :
    phases period parsed stateWeights (rulestrings.map φ)
      = (phases period parsed stateWeights rulestrings).map (Phase.recast φ) := by
  unfold phases
  rw [cycled_map, List.zip_map_right, List.zip_map_right, List.map_map, List.map_map]
  rfl

/-- The weights do not depend on the rulestrings. -/
theorem checkWeights_recast (ps : List Phase) :
    checkWeights (ps.map (Phase.recast φ)) = checkWeights ps := by
  unfold checkWeights
  rw [List.zipIdx_map, List.forM_eq_forM, List.forM_map]
  rfl

/-- The sections with a space and phases of their own. -/
def respaced (s : Sections) (space : RuleSpace) (rulestrings : List (List Char)) : Sections :=
  { s with space := some space, rulestrings := some rulestrings }

theorem conditionKind_of_ne_bsfkl (s : Sections) {old new : RuleSpace} (hold : old ≠ .bsfkl)
    (hnew : new ≠ .bsfkl) : s.conditionKind new = s.conditionKind old := by
  unfold conditionKind
  cases s.conditions with
  | none => rfl
  | some kind => simp [hold, hnew]

variable {s : Sections} {r : Rule} {parsed : List Neighbourhood} {stateWeights : List (List Int)}
  {rulestrings rulestrings' : List (List Char)} {old new : RuleSpace} {t : Transition}

/-- **Only the transition of a rule depends on its space and its phases.** -/
theorem Builds.respaced
    (h : (s.respaced old rulestrings).Builds r parsed stateWeights rulestrings)
    (hold : old ≠ .bsfkl) (hnew : new ≠ .bsfkl) (hlen : rulestrings'.length = rulestrings.length)
    (hfits : checkWeights
        (phases (s.period parsed stateWeights rulestrings) parsed stateWeights rulestrings')
      = checkWeights
        (phases (s.period parsed stateWeights rulestrings) parsed stateWeights rulestrings))
    (ht : transition new r.conditions r.nStates
      (phases (s.period parsed stateWeights rulestrings) parsed stateWeights rulestrings') = .ok t) :
    (s.respaced new rulestrings').Builds { r with space := new, transition := t } parsed
      stateWeights rulestrings' := by
  have hspace : old = r.space := Option.some.inj h.space
  have hperiod : (s.respaced new rulestrings').period parsed stateWeights rulestrings'
      = s.period parsed stateWeights rulestrings := by
    show max _ (max _ rulestrings'.length) = _
    rw [hlen]
    rfl
  exact {
    name := h.name
    space := rfl
    readsWeights := h.readsWeights
    readsRulestrings := rfl
    states := h.states
    kind := (conditionKind_of_ne_bsfkl _ (hspace ▸ hold) hnew).trans h.kind
    readsBlocks := h.readsBlocks
    neighbourhoods := by
      rw [hperiod]
      exact h.neighbourhoods
    transition := by
      rw [hperiod]
      exact ht
    tiling := h.tiling
    fits := by
      rw [hperiod, hfits]
      exact h.fits
    colours := h.colours
    weights := by
      rw [hperiod]
      exact h.weights
    palette := h.palette }

theorem eq_respaced (hspace : s.space = some old) (hrulestrings : s.rulestrings = some rulestrings) :
    s = s.respaced old rulestrings := by
  unfold Sections.respaced
  rw [← hspace, ← hrulestrings]

theorem recast_eq_respaced (hspace : s.space = some old)
    (hrulestrings : s.rulestrings = some rulestrings) :
    s.recast old new φ = s.respaced new (rulestrings.map φ) := by
  unfold recast Sections.respaced
  rw [hspace, hrulestrings]
  simp

/-- **Sections of a Generations rule without regeneration are those of a regenerating one.** -/
theorem compile_regenerating (h : s.compile = .ok r) (hspace : r.space = .extendedGenerations) :
    (s.recast .extendedGenerations .regeneratingGenerations id).compile
      = .ok { r with space := .regeneratingGenerations } := by
  obtain ⟨parsed, stateWeights, rulestrings, hbuilds⟩ := compile_eq_ok.mp h
  have hold : s.space = some .extendedGenerations := hspace ▸ hbuilds.space
  have ht := hbuilds.transition
  rw [hspace] at ht
  rw [recast_eq_respaced hold hbuilds.readsRulestrings, List.map_id]
  rw [eq_respaced hold hbuilds.readsRulestrings] at hbuilds
  exact compile_eq_ok.mpr ⟨parsed, stateWeights, rulestrings, hbuilds.respaced (by decide)
    (by decide) rfl rfl (transition_regenerating ht)⟩

/-- Sections of an outer totalistic rule of two states, each phase in the slash form. -/
structure TwoStateLife (s : Sections) : Prop where
  space : s.space = some .outerTotalistic
  states : ∀ stateWeights ∈ s.stateWeights, (stateWeights.headD []).length = 2
  slashForm : ∀ rulestrings ∈ s.rulestrings, ∀ cs ∈ rulestrings, cs.count '/' = 1

end Sections

/-- A rule of two states as one of ages. -/
def Rule.ageing (r : Rule) : Rule :=
  { r with space := .extendedGenerations, transition := r.transition.ageing }

namespace Sections

variable {s : Sections} {r : Rule}

/-- The transition of a rule of two states, read from the sections with its space and phases. -/
theorem Builds.of_respaced {space : RuleSpace} {rulestrings rulestrings' : List (List Char)}
    {parsed : List Neighbourhood} {stateWeights : List (List Int)}
    (h : (s.respaced space rulestrings).Builds r parsed stateWeights rulestrings')
    (hstates : ∀ stateWeights ∈ s.stateWeights, (stateWeights.headD []).length = 2) :
    rulestrings = rulestrings' ∧ space = r.space ∧ r.nStates = 2 ∧
      transition space r.conditions 2
          (phases (s.period parsed stateWeights rulestrings') parsed stateWeights rulestrings')
        = .ok r.transition := by
  have hspace : space = r.space := Option.some.inj h.space
  have htwo : r.nStates = 2 :=
    (nStates_of_stateCount h.states).trans (hstates _ h.readsWeights)
  have ht := h.transition
  rw [← hspace, htwo] at ht
  exact ⟨Option.some.inj h.readsRulestrings, hspace, htwo, ht⟩

/-- The phases of the slash form, with one active state each. -/
theorem compile_respaced_ageing {rulestrings : List (List Char)}
    (hstates : ∀ stateWeights ∈ s.stateWeights, (stateWeights.headD []).length = 2)
    (hslash : ∀ cs ∈ rulestrings, cs.count '/' = 1) :
    (s.respaced .extendedGenerations
        (rulestrings.map (· ++ Rulestring.oneActive))).compile.toOption
      = (s.respaced .outerTotalistic rulestrings).compile.toOption.map Rule.ageing := by
  have hages : ∀ (kind : ConditionKind) (period : Nat) (parsed : List Neighbourhood)
      (stateWeights : List (List Int)),
      (transition .extendedGenerations kind 2 (phases period parsed stateWeights
          (rulestrings.map (· ++ Rulestring.oneActive)))).toOption
        = (transition .outerTotalistic kind 2
          (phases period parsed stateWeights rulestrings)).toOption.map Transition.ageing := by
    intro kind period parsed stateWeights
    rw [phases_map]
    exact toOption_transition_ageing fun p hp => hslash _ (rulestring_mem_of_phases hp)
  have hfits : ∀ (period : Nat) (parsed : List Neighbourhood) (stateWeights : List (List Int)),
      checkWeights (phases period parsed stateWeights
          (rulestrings.map (· ++ Rulestring.oneActive)))
        = checkWeights (phases period parsed stateWeights rulestrings) := by
    intro period parsed stateWeights
    rw [phases_map, checkWeights_recast]
  refine Option.ext fun r => ⟨fun hr => ?_, fun hr => ?_⟩
  · obtain ⟨parsed, stateWeights, _, hbuilds⟩ := compile_eq_ok.mp (ok_of_toOption hr)
    obtain ⟨rfl, hspace, htwo, ht⟩ := hbuilds.of_respaced hstates
    have hmap := hages r.conditions (s.period parsed stateWeights
      (rulestrings.map (· ++ Rulestring.oneActive))) parsed stateWeights
    rw [ht] at hmap
    obtain ⟨t, hlife, hageing⟩ := Option.map_eq_some_iff.mp hmap.symm
    have hr : (s.respaced .outerTotalistic rulestrings).compile
        = .ok { r with space := .outerTotalistic, transition := t } :=
      compile_eq_ok.mpr ⟨parsed, stateWeights, rulestrings, hbuilds.respaced (by decide)
        (by decide) (List.length_map _).symm (hfits _ _ _).symm (htwo ▸ ok_of_toOption hlife)⟩
    rw [hr]
    show some ({ r with space := .extendedGenerations, transition := t.ageing } : Rule) = some r
    rw [hageing, hspace]
  · obtain ⟨r, hcompile, rfl⟩ := Option.map_eq_some_iff.mp hr
    obtain ⟨parsed, stateWeights, _, hbuilds⟩ := compile_eq_ok.mp (ok_of_toOption hcompile)
    obtain ⟨rfl, -, htwo, ht⟩ := hbuilds.of_respaced hstates
    have hmap := hages r.conditions (s.period parsed stateWeights rulestrings) parsed stateWeights
    rw [ht] at hmap
    have hr : (s.respaced .extendedGenerations
        (rulestrings.map (· ++ Rulestring.oneActive))).compile = .ok r.ageing :=
      compile_eq_ok.mpr ⟨parsed, stateWeights, _, hbuilds.respaced (by decide)
        (by decide) (List.length_map _) (hfits _ _ _) (htwo ▸ ok_of_toOption hmap)⟩
    rw [hr]
    rfl

/-- **Sections of an outer totalistic rule of two states are those of a rule of ages.** -/
theorem compile_ageing (h : s.TwoStateLife) :
    (s.recast .outerTotalistic .extendedGenerations (· ++ Rulestring.oneActive)).compile.toOption
      = s.compile.toOption.map Rule.ageing := by
  cases hrulestrings : s.rulestrings with
  | none =>
      -- Neither has a rulestring.
      have hnone : ∀ {u : Sections}, u.rulestrings = none → u.compile.toOption = none := by
        intro u hu
        refine Option.eq_none_iff_forall_ne_some.mpr fun r hr => ?_
        obtain ⟨_, _, _, hbuilds⟩ := compile_eq_ok.mp (ok_of_toOption hr)
        cases hu.symm.trans hbuilds.readsRulestrings
      rw [hnone hrulestrings, hnone (congrArg (Option.map _) hrulestrings)]
      rfl
  | some rulestrings =>
      rw [recast_eq_respaced h.space hrulestrings,
        compile_respaced_ageing h.states (h.slashForm rulestrings hrulestrings),
        ← eq_respaced h.space hrulestrings]

end Sections

/-! ### Texts -/

namespace Rule

open Sections

theorem toOption_ofText_ageing {text text' : String}
    (h : Layout.Recast .outerTotalistic .extendedGenerations (· ++ Rulestring.oneActive) text text')
    (hlife : ∀ s, Sections.ofText text = .ok s → s.TwoStateLife) :
    (Rule.ofText text').toOption = (Rule.ofText text).toOption.map Rule.ageing := by
  unfold Rule.ofText
  rw [toOption_bind, toOption_bind, toOption_sections_of_recast h]
  cases hs : Sections.ofText text with
  | error e => rfl
  | ok s => exact compile_ageing (hlife s hs)

theorem nextAt_ageing {r : Rule} {phases : List LifePhase}
    (hr : r.transition = .outerTotalistic phases) (s : Surface) (phase : Nat) {look : Coord → State}
    (hlook : ∀ c, look c ≤ 1) (c : Coord) :
    r.ageing.nextAt s phase look c = r.nextAt s phase look c := by
  rw [nextAt_eq, nextAt_eq]
  show r.transition.ageing.next phase _ _ = r.transition.next phase _ _
  rw [hr]
  exact Transition.next_ageing phases phase _ (hlook c)

theorem transition_of_life {text : String} {r : Rule} (hr : Rule.ofText text = .ok r)
    (hlife : ∀ s, Sections.ofText text = .ok s → s.TwoStateLife) :
    ∃ phases, r.transition = .outerTotalistic phases := by
  obtain ⟨s, hs, hcompile⟩ := ok_of_bind hr
  obtain ⟨parsed, stateWeights, rulestrings, hassembled⟩ := assembled hcompile
  have hspace : .outerTotalistic = r.space :=
    Option.some.inj ((hlife s hs).space.symm.trans hassembled.space)
  have ht := hassembled.transition
  rw [← hspace, transition_outerTotalistic] at ht
  obtain ⟨phases, -, hphases⟩ := ok_of_map ht
  exact ⟨phases, hphases.symm⟩

/-- A step does not tell a rule of two states from one of ages. -/
theorem step_ageing {r : Rule} {phases : List LifePhase}
    (hr : r.transition = .outerTotalistic phases) {t t' : Stepper} (ht : t.candidates.Valid)
    (ht' : t'.candidates.Valid) (s : Surface) (generation : Nat) {g : Grid}
    (hg : ∀ c, g.get c ≤ 1) (active : ActiveSet) :
    (t'.step r.ageing s generation g active).2 = (t.step r s generation g active).2 := by
  have hperiod : r.ageing.period = r.period := rfl
  have hreach : r.ageing.reach = r.reach := rfl
  exact Stepper.step_congr ht ht' hperiod hreach (nextAt_ageing hr s _ hg) active

/--
**The families of rules coincide where they overlap.**

Let a text with the rule space Extended Generations be read as a rule.  Then the text with
Regenerating Generations instead is read as a rule, too, and in every phase, whatever the states of
the neighbours and of the cell, the next state is the same.

Let a text have the rule space Outer Totalistic, two states and phases of the slash form `S/B`.
Then it is read as a rule if and only if the text with Extended Generations and the phases `S/B/1`
is, and a step of the one rule is a step of the other: from every pattern of the states 0 and 1,
with whichever cells active, in every generation and on every surface, the same pattern comes out
and the same cells have changed.

The steppers may have been used before, for whatever it was.
-/
theorem families_coincide {text text' : String} :
    (Layout.Recast .extendedGenerations .regeneratingGenerations id text text' →
      ∀ r, Rule.ofText text = .ok r → r.space = .extendedGenerations →
        ∃ r', Rule.ofText text' = .ok r' ∧ r'.space = .regeneratingGenerations ∧
          ∀ phase neighbours current,
            r'.next phase neighbours current = r.next phase neighbours current) ∧
      (Layout.Recast .outerTotalistic .extendedGenerations (· ++ "/1".toList) text text' →
        (∀ s, Sections.ofText text = .ok s → s.TwoStateLife) →
          ((∃ r, Rule.ofText text = .ok r) ↔ ∃ r', Rule.ofText text' = .ok r') ∧
            ∀ r r', Rule.ofText text = .ok r → Rule.ofText text' = .ok r' →
              ∀ t t' : Stepper, t.candidates.Valid → t'.candidates.Valid →
                ∀ surface generation g active, (∀ c, g.get c ≤ 1) →
                  (t'.step r' surface generation g active).2
                    = (t.step r surface generation g active).2) := by
  constructor
  · intro h r hr hspace
    obtain ⟨s, hs, hcompile⟩ := ok_of_bind hr
    have hs' := toOption_sections_of_recast h
    rw [hs] at hs'
    refine ⟨{ r with space := .regeneratingGenerations }, ?_, rfl, fun _ _ _ => rfl⟩
    unfold Rule.ofText
    rw [ok_of_toOption hs']
    exact compile_regenerating hcompile hspace
  · intro h hlife
    have htexts := toOption_ofText_ageing h hlife
    refine ⟨⟨fun ⟨r, hr⟩ => ⟨r.ageing, ?_⟩, fun ⟨r', hr'⟩ => ?_⟩, fun r r' hr hr' => ?_⟩
    · rw [hr] at htexts
      exact ok_of_toOption htexts
    · rw [hr'] at htexts
      obtain ⟨r, hr, -⟩ := Option.map_eq_some_iff.mp htexts.symm
      exact ⟨r, ok_of_toOption hr⟩
    · rw [hr, hr'] at htexts
      obtain rfl := Option.some.inj htexts
      obtain ⟨phases, hphases⟩ := transition_of_life hr hlife
      intro t t' ht ht' surface generation g active hg
      exact step_ageing hphases ht ht' surface generation hg active

/-- A rule of two phases in all three spaces. -/
theorem families_coincide_of_two_phases :
    let lines := "State Weights: 0,1\nNeighbourhood Range: 1\nNeighbourhood:\n1,1,1\n2,0,1\n1,1,1\n"
    let life := lines ++ "Rulespace: Outer Totalistic\nRulestring: 2,3/3 | 2/ 3,6"
    let ages := lines ++ "Rulespace: Generations\nRulestring: 2,3/3/1|2/ 3,6/1"
    let regenerating := lines ++ "Rulespace: Regenerating\nRulestring: 2,3/3/1|2/ 3,6/1"
    let g := Grid.ofList [(⟨0, 0⟩, 1), (⟨0, 1⟩, 1), (⟨1, 1⟩, 1)]
    ∃ r r' r'', Rule.ofText life = .ok r ∧ Rule.ofText ages = .ok r' ∧
      Rule.ofText regenerating = .ok r'' ∧
      Layout.Recast .outerTotalistic .extendedGenerations (· ++ "/1".toList) life ages ∧
      Layout.Recast .extendedGenerations .regeneratingGenerations id ages regenerating ∧
      (∀ s, Sections.ofText life = .ok s → s.TwoStateLife) ∧ (∀ c, g.get c ≤ 1) ∧
      (∀ phase neighbours current,
        r''.next phase neighbours current = r'.next phase neighbours current) ∧
      (Stepper.fresh.step r' .plane 1 g g.coords).2 = (Stepper.fresh.step r .plane 1 g g.coords).2 := by
  intro lines life ages regenerating g
  have hall : (Rule.ofText ages).toOption.any (fun r' => r'.space = .extendedGenerations) = true ∧
      ((Sections.ofText life).toOption.any fun s => s.space = some .outerTotalistic ∧
        (∀ stateWeights ∈ s.stateWeights, (stateWeights.headD []).length = 2) ∧
        ∀ rulestrings ∈ s.rulestrings, ∀ cs ∈ rulestrings, cs.count '/' = 1) = true := by
    decide +kernel
  have hages : Layout.Recast .outerTotalistic .extendedGenerations (· ++ "/1".toList) life ages := by
    decide +kernel
  have hregenerating :
      Layout.Recast .extendedGenerations .regeneratingGenerations id ages regenerating := by
    decide +kernel
  obtain ⟨hr', hs⟩ := hall
  obtain ⟨r', hr', hspace⟩ := exists_ok_of_any hr'
  obtain ⟨s, hs, hsections⟩ := exists_ok_of_any hs
  have hlife : ∀ s, Sections.ofText life = .ok s → s.TwoStateLife := by
    intro s' hs'
    obtain rfl := Except.ok.inj (hs.symm.trans hs')
    obtain ⟨hspace, hstates, hslash⟩ := of_decide_eq_true hsections
    exact ⟨hspace, hstates, hslash⟩
  have hlive : ∀ c ∈ g.coords, g.get c ≤ 1 := by decide +kernel
  have hg : ∀ c, g.get c ≤ 1 := by
    intro c
    by_cases hc : g.get c = 0
    · rw [hc]
      exact Nat.zero_le 1
    · exact hlive c (Grid.mem_coords.mpr hc)
  obtain ⟨haccepted, hsteps⟩ := families_coincide.2 hages hlife
  obtain ⟨r, hr⟩ := haccepted.mpr ⟨r', hr'⟩
  obtain ⟨r'', hr'', -, hnext⟩ :=
    families_coincide.1 hregenerating r' hr' (of_decide_eq_true hspace)
  exact ⟨r, r', r'', hr, hr', hr'', hages, hregenerating, hlife, hg, hnext,
    hsteps r r' hr hr' .fresh .fresh Stepper.valid_fresh Stepper.valid_fresh .plane 1 g g.coords hg⟩

end Rule

end Cellular
