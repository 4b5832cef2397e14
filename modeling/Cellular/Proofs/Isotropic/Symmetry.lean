/-
Isotropic rules do not know where north is.

A motion of the plane permutes the neighbours of a cell, and no condition of an
isotropic rule notices: a set of configurations because it is closed, a total because
every neighbour has the weight one.  So the next state of a moved cell is the next state
of the cell (`nextAt_image`).  The cells that a step examines move along, since the
reach of the rule is closed under motions too, and with them the cells that change.
-/
import Mathlib.Algebra.BigOperators.Group.List.Basic
import Mathlib.Algebra.Ring.Int.Defs
import Cellular.Proofs.Isotropic.Specification
import Cellular.Proofs.Rule.Compile
import Cellular.Proofs.Rule.Rulestring
import Cellular.Proofs.Step

namespace Cellular

variable {f : Family} {ns : List State} {w : PhaseWeights}

/-! ### Permuted neighbours -/

/-- The neighbours in the order of a table. -/
def permuted (s : List Nat) (ns : List State) : List State := s.map fun i => ns.getD i 0

theorem permuted_perm {s : List Nat} (hs : s.Perm (List.range ns.length)) :
    (permuted s ns).Perm ns := by
  have hall : (List.range ns.length).map (fun i => ns.getD i 0) = ns := by
    refine List.ext_getElem (by simp) fun i hi hi' => ?_
    rw [List.getElem_map, List.getElem_range, List.getD_eq_getElem _ _ hi']
  have hmoved := hs.map fun i => ns.getD i 0
  rwa [hall] at hmoved

theorem configuration_permuted (w : PhaseWeights) {s : List Nat} (hs : ∀ i ∈ s, i < ns.length) :
    w.configuration (permuted s ns) = (w.configuration ns).permute s := by
  show Configuration.ofBits ((s.map _).map _) = Configuration.ofBits (s.map _)
  rw [List.map_map]
  congr 1
  refine List.map_congr_left fun i hi => ?_
  have hlen := hs i hi
  show w.counts (ns.getD i 0) = (Configuration.ofBits (ns.map w.counts)).testBit i
  rw [Configuration.testBit_ofBits, List.getD_eq_getElem _ _ hlen,
    List.getD_eq_getElem _ _ (by rw [List.length_map]; exact hlen), List.getElem_map]

/-- With equal weights the weighted sum is a sum over the neighbours. -/
theorem sumAt_ones (value : State → Int) (ns : List State) :
    sumAt value ns (List.replicate ns.length 1) = (ns.map value).sum := by
  induction ns with
  | nil => rfl
  | cons s rest ih =>
      show 1 * value s + sumAt value rest (List.replicate rest.length 1) = _
      rw [ih, Int.one_mul, List.map_cons, List.sum_cons]

theorem tally_perm {ms : List State} (hw : w.weights = List.replicate ns.length 1)
    (h : ms.Perm ns) (t : Tally) : t.of w ms = t.of w ns := by
  cases t with
  | weighted =>
      show sumAt w.stateWeight ms w.weights = sumAt w.stateWeight ns w.weights
      have hlen := h.length_eq
      rw [hw, sumAt_ones, ← hlen, sumAt_ones]
      exact (h.map w.stateWeight).sum_eq
  | raw => exact congrArg Int.ofNat (h.countP_eq w.counts)

/-! ### Conditions -/

/-- The condition does not notice how a motion permutes the neighbours. -/
def Condition.Isotropic (c : Condition) (f : Family) (w : PhaseWeights) : Prop :=
  ∀ (m : Motion) (ns : List State), ns.length = f.cellCount →
    c.holds w (permuted (m.source f) ns) = c.holds w ns

theorem isotropic_configurations {set : ConfigurationSet} (h : f.Closed (· ∈ set))
    (w : PhaseWeights) : (Condition.configurations set).Isotropic f w := by
  intro m ns hns
  have hconf : w.configuration (permuted (m.source f) ns)
      = (w.configuration ns).permute (m.source f) := by
    refine configuration_permuted w fun i hi => ?_
    rw [hns]
    exact Motion.lt_of_mem_source hi
  have hlt : w.configuration ns < 2 ^ f.cellCount := by
    have hbits := Configuration.ofBits_lt (ns.map w.counts)
    rwa [List.length_map, hns] at hbits
  show set.contains (w.configuration (permuted (m.source f) ns))
    = set.contains (w.configuration ns)
  rw [hconf, Bool.eq_iff_iff, Std.ExtTreeSet.contains_iff_mem, Std.ExtTreeSet.contains_iff_mem]
  exact h.permute_iff hlt m

theorem isotropic_totals {tally : Tally} {values : IntSet}
    (hw : w.weights = List.replicate f.cellCount 1) :
    (Condition.totals tally values).Isotropic f w := by
  intro m ns hns
  have hperm : (permuted (m.source f) ns).Perm ns := by
    refine permuted_perm ?_
    rw [hns]
    exact m.source_perm f
  show values.contains (tally.of w _) = values.contains (tally.of w ns)
  rw [tally_perm (by rw [hw, hns]) hperm]

namespace Rulestring

theorem isotropic_condition {cs : List Char} {c : Condition}
    (h : condition (.isotropic f) cs = .ok c) (w : PhaseWeights) : c.Isotropic f w := by
  obtain ⟨set, hset, rfl⟩ := ok_of_map h
  exact isotropic_configurations (Family.closed_transitions (ok_of_mapError hset)) w

theorem isotropic_regeneration {cs : List Char} {kind : ConditionKind} {o : Option Condition}
    (h : regeneration kind cs = .ok o) (hw : w.weights = List.replicate f.cellCount 1) :
    ∀ c ∈ o, c.Isotropic f w := by
  obtain ⟨values, -, ho⟩ := ok_of_bind h
  injection ho with ho
  subst ho
  intro c hc
  split at hc
  · simp at hc
  · obtain rfl := Option.some.inj hc
    exact isotropic_totals hw

end Rulestring

/-! ### Tables -/

theorem LifePhase.next_permuted {p : LifePhase} (hbirth : p.birth.Isotropic f p.weights)
    (hsurvival : p.survival.Isotropic f p.weights) (m : Motion) (hns : ns.length = f.cellCount)
    (current : State) : p.next (permuted (m.source f) ns) current = p.next ns current := by
  unfold next
  simp only
  split
  · rw [hsurvival m ns hns]
  · rw [hbirth m ns hns]

theorem regenerates_permuted {o : Option Condition} (h : ∀ c ∈ o, c.Isotropic f w) (m : Motion)
    (hns : ns.length = f.cellCount) :
    regenerates o w (permuted (m.source f) ns) = regenerates o w ns := by
  cases o with
  | none => rfl
  | some c => exact h c rfl m ns hns

theorem AgeingPhase.next_permuted {p : AgeingPhase} (hbirth : p.birth.Isotropic f p.weights)
    (hsurvival : p.survival.Isotropic f p.weights)
    (hregenBirth : ∀ c ∈ p.regenBirth, c.Isotropic f p.weights)
    (hregenSurvival : ∀ c ∈ p.regenSurvival, c.Isotropic f p.weights) (nStates : Nat) (m : Motion)
    (hns : ns.length = f.cellCount) (current : State) :
    p.next nStates (permuted (m.source f) ns) current = p.next nStates ns current := by
  unfold next
  rw [hbirth m ns hns, hsurvival m ns hns, regenerates_permuted hregenBirth m hns,
    regenerates_permuted hregenSurvival m hns]

/-! ### Rules -/

/-- The neighbours are the cells of a family, and the next state does not notice how a
motion permutes them. -/
structure Rule.Isotropic (r : Rule) (f : Family) : Prop where
  offsets : ∀ n ∈ r.neighbourhoods, n.offsets = f.offsets
  next : ∀ (m : Motion) (phase : Nat) (ns : List State) (current : State),
    ns.length = f.cellCount →
      r.next phase (permuted (m.source f) ns) current = r.next phase ns current

theorem offsets_ofOffsets (offsets : List Offset) :
    (Neighbourhood.ofOffsets offsets).offsets = offsets := by
  unfold Neighbourhood.ofOffsets Neighbourhood.offsets
  rw [List.map_map]
  exact List.map_id _

theorem weights_ofOffsets (offsets : List Offset) :
    (Neighbourhood.ofOffsets offsets).weights = List.replicate offsets.length 1 := by
  unfold Neighbourhood.ofOffsets Neighbourhood.weights
  rw [List.map_map]
  exact List.map_const' ..

private theorem getD_cyclic_eq {α : Type} {tables : List α} {F G : α → State}
    (hall : ∀ t ∈ tables, F t = G t) (phase : Nat) (current : State) :
    ((cyclic tables phase).map F).getD current = ((cyclic tables phase).map G).getD current := by
  cases hc : cyclic tables phase with
  | none => rfl
  | some t => exact hall t (mem_of_cyclic hc)

namespace Sections

theorem isotropic_ageing {nStates : Nat} {regenerating : Bool} {phases : List Phase}
    {tables : List AgeingPhase}
    (hw : ∀ p ∈ phases, p.weights.weights = List.replicate f.cellCount 1)
    (h : phases.mapM (Phase.ages (.isotropic f) nStates regenerating) = .ok tables)
    (m : Motion) (phase : Nat) (hns : ns.length = f.cellCount) (current : State) :
    (Transition.generations nStates tables).next phase (permuted (m.source f) ns) current
      = (Transition.generations nStates tables).next phase ns current := by
  refine getD_cyclic_eq (fun t ht => ?_) phase current
  obtain ⟨p, hp, htable⟩ := (ok_of_mapM h).2 t ht
  obtain ⟨hweights, fs, -, hread⟩ := Rulestring.of_generations (ok_of_mapError htable)
  have hones : t.weights.weights = List.replicate f.cellCount 1 := by rw [hweights, hw p hp]
  exact AgeingPhase.next_permuted (Rulestring.isotropic_condition hread.birth _)
    (Rulestring.isotropic_condition hread.survival _)
    (Rulestring.isotropic_regeneration hread.regenBirth hones)
    (Rulestring.isotropic_regeneration hread.regenSurvival hones) nStates m hns current

theorem isotropic_life {phases : List Phase} {tables : List LifePhase}
    (h : phases.mapM (Phase.life (.isotropic f)) = .ok tables)
    (m : Motion) (phase : Nat) (hns : ns.length = f.cellCount) (current : State) :
    (Transition.outerTotalistic tables).next phase (permuted (m.source f) ns) current
      = (Transition.outerTotalistic tables).next phase ns current := by
  refine getD_cyclic_eq (fun t ht => ?_) phase current
  obtain ⟨p, -, htable⟩ := (ok_of_mapM h).2 t ht
  obtain ⟨fs, -, hbirth, hsurvival⟩ := Rulestring.of_outerTotalistic (Phase.of_life htable).2
  exact LifePhase.next_permuted (Rulestring.isotropic_condition hbirth _)
    (Rulestring.isotropic_condition hsurvival _) m hns current

end Sections

/-- **A rule that was read with isotropic conditions is isotropic.** -/
theorem Rule.isotropic_of_ofText {text : String} {r : Rule} (hr : Rule.ofText text = .ok r)
    (hf : r.conditions = .isotropic f) : r.Isotropic f := by
  obtain ⟨s, -, hcompiled⟩ := Rule.of_ofText hr
  obtain ⟨parsed, phases, hparsed, hneighbourhoods, hphases, htransition⟩ := hcompiled.sources
  rw [hf] at hparsed htransition
  injection hparsed with hparsed
  subst hparsed
  have hweights : ∀ p ∈ phases, p.weights.weights = List.replicate f.cellCount 1 := by
    intro p hp
    show p.neighbourhood.weights = _
    rw [List.mem_singleton.mp (hphases p hp), weights_ofOffsets]
    rfl
  refine ⟨fun n hn => ?_, fun m phase ns current hns => ?_⟩
  · rw [List.mem_singleton.mp (hneighbourhoods n hn), offsets_ofOffsets]
  · show r.transition.next phase _ current = r.transition.next phase ns current
    generalize r.transition = t at htransition
    cases hspace : r.space with
    | outerTotalistic =>
        rw [hspace] at htransition
        obtain ⟨tables, htables, rfl⟩ := ok_of_map htransition
        exact Sections.isotropic_life htables m phase hns current
    | extendedGenerations =>
        rw [hspace] at htransition
        obtain ⟨tables, htables, rfl⟩ := ok_of_map htransition
        exact Sections.isotropic_ageing hweights htables m phase hns current
    | regeneratingGenerations =>
        rw [hspace] at htransition
        obtain ⟨tables, htables, rfl⟩ := ok_of_map htransition
        exact Sections.isotropic_ageing hweights htables m phase hns current
    | bsfkl =>
        -- A BSFKL rule has weighted conditions only.
        exfalso
        have hkind := hcompiled.kind
        rw [hspace, hf] at hkind
        unfold Sections.conditionKind at hkind
        split at hkind
        · simp at hkind
        · rename_i kind _
          split at hkind
          · simp at hkind
          · rename_i hallowed
            injection hkind with hkind
            subst hkind
            exact hallowed ⟨rfl, nofun⟩
    | custom =>
        rw [hspace] at htransition
        cases htransition

end Cellular
