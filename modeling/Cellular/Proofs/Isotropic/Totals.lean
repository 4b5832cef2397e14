/-
A rule of counts is a rule of raw totals.

Two rules may see the neighbours of a cell in different orders, one in the order of a family
and the other row by row.  If neither notices the order and both make the same of the same
neighbours (`SameInAnyOrder`), then they have the same reach, and a step of the one is a step
of the other.

Such are two rules whose texts differ in the conditions, when the one names a family, the
other asks for raw totals, the blocks weigh the cells of the family, and birth and survival
are lists of counts (`sameInAnyOrder_of_counts`).  Their phases have the same state weights
and the same rulestrings, and table by table their conditions hold of the same neighbours.
-/
import Cellular.Proofs.Isotropic.Counts
import Cellular.Proofs.Rule.Rulestring

namespace Cellular

/-! ### Rules that see their neighbours in another order -/

namespace Rule

variable {r r' : Rule}

/-- The second rule sees the neighbours of the first one in some order, and makes of them
what the first one makes of them in its own. -/
structure SameInAnyOrder (r r' : Rule) : Prop where
  period : r'.period = r.period
  offsets : ∀ phase, (r'.offsets phase).Perm (r.offsets phase)
  next : ∀ (phase : Nat) (ns ns' : List State) (current : State),
    ns.length = (r.offsets phase).length → ns'.Perm ns →
      r'.next phase ns' current = r.next phase ns current

/-- The reach holds the offsets of every phase and their opposites. -/
theorem mem_reach {o : Offset} :
    o ∈ r.reach ↔ o = .zero ∨ ∃ phase, ∃ p ∈ r.offsets phase, o = p ∨ o = -p := by
  rw [r.reach_eq, mem_reachOf]
  refine or_congr_right ?_
  constructor
  · rintro ⟨n, hn, p, hp, ho⟩
    obtain ⟨phase, hphase, rfl⟩ := List.getElem_of_mem hn
    refine ⟨phase, p, ?_, ho⟩
    unfold offsets neighbourhood cyclic
    rwa [Nat.mod_eq_of_lt hphase, List.getElem?_eq_getElem hphase]
  · rintro ⟨phase, p, hp, ho⟩
    exact ⟨_, r.neighbourhood_mem phase, p, hp, ho⟩

/-- The reach is listed in reading order, so its members decide it. -/
theorem reach_congr (h : ∀ o, o ∈ r'.reach ↔ o ∈ r.reach) : r'.reach = r.reach := by
  rw [r'.reach_eq, r.reach_eq] at h ⊢
  unfold reachOf at h ⊢
  simp only [Std.ExtTreeSet.mem_toList] at h ⊢
  rw [Std.ExtTreeSet.ext_mem h]

theorem SameInAnyOrder.reach (h : r.SameInAnyOrder r') : r'.reach = r.reach := by
  refine reach_congr fun o => ?_
  simp only [mem_reach, (h.offsets _).mem_iff]

/-- Every cell has the same next state. -/
theorem SameInAnyOrder.nextAt (h : r.SameInAnyOrder r') (s : Surface) (phase : Nat)
    (look : Coord → State) (c : Coord) :
    r'.nextAt s phase look c = r.nextAt s phase look c := by
  rw [nextAt_eq, nextAt_eq]
  exact h.next phase _ _ _ (List.length_map ..) ((h.offsets phase).map _)

end Rule

/-- **A step does not notice the order either.** -/
theorem Stepper.step_of_sameInAnyOrder {t t' : Stepper} {r r' : Rule} (h : r.SameInAnyOrder r')
    (ht : t.candidates.Valid) (ht' : t'.candidates.Valid) (s : Surface) (generation : Nat)
    (g : Grid) (active : ActiveSet) :
    (t'.step r' s generation g active).2 = (t.step r s generation g active).2 :=
  step_congr ht ht' h.period h.reach (h.nextAt s _ g.get) active

/-! ### Tables -/

variable {f : Family}

namespace Sections

/-- Phases whose neighbourhoods alone may differ. -/
def SamePhase (p p' : Phase) : Prop :=
  p'.stateWeights = p.stateWeights ∧ p'.rulestring = p.rulestring

private theorem forall₂_zip {P : List Char → Prop} (a : List Neighbourhood) :
    ∀ (b : List Neighbourhood) (x : List (List Int × List Char)), a.length = b.length →
      (∀ e ∈ x, P e.2) →
      List.Forall₂ (fun p p' => P p.rulestring ∧ SamePhase p p')
        ((a.zip x).map fun (n, w, r) =>
          ({ neighbourhood := n, stateWeights := w, rulestring := r } : Phase))
        ((b.zip x).map fun (n, w, r) =>
          ({ neighbourhood := n, stateWeights := w, rulestring := r } : Phase)) := by
  induction a with
  | nil =>
      intro b x hlen _
      rw [List.length_eq_zero_iff.mp hlen.symm]
      exact .nil
  | cons n rest ih =>
      intro b x hlen hx
      cases b with
      | nil => cases hlen
      | cons n' rest' =>
          cases x with
          | nil => exact .nil
          | cons e others =>
              exact .cons ⟨hx e List.mem_cons_self, rfl, rfl⟩
                (ih rest' others (Nat.succ.inj hlen) fun e' he => hx e' (List.mem_cons_of_mem e he))

/-- Phases of the same sections but for the blocks. -/
theorem forall₂_phases {P : List Char → Prop} {parsed parsed' : List Neighbourhood}
    (hne : parsed ≠ []) (hne' : parsed' ≠ []) (period : Nat) (stateWeights : List (List Int))
    {rulestrings : List (List Char)} (hall : ∀ cs ∈ rulestrings, P cs) :
    List.Forall₂ (fun p p' => P p.rulestring ∧ SamePhase p p')
      (phases period parsed stateWeights rulestrings)
      (phases period parsed' stateWeights rulestrings) := by
  refine forall₂_zip _ _ _ (by rw [length_cycled hne, length_cycled hne']) fun e he => ?_
  exact hall _ (mem_of_mem_cycled (List.of_mem_zip he).2)

end Sections

/-- The keys of the fields of a rulestring. -/
def Rulestring.keys (space : RuleSpace) : List String :=
  if space = .outerTotalistic then ["b", "s"] else ["b", "s", "d"]

/-- The rulestring gives birth and survival by lists of counts. -/
def Rulestring.GivesCounts (f : Family) (space : RuleSpace) (cs : List Char) : Prop :=
  ∀ fs, fields (keys space) (keys space).length swapFirst cs = .ok fs →
    CountList f (fs.getD 0 []) ∧ CountList f (fs.getD 1 [])

instance (f : Family) (space : RuleSpace) (cs : List Char) :
    Decidable (Rulestring.GivesCounts f space cs) :=
  match h : Rulestring.fields (Rulestring.keys space) (Rulestring.keys space).length
      Rulestring.swapFirst cs with
  | .error _ => isTrue fun _ hfs => nomatch h.symm.trans hfs
  | .ok fs => decidable_of_iff (CountList f (fs.getD 0 []) ∧ CountList f (fs.getD 1 []))
      ⟨fun hcounts _ hfs => Except.ok.inj (h.symm.trans hfs) ▸ hcounts, fun hcounts => hcounts fs h⟩

/-- The second table makes of the neighbours, in any order, what the first one makes of
them. -/
def SameTable (f : Family) (next next' : List State → State → State) : Prop :=
  ∀ (ns ns' : List State) (current : State), ns.length = f.cellCount → ns'.Perm ns →
    next' ns' current = next ns current

namespace Sections

variable {p p' : Phase}

theorem SamePhase.stateWeights (h : SamePhase p p') :
    p'.weights.stateWeights = p.weights.stateWeights := congrArg List.toArray h.1

theorem sameTable_life (hsame : SamePhase p p')
    (hcounts : Rulestring.GivesCounts f .outerTotalistic p.rulestring) {t t' : LifePhase}
    (ht : p.life (.isotropic f) = .ok t) (ht' : p'.life .raw = .ok t') :
    SameTable f t.next t'.next := by
  obtain ⟨hw, hread⟩ := Phase.of_life ht
  obtain ⟨hw', hread'⟩ := Phase.of_life ht'
  obtain ⟨fs, hfs, hbirth, hsurvival⟩ := Rulestring.of_outerTotalistic hread
  obtain ⟨fs', hfs', hbirth', hsurvival'⟩ := Rulestring.of_outerTotalistic hread'
  rw [hsame.2, hfs] at hfs'
  injection hfs' with hfs'
  subst hfs'
  have hweights : t'.weights.stateWeights = t.weights.stateWeights := by
    rw [hw, hw', hsame.stateWeights]
  obtain ⟨hb, hs⟩ := hcounts fs hfs
  intro ns ns' current hlen hperm
  unfold LifePhase.next
  simp only
  split
  · rw [holds_of_counts hs hsurvival hsurvival' hweights hlen hperm]
  · rw [holds_of_counts hb hbirth hbirth' hweights hlen hperm]

theorem sameTable_ageing (hsame : SamePhase p p') {nStates : Nat}
    (hcounts : Rulestring.GivesCounts f .extendedGenerations p.rulestring) {t t' : AgeingPhase}
    (ht : p.ages (.isotropic f) nStates false = .ok t)
    (ht' : p'.ages .raw nStates false = .ok t') :
    SameTable f (t.next nStates) (t'.next nStates) := by
  obtain ⟨hw, fs, hfs, hread⟩ := Rulestring.of_generations (ok_of_mapError ht)
  obtain ⟨hw', fs', hfs', hread'⟩ := Rulestring.of_generations (ok_of_mapError ht')
  rw [hsame.2, hfs] at hfs'
  injection hfs' with hfs'
  subst hfs'
  have hweights : t'.weights.stateWeights = t.weights.stateWeights := by
    rw [hw, hw', hsame.stateWeights]
  have hactive : t'.active = t.active := Except.ok.inj (hread'.active.symm.trans hread.active)
  obtain ⟨hnoBirth, hnoSurvival⟩ := hread.no_regeneration hfs
  obtain ⟨hnoBirth', hnoSurvival'⟩ := hread'.no_regeneration hfs
  obtain ⟨hb, hs⟩ := hcounts fs hfs
  intro ns ns' current hlen hperm
  unfold AgeingPhase.next
  rw [holds_of_counts hb hread.birth hread'.birth hweights hlen hperm,
    holds_of_counts hs hread.survival hread'.survival hweights hlen hperm, hactive, hnoBirth,
    hnoBirth', hnoSurvival, hnoSurvival']
  rfl

private theorem getD_cyclic_of_forall₂ {α β : Type} {next : α → List State → State → State}
    {next' : β → List State → State → State} {tables : List α} {tables' : List β}
    (h : List.Forall₂ (fun t t' => SameTable f (next t) (next' t')) tables tables') (phase : Nat)
    {ns ns' : List State} (current : State) (hlen : ns.length = f.cellCount)
    (hperm : ns'.Perm ns) :
    ((cyclic tables' phase).map fun t => next' t ns' current).getD current
      = ((cyclic tables phase).map fun t => next t ns current).getD current := by
  cases hc : cyclic tables phase with
  | some t =>
      obtain ⟨t', ht', hsame⟩ := cyclic_of_forall₂ h hc
      rw [ht']
      exact hsame ns ns' current hlen hperm
  | none =>
      cases hc' : cyclic tables' phase with
      | none => rfl
      | some t' =>
          obtain ⟨t, ht, -⟩ := cyclic_of_forall₂ h.flip hc'
          cases hc.symm.trans ht

/-- **The transitions make the same of the neighbours in any order.** -/
theorem sameTransition {space : RuleSpace}
    (hspace : space = .outerTotalistic ∨ space = .extendedGenerations) {nStates : Nat}
    {ps ps' : List Phase} {t t' : Transition}
    (hphases : List.Forall₂ (fun p p' => Rulestring.GivesCounts f space p.rulestring ∧
      SamePhase p p') ps ps')
    (ht : transition space (.isotropic f) nStates ps = .ok t)
    (ht' : transition space .raw nStates ps' = .ok t') (phase : Nat) :
    SameTable f (t.next phase) (t'.next phase) := by
  intro ns ns' current hlen hperm
  rcases hspace with rfl | rfl
  · rw [transition_outerTotalistic] at ht ht'
    obtain ⟨tables, htables, rfl⟩ := ok_of_map ht
    obtain ⟨tables', htables', rfl⟩ := ok_of_map ht'
    have hall : List.Forall₂ (fun (t t' : LifePhase) => SameTable f t.next t'.next) tables
        tables' := by
      refine forall₂_outcomes ?_ hphases (forall₂_of_mapM htables) (forall₂_of_mapM htables')
      intro p p' t t' hp hread hread'
      exact sameTable_life hp.2 hp.1 hread hread'
    exact getD_cyclic_of_forall₂ hall phase current hlen hperm
  · rw [transition_extendedGenerations] at ht ht'
    obtain ⟨tables, htables, rfl⟩ := ok_of_map ht
    obtain ⟨tables', htables', rfl⟩ := ok_of_map ht'
    have hall : List.Forall₂ (fun (t t' : AgeingPhase) =>
        SameTable f (t.next nStates) (t'.next nStates)) tables tables' := by
      refine forall₂_outcomes ?_ hphases (forall₂_of_mapM htables) (forall₂_of_mapM htables')
      intro p p' t t' hp hread hread'
      exact sameTable_ageing hp.2 hp.1 hread hread'
    exact getD_cyclic_of_forall₂ hall phase current hlen hperm

end Sections

/-! ### Rules -/

/-- The blocks weigh the cells of the family and no others, and birth and survival are given
by lists of counts. -/
structure Sections.CountsCells (s : Sections) (f : Family) (space : RuleSpace) : Prop where
  blocks : ∀ range ∈ s.range, ∀ rows ∈ s.blocks, ∀ o,
    Neighbourhood.weightAt range rows o ≠ 0 ↔ o ∈ f.offsets
  counts : ∀ rulestrings ∈ s.rulestrings, ∀ cs ∈ rulestrings, Rulestring.GivesCounts f space cs

/-- Rules of the same sections but for the conditions have the rest in common. -/
theorem Sections.Assembled.of_forget {r r' : Rule} {s s' : Sections}
    {parsed parsed' : List Neighbourhood} {stateWeights stateWeights' : List (List Int)}
    {rulestrings rulestrings' : List (List Char)}
    (h : s.Assembled r parsed stateWeights rulestrings)
    (h' : s'.Assembled r' parsed' stateWeights' rulestrings') (hsame : s.forget = s'.forget) :
    r'.space = r.space ∧ stateWeights' = stateWeights ∧ rulestrings' = rulestrings ∧
      r'.nStates = r.nStates := by
  have hspace : s.space = s'.space := (congrArg Sections.space hsame :)
  have hweights : s.stateWeights = s'.stateWeights := (congrArg Sections.stateWeights hsame :)
  have hrulestrings : s.rulestrings = s'.rulestrings := (congrArg Sections.rulestrings hsame :)
  obtain rfl : stateWeights' = stateWeights := Option.some.inj
    (h'.readsWeights.symm.trans (hweights.symm.trans h.readsWeights))
  refine ⟨?_, rfl, ?_, ?_⟩
  · exact Option.some.inj (h'.space.symm.trans (hspace.symm.trans h.space))
  · exact Option.some.inj
      (h'.readsRulestrings.symm.trans (hrulestrings.symm.trans h.readsRulestrings))
  · exact Except.ok.inj (h'.states.symm.trans h.states)

namespace Rule

variable {r r' : Rule}

/-- A rule that names a family reads its cells in the order of the family. -/
theorem offsets_of_family {s : Sections} {parsed : List Neighbourhood}
    {stateWeights : List (List Int)} {rulestrings : List (List Char)}
    (h : s.Assembled r parsed stateWeights rulestrings) (hf : r.conditions = .isotropic f) :
    parsed = [.ofOffsets f.offsets] ∧ ∀ phase, r.offsets phase = f.offsets := by
  have hfamily := h.readsBlocks
  rw [hf] at hfamily
  injection hfamily with hfamily
  subst hfamily
  refine ⟨rfl, fun phase => ?_⟩
  obtain ⟨n, hn, hphase⟩ := offsets_of_assembled h phase
  rw [hphase, List.mem_singleton.mp hn, offsets_ofOffsets]

/-- A rule of raw totals reads the cells that its blocks weigh, which are those of the family
in some order. -/
theorem perm_offsets_of_raw {s : Sections} {parsed : List Neighbourhood}
    {stateWeights : List (List Int)} {rulestrings : List (List Char)}
    (h : s.Assembled r parsed stateWeights rulestrings) (hraw : r.conditions = .raw)
    (hblocks : ∀ range ∈ s.range, ∀ rows ∈ s.blocks, ∀ o,
      Neighbourhood.weightAt range rows o ≠ 0 ↔ o ∈ f.offsets) :
    s.blocks ≠ [] ∧ parsed.length = s.blocks.length ∧
      ∀ phase, (r.offsets phase).Perm f.offsets := by
  have hread := h.readsBlocks
  rw [hraw] at hread
  obtain ⟨range, hrange, hne, hparsed⟩ := Sections.of_neighbourhoods hread (by simp)
  refine ⟨hne, hparsed.length_eq.symm, fun phase => ?_⟩
  obtain ⟨n, hn, hphase⟩ := offsets_of_assembled h phase
  obtain ⟨rows, hrows, -, hsquare, rfl⟩ := exists_of_mem_right hparsed n hn
  rw [hphase, List.perm_ext_iff_of_nodup (Neighbourhood.nodup_offsets_ofBlock _ _)
    f.nodup_offsets]
  intro o
  rw [Neighbourhood.mem_offsets_ofBlock hsquare]
  exact hblocks range hrange rows hrows o

/-- **Counts of cells of a family and raw totals make the same rule,** but for the order of
the neighbours. -/
theorem sameInAnyOrder_of_counts {text text' : String} {s : Sections}
    (hr : Rule.ofText text = .ok r) (hr' : Rule.ofText text' = .ok r')
    (htexts : Sections.SameButConditions text text') (hf : r.conditions = .isotropic f)
    (hraw : r'.conditions = .raw)
    (hspace : r.space = .outerTotalistic ∨ r.space = .extendedGenerations)
    (hs : Sections.ofText text = .ok s) (hcounts : s.CountsCells f r.space) :
    r.SameInAnyOrder r' := by
  obtain ⟨s₀, hs₀, hcompile⟩ := ok_of_bind hr
  obtain rfl := Except.ok.inj (hs.symm.trans hs₀)
  obtain ⟨s', hs', hcompile'⟩ := ok_of_bind hr'
  have hsame := Sections.ofText_forget htexts hs hs'
  obtain ⟨parsed, stateWeights, rulestrings, ha⟩ := Sections.assembled hcompile
  obtain ⟨parsed', stateWeights', rulestrings', ha'⟩ := Sections.assembled hcompile'
  obtain ⟨hspace', rfl, rfl, hstates⟩ := ha.of_forget ha' hsame
  have hrange : s'.range = s.range := (congrArg Sections.range hsame).symm
  have hblocks : s'.blocks = s.blocks := (congrArg Sections.blocks hsame).symm
  -- The one rule reads the cells of the family, the other its blocks.
  obtain ⟨rfl, hoffsets⟩ := offsets_of_family ha hf
  obtain ⟨hne, hlength, hoffsets'⟩ := perm_offsets_of_raw ha' hraw (by
    rw [hrange, hblocks]
    exact hcounts.blocks)
  have hpos := List.length_pos_of_ne_nil hne
  have hne' : parsed' ≠ [] := List.ne_nil_of_length_pos (hlength ▸ hpos)
  have hperiod : s'.period parsed' stateWeights' rulestrings'
      = s.period [.ofOffsets f.offsets] stateWeights' rulestrings' := by
    unfold Sections.period
    rw [hlength, hblocks, List.length_singleton]
    rw [hblocks] at hpos
    omega
  refine ⟨?_, ?_, ?_⟩
  · rw [period_of_assembled ha (by simp), period_of_assembled ha' hne', hperiod]
  · intro phase
    rw [hoffsets]
    exact hoffsets' phase
  · intro phase ns ns' current hlen hperm
    rw [hoffsets] at hlen
    have hphases := Sections.forall₂_phases (List.cons_ne_nil (.ofOffsets f.offsets) []) hne'
      (s.period [.ofOffsets f.offsets] stateWeights' rulestrings') stateWeights'
      (hcounts.counts rulestrings' ha.readsRulestrings)
    have ht := ha.transition
    have ht' := ha'.transition
    rw [hf] at ht
    rw [hraw, hspace', hstates, hperiod] at ht'
    exact Sections.sameTransition hspace hphases ht ht' phase ns ns' current hlen hperm

end Rule

/--
**A rule of counts is a rule of raw totals.**  Let two texts be read as rules and differ in
their conditions alone, where one names a family and the other asks for raw totals.  Let each
block weigh the cells of the family and no others, whatever the weights, and let birth and
survival be lists of counts.  Then a step of the one rule is a step of the other: from every
pattern, with whichever cells active, in every generation and on every surface, the same
pattern comes out and the same cells have changed.

The steppers may have been used before, for whatever it was.
-/
theorem Stepper.step_eq_of_counts {f : Family} {text text' : String} {r r' : Rule} {s : Sections}
    {t t' : Stepper} (hr : Rule.ofText text = .ok r) (hr' : Rule.ofText text' = .ok r')
    (htexts : Sections.SameButConditions text text') (hf : r.conditions = .isotropic f)
    (hraw : r'.conditions = .raw)
    (hspace : r.space = .outerTotalistic ∨ r.space = .extendedGenerations)
    (hs : Sections.ofText text = .ok s) (hcounts : s.CountsCells f r.space)
    (ht : t.candidates.Valid) (ht' : t'.candidates.Valid) (surface : Surface) (generation : Nat)
    (g : Grid) (active : ActiveSet) :
    (t'.step r' surface generation g active).2 = (t.step r surface generation g active).2 :=
  step_of_sameInAnyOrder (Rule.sameInAnyOrder_of_counts hr hr' htexts hf hraw hspace hs hcounts)
    ht ht' surface generation g active

theorem Stepper.step_eq_of_counts_of_ageing_cells :
    let lines := "Rulespace: Generations\nState Weights: 0,1,-2\nRulestring: b2s1,3d1-1\n" ++
      "Neighbourhood Range: 1\nNeighbourhood:\n4,1,1\n1,0,-1\n1,2,1\nB/S Conditions: "
    let text := lines ++ "Hensel"
    let text' := lines ++ "Raw"
    let g := Grid.ofList [(⟨0, 0⟩, 1), (⟨0, 1⟩, 2), (⟨1, 1⟩, 1)]
    ∃ r r' s, Rule.ofText text = .ok r ∧ Rule.ofText text' = .ok r' ∧
      Sections.SameButConditions text text' ∧ r.conditions = .isotropic .moore ∧
      r'.conditions = .raw ∧ r.space = .extendedGenerations ∧ Sections.ofText text = .ok s ∧
      s.CountsCells .moore r.space ∧ (fresh.step r' .plane 0 g g.coords).2
        = (fresh.step r .plane 0 g g.coords).2 := by
  intro lines text text' g
  have hall : ((Rule.ofText text).toOption.any fun r =>
        r.conditions = .isotropic .moore ∧ r.space = .extendedGenerations) = true ∧
      ((Rule.ofText text').toOption.any fun r' => r'.conditions = .raw) = true ∧
      ((Sections.ofText text).toOption.any fun s => s.range = some 1 ∧
        (∀ rows ∈ s.blocks, (∀ row ∈ rows, row.length = 2 * 1 + 1) ∧
          (Neighbourhood.ofBlock 1 rows.flatten).offsets.Perm Family.moore.offsets) ∧
        ∀ rulestrings ∈ s.rulestrings, ∀ cs ∈ rulestrings,
          Rulestring.GivesCounts .moore .extendedGenerations cs) = true ∧
      Sections.SameButConditions text text' := by
    decide +kernel
  obtain ⟨hr, hr', hs, htexts⟩ := hall
  obtain ⟨r, hr, hrule⟩ := exists_ok_of_any hr
  obtain ⟨r', hr', hrule'⟩ := exists_ok_of_any hr'
  obtain ⟨s, hs, hsections⟩ := exists_ok_of_any hs
  obtain ⟨hf, hspace⟩ := of_decide_eq_true hrule
  have hraw := of_decide_eq_true hrule'
  obtain ⟨hrange, hblocks, hcounts⟩ := of_decide_eq_true hsections
  have hcells : s.CountsCells .moore r.space := by
    refine ⟨fun range hsome rows hrows o => ?_, hspace ▸ hcounts⟩
    obtain rfl : 1 = range := Option.some.inj (hrange.symm.trans hsome)
    obtain ⟨hsquare, hperm⟩ := hblocks rows hrows
    rw [← Neighbourhood.mem_offsets_ofBlock hsquare]
    exact hperm.mem_iff
  exact ⟨r, r', s, hr, hr', htexts, hf, hraw, hspace, hs, hcells,
    step_eq_of_counts hr hr' htexts hf hraw (.inr hspace) hs hcells valid_fresh valid_fresh _ _ _ _⟩

end Cellular
