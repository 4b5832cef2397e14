/-
What a rulestring says.

A rulestring that is read has one field for each key, in either form, and every part of the
table that it makes is read from a field of its own.
-/
import Mathlib.Data.List.GetD
import Cellular.Rule.Compile
import Cellular.Proofs.Chain

namespace Cellular

namespace Rulestring

/-! ### Fields -/

theorem length_swapFirst {α : Type} (l : List α) : (swapFirst l).length = l.length := by
  unfold swapFirst
  split <;> rfl

theorem length_letterFields (keys : List String) :
    ∀ {required : Nat} {rest : List Char} {fs : List (List Char)},
      letterFields required keys rest = .ok fs → fs.length = keys.length := by
  induction keys with
  | nil =>
      intro required rest fs h
      injection h with h
      subst h
      rfl
  | cons key keys ih =>
      intro required rest fs h
      unfold letterFields at h
      split at h
      · injection h with h
        subst h
        rw [List.length_map]
      · split at h
        · simp at h
        · obtain ⟨more, hmore, h⟩ := ok_of_bind h
          injection h with h
          subst h
          rw [List.length_cons, ih hmore, List.length_cons]

/-- **A rulestring has a field for every key.** -/
theorem length_fields {keys : List String} {required : Nat} {cs : List Char}
    {fs : List (List Char)} (h : fields keys required swapFirst cs = .ok fs) :
    fs.length = keys.length := by
  unfold fields at h
  split at h
  · obtain ⟨parts, hparts, rfl⟩ := ok_of_map h
    rw [length_swapFirst]
    unfold slashFields at hparts
    simp only at hparts
    split at hparts
    · simp at hparts
    · injection hparts with hparts
      subst hparts
      rw [List.length_append, List.length_replicate]
      omega
  · exact length_letterFields keys h

/-! ### Tables -/

variable {kind : ConditionKind} {cs : List Char}

theorem of_outerTotalistic {birth survival : Condition}
    (h : outerTotalistic kind cs = .ok (birth, survival)) :
    ∃ fs, fields ["b", "s"] 2 swapFirst cs = .ok fs ∧
      condition kind (fs.getD 0 []) = .ok birth ∧ condition kind (fs.getD 1 []) = .ok survival := by
  obtain ⟨fs, hfs, h⟩ := ok_of_bind h
  obtain ⟨b, hbirth, h⟩ := ok_of_bind h
  obtain ⟨s, hsurvival, h⟩ := ok_of_bind h
  injection h with h
  injection h with hb hs
  subst hb hs
  exact ⟨fs, hfs, hbirth, hsurvival⟩

/-- The keys of a Generations rule. -/
def generationKeys (regenerating : Bool) : List String :=
  if regenerating then ["b", "s", "d", "rb", "rs"] else ["b", "s", "d"]

/-- Each part of the table is read from a field. -/
structure ReadsAgeing (kind : ConditionKind) (nStates : Nat) (fs : List (List Char))
    (t : AgeingPhase) : Prop where
  birth : condition kind (fs.getD 0 []) = .ok t.birth
  survival : condition kind (fs.getD 1 []) = .ok t.survival
  active : activity nStates (fs.getD 2 []) = .ok t.active
  regenBirth : regeneration kind (fs.getD 3 []) = .ok t.regenBirth
  regenSurvival : regeneration kind (fs.getD 4 []) = .ok t.regenSurvival

/-- The table that the fields of a Generations rule describe. -/
def ageingTable (kind : ConditionKind) (nStates : Nat) (w : PhaseWeights)
    (fs : List (List Char)) : Except RulestringError AgeingPhase := do
  let regenBirth ← regeneration kind (fs.getD 3 [])
  let regenSurvival ← regeneration kind (fs.getD 4 [])
  let birth ← condition kind (fs.getD 0 [])
  let survival ← condition kind (fs.getD 1 [])
  let active ← activity nStates (fs.getD 2 [])
  return { weights := w, birth, survival, active, regenBirth, regenSurvival }

theorem generations_eq {nStates : Nat} {regenerating : Bool} {w : PhaseWeights} :
    generations kind nStates regenerating w cs
      = fields (generationKeys regenerating) 3 swapFirst cs >>= ageingTable kind nStates w := rfl

theorem ageingTable_eq_ok {nStates : Nat} {w : PhaseWeights} {fs : List (List Char)}
    {t : AgeingPhase} :
    ageingTable kind nStates w fs = .ok t ↔ t.weights = w ∧ ReadsAgeing kind nStates fs t := by
  constructor
  · intro h
    obtain ⟨regenBirth, hregenBirth, h⟩ := ok_of_bind h
    obtain ⟨regenSurvival, hregenSurvival, h⟩ := ok_of_bind h
    obtain ⟨birth, hbirth, h⟩ := ok_of_bind h
    obtain ⟨survival, hsurvival, h⟩ := ok_of_bind h
    obtain ⟨active, hactive, h⟩ := ok_of_bind h
    injection h with h
    subst h
    exact ⟨rfl, hbirth, hsurvival, hactive, hregenBirth, hregenSurvival⟩
  · rintro ⟨rfl, h⟩
    unfold ageingTable
    rw [h.regenBirth, h.regenSurvival, h.birth, h.survival, h.active]
    rfl

theorem of_generations {nStates : Nat} {regenerating : Bool} {w : PhaseWeights} {t : AgeingPhase}
    (h : generations kind nStates regenerating w cs = .ok t) :
    t.weights = w ∧ ∃ fs, fields (generationKeys regenerating) 3 swapFirst cs = .ok fs ∧
      ReadsAgeing kind nStates fs t := by
  obtain ⟨fs, hfs, htable⟩ := ok_of_bind (generations_eq ▸ h)
  obtain ⟨hw, hreads⟩ := ageingTable_eq_ok.mp htable
  exact ⟨hw, fs, hfs, hreads⟩

/-- An empty field describes no regeneration. -/
theorem regeneration_nil (kind : ConditionKind) : regeneration kind [] = .ok none := rfl

/-- Where only a regenerating rule has fields, no other rule regenerates. -/
theorem ReadsAgeing.no_regeneration {nStates : Nat} {fs : List (List Char)} {t : AgeingPhase}
    (h : ReadsAgeing kind nStates fs t)
    (hfs : fields (generationKeys false) 3 swapFirst cs = .ok fs) :
    t.regenBirth = none ∧ t.regenSurvival = none := by
  have hlen : fs.length = 3 := length_fields hfs
  have hbirth := h.regenBirth
  have hsurvival := h.regenSurvival
  rw [List.getD_eq_default _ _ (by omega), regeneration_nil] at hbirth hsurvival
  exact ⟨(Except.ok.inj hbirth).symm, (Except.ok.inj hsurvival).symm⟩

end Rulestring

namespace Sections

variable {kind : ConditionKind} {nStates : Nat}

/-- The table of one phase of an outer totalistic rule. -/
def Phase.life (kind : ConditionKind) (p : Phase) : Except RuleError LifePhase := do
  let (birth, survival) ← p.read (Rulestring.outerTotalistic kind)
  return { weights := p.weights, birth, survival }

/-- The table of one phase of a Generations rule. -/
def Phase.ages (kind : ConditionKind) (nStates : Nat) (regenerating : Bool) (p : Phase) :
    Except RuleError AgeingPhase :=
  p.read (Rulestring.generations kind nStates regenerating p.weights)

theorem Phase.of_life {p : Phase} {t : LifePhase} (h : p.life kind = .ok t) :
    t.weights = p.weights ∧
      Rulestring.outerTotalistic kind p.rulestring = .ok (t.birth, t.survival) := by
  obtain ⟨⟨birth, survival⟩, hread, h⟩ := ok_of_bind h
  injection h with h
  subst h
  exact ⟨rfl, ok_of_mapError hread⟩

theorem transition_outerTotalistic (ps : List Phase) :
    transition .outerTotalistic kind nStates ps
      = Transition.outerTotalistic <$> ps.mapM (Phase.life kind) := rfl

theorem transition_extendedGenerations (ps : List Phase) :
    transition .extendedGenerations kind nStates ps
      = Transition.generations nStates <$> ps.mapM (Phase.ages kind nStates false) := rfl

theorem transition_regeneratingGenerations (ps : List Phase) :
    transition .regeneratingGenerations kind nStates ps
      = Transition.generations nStates <$> ps.mapM (Phase.ages kind nStates true) := rfl

end Sections

end Cellular
