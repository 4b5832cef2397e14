/-
The two forms of a Generations rulestring.

Neither run lengths nor lists of integers hold letters, and of the keys of a Generations rule only
`d` is a letter of a family: the von Neumann family has it for one of the outer cells.  The letter
form ends the survival field there, and what is left of the field is then read as run lengths and
refused.  Apart from that the two forms say the same, with and without regeneration.
-/
import Cellular.Proofs.Rule.Forms

namespace Cellular

namespace Rulestring

variable {kind : ConditionKind} {nStates : Nat} {w : PhaseWeights} {cs : List Char}
  {fs gs : List (List Char)} {t : AgeingPhase}

/-! ### What a field may hold -/

/-- Run lengths hold no letters. -/
theorem not_mem_of_activity {active : List Bool} (h : activity nStates cs = .ok active) {c : Char}
    (hc : c.isLower = true) : c ∉ cs := by
  intro hmem
  obtain ⟨-, hblank, hdigit, hdash⟩ := Text.of_isLower hc
  obtain ⟨piece, hpiece, hin⟩ := Text.exists_trimmed_piece hdash hblank hmem
  obtain ⟨runs, hruns, -⟩ := ok_of_bind h
  obtain ⟨n, -, hn⟩ := (ok_of_mapM hruns).1 piece hpiece
  unfold runLength at hn
  split at hn
  · rename_i hunsigned
    rcases Text.chars_of_unsigned? hunsigned c hin with rfl | hd
    · exact absurd hc (by decide)
    · rw [hdigit] at hd
      exact Bool.noConfusion hd
  · simp at hn

/-- Regeneration conditions hold no letters, whatever the others are written in. -/
theorem not_mem_of_regeneration {cond : Option Condition} (h : regeneration kind cs = .ok cond)
    {c : Char} (hc : c.isLower = true) : c ∉ cs := by
  obtain ⟨values, hvalues, -⟩ := ok_of_bind h
  exact not_mem_of_intSet hvalues hc

/-- Is the survival field one of the von Neumann family that holds the letter `d`?  The letter form
ends it there. -/
def Torn (kind : ConditionKind) (survival : List Char) : Prop :=
  kind = .isotropic .vonNeumann ∧ 'd' ∈ survival

instance (kind : ConditionKind) (survival : List Char) : Decidable (Torn kind survival) :=
  inferInstanceAs (Decidable (_ ∧ _))

/-- No other family has a letter `d`. -/
theorem d_not_mem_of_condition {cond : Condition} (h : condition kind cs = .ok cond)
    (htorn : ¬Torn kind cs) : 'd' ∉ cs := by
  by_cases hkind : kind = .isotropic .vonNeumann
  · exact fun hmem => htorn ⟨hkind, hmem⟩
  · refine not_mem_of_condition h (by decide) fun family hfamily => ?_
    cases family with
    | vonNeumann => exact absurd hfamily hkind
    | _ => decide

/-! ### Fields and keys -/

/-- The fields of a table are separated if the survival field holds no key. -/
theorem ReadsAgeing.separated {regenerating : Bool} (h : ReadsAgeing kind nStates fs t)
    (hlen : fs.length = (generationKeys regenerating).length) (hd : 'd' ∉ fs.getD 1 []) :
    Separated (generationKeys regenerating) fs := by
  have hbirth : 's' ∉ fs.getD 0 [] := key_not_mem_of_condition h.birth (Or.inr rfl)
  have hsurvival : 's' ∉ fs.getD 1 [] := key_not_mem_of_condition h.survival (Or.inr rfl)
  have hactive : ∀ c : Char, c.isLower = true → c ∉ fs.getD 2 [] :=
    fun c hc => not_mem_of_activity h.active hc
  have hregenBirth : ∀ c : Char, c.isLower = true → c ∉ fs.getD 3 [] :=
    fun c hc => not_mem_of_regeneration h.regenBirth hc
  have hregenSurvival : ∀ c : Char, c.isLower = true → c ∉ fs.getD 4 [] :=
    fun c hc => not_mem_of_regeneration h.regenSurvival hc
  cases regenerating with
  | false =>
      obtain ⟨birth, survival, active, rfl⟩ := List.length_eq_three.mp hlen
      refine ⟨keyFree_singleton (k := 's') rfl ?_, keyFree_singleton (k := 'd') rfl ?_,
        fun _ hkey => absurd hkey List.not_mem_nil, trivial⟩
      · simpa using ⟨hbirth, hsurvival, hactive 's' (by decide)⟩
      · simpa using ⟨hd, hactive 'd' (by decide)⟩
  | true =>
      obtain ⟨birth, survival, active, regenBirth, regenSurvival, rfl⟩ :
          ∃ b s a rb rs, fs = [b, s, a, rb, rs] := by
        match fs, hlen with
        | [b, s, a, rb, rs], _ => exact ⟨b, s, a, rb, rs, rfl⟩
      refine ⟨keyFree_singleton (k := 's') rfl ?_, keyFree_singleton (k := 'd') rfl ?_,
        keyFree_singleton (k := 'r') rfl ?_, keyFree_singleton (k := 'r') rfl ?_,
        fun _ hkey => absurd hkey List.not_mem_nil, trivial⟩
      · simpa using ⟨hbirth, hsurvival, hactive 's' (by decide), hregenBirth 's' (by decide),
          hregenSurvival 's' (by decide)⟩
      · simpa using ⟨hd, hactive 'd' (by decide), hregenBirth 'd' (by decide),
          hregenSurvival 'd' (by decide)⟩
      · simpa using ⟨hactive 'r' (by decide), hregenBirth 'r' (by decide),
          hregenSurvival 'r' (by decide)⟩
      · simpa using ⟨hregenBirth 'r' (by decide), hregenSurvival 'r' (by decide)⟩

/-- The survival field of the letter form holds no key. -/
theorem d_not_mem_of_letterFields {keys : List String} {required : Nat}
    (hrequired : 2 < required) (h : letterFields required ("b" :: "s" :: "d" :: keys) cs = .ok fs) :
    'd' ∉ fs.getD 1 [] := by
  obtain ⟨body, more, -, rfl, hmore⟩ := of_letterFields (by omega) h
  obtain ⟨body', more', -, rfl, hmore'⟩ := of_letterFields (by omega) hmore
  obtain ⟨body'', more'', hrest, -⟩ := of_letterFields (by omega) hmore'
  exact not_mem_cutAtKey rfl (by rw [hrest]; exact List.cons_ne_nil 'd' body'')

/-! ### The two forms -/

/-- **Reading the letter form.** -/
theorem generations_letters {regenerating : Bool}
    (hlen : gs.length = (generationKeys regenerating).length) (hgs : ∀ g ∈ gs, Unmarked g) :
    (generations kind nStates regenerating w (joined (generationKeys regenerating) gs)).toOption
      = if Torn kind (gs.getD 1 []) then none else (ageingTable kind nStates w gs).toOption := by
  have hkeys : ∀ key ∈ generationKeys regenerating, key.toList ≠ [] ∧ Unmarked key.toList := by
    cases regenerating <;> decide
  have hne : generationKeys regenerating ≠ [] := by cases regenerating <;> decide
  have hread : ∀ fs t, letterFields (generationKeys regenerating).length
      (generationKeys regenerating) (joined (generationKeys regenerating) gs) = .ok fs →
        ageingTable kind nStates w fs = .ok t →
          'd' ∉ fs.getD 1 [] ∧ Separated (generationKeys regenerating) fs := by
    intro fs t hfs ht
    have hd : 'd' ∉ fs.getD 1 [] := by
      cases regenerating with
      | false => exact d_not_mem_of_letterFields (Nat.lt_succ_self 2) hfs
      | true => exact d_not_mem_of_letterFields (by decide) hfs
    exact ⟨hd, (ageingTable_eq_ok.mp ht).2.separated (length_letterFields _ hfs) hd⟩
  rw [generations_eq]
  split
  · rename_i htorn
    rw [fields_letters hlen hkeys hgs]
    refine Option.eq_none_iff_forall_ne_some.mpr fun t ht => ?_
    obtain ⟨fs, hfs, htable⟩ := ok_of_bind (ok_of_toOption ht)
    obtain ⟨hd, hsep⟩ := hread fs t hfs htable
    rw [← eq_of_letterFields hlen hne hfs hsep] at hd
    exact hd htorn.2
  · rename_i htorn
    refine toOption_letters hne hlen hkeys hgs (fun fs t hfs ht => (hread fs t hfs ht).2)
      fun t ht => ?_
    have hreads := (ageingTable_eq_ok.mp ht).2
    exact hreads.separated hlen (d_not_mem_of_condition hreads.survival htorn)

/-- Blanks around run lengths say nothing. -/
theorem activity_trim (nStates : Nat) (cs : List Char) :
    activity nStates (Text.trim cs) = activity nStates cs := by
  unfold activity
  rw [Text.map_trim_pieces_trim (by decide)]

theorem ageingTable_trim :
    ageingTable kind nStates w (gs.map Text.trim) = ageingTable kind nStates w gs := by
  have hfield : ∀ i, (gs.map Text.trim).getD i [] = Text.trim (gs.getD i []) :=
    fun i => List.getD_map gs [] Text.trim
  unfold ageingTable
  simp only [hfield, regeneration, intSet_trim, condition_trim, activity_trim]

/-- **Reading the slash form**, which has survival before birth. -/
theorem generations_slashes {regenerating : Bool}
    (hlen : gs.length = (generationKeys regenerating).length) (hgs : ∀ g ∈ gs, '/' ∉ g) :
    generations kind nStates regenerating w (['/'].intercalate (swapFirst gs))
      = ageingTable kind nStates w gs := by
  have hswap : swapFirst ((swapFirst gs).map Text.trim) = gs.map Text.trim := by
    match gs with
    | [] => rfl
    | [_] => rfl
    | _ :: _ :: _ => rfl
  have hmem : ∀ g ∈ swapFirst gs, g ∈ gs := by
    match gs with
    | [] => exact fun _ h => h
    | [_] => exact fun _ h => h
    | _ :: _ :: _ => exact fun _ h => (List.Perm.swap _ _ _).mem_iff.mp h
  have hthree : 3 ≤ (generationKeys regenerating).length := by cases regenerating <;> decide
  rw [generations_eq, fields_slashes ((length_swapFirst gs).trans hlen) (by omega) hthree
    fun g hg => hgs g (hmem g hg), hswap]
  exact ageingTable_trim

/--
**The letter form and the slash form of a Generations rulestring agree**, but for the letter `d`
of the von Neumann family: of any fields without slashes and capital letters, either both forms
are accepted, with the same birth, survival, active states and regeneration, or both are refused.
A survival field with a `d` is refused in the letter form and, in that family alone, may be
accepted in the slash form.
-/
theorem ageing_forms_agree {birth survival active regenBirth regenSurvival : List Char}
    (h : ∀ field ∈ [birth, survival, active, regenBirth, regenSurvival], Unmarked field)
    (kind : ConditionKind) (nStates : Nat) (weights : PhaseWeights) :
    (generations kind nStates false weights
          ('b' :: birth ++ 's' :: survival ++ 'd' :: active)).toOption
        = (if Torn kind survival then none
          else (generations kind nStates false weights
            (survival ++ '/' :: birth ++ '/' :: active)).toOption) ∧
      (generations kind nStates true weights
          ('b' :: birth ++ 's' :: survival ++ 'd' :: active ++ 'r' :: 'b' :: regenBirth
            ++ 'r' :: 's' :: regenSurvival)).toOption
        = if Torn kind survival then none
          else (generations kind nStates true weights
            (survival ++ '/' :: birth ++ '/' :: active ++ '/' :: regenBirth
              ++ '/' :: regenSurvival)).toOption := by
  constructor
  · have hgs : ∀ g ∈ [birth, survival, active], Unmarked g :=
      fun g hg => h g (by simp at hg ⊢; tauto)
    have hletters : 'b' :: birth ++ 's' :: survival ++ 'd' :: active
        = joined (generationKeys false) [birth, survival, active] := by
      simp [joined, generationKeys]
    have hslashes : survival ++ '/' :: birth ++ '/' :: active
        = ['/'].intercalate (swapFirst [birth, survival, active]) := by
      simp [List.intercalate, swapFirst]
    rw [hletters, hslashes, generations_letters rfl hgs,
      generations_slashes rfl fun g hg => (hgs g hg).no_slash]
    rfl
  · have hletters : 'b' :: birth ++ 's' :: survival ++ 'd' :: active ++ 'r' :: 'b' :: regenBirth
        ++ 'r' :: 's' :: regenSurvival
          = joined (generationKeys true) [birth, survival, active, regenBirth, regenSurvival] := by
      simp [joined, generationKeys]
    have hslashes : survival ++ '/' :: birth ++ '/' :: active ++ '/' :: regenBirth
        ++ '/' :: regenSurvival
          = ['/'].intercalate
            (swapFirst [birth, survival, active, regenBirth, regenSurvival]) := by
      simp [List.intercalate, swapFirst]
    rw [hletters, hslashes, generations_letters rfl h,
      generations_slashes rfl fun g hg => (h g hg).no_slash]
    rfl

/-- Letters of the Moore family, one of which begins a key, with the runs and the regeneration of
three states. -/
theorem ageing_forms_agree_of_letters :
    let kind := ConditionKind.isotropic .moore
    let weights : PhaseWeights := ⟨[], #[0, 1, 0]⟩
    (∀ field ∈ ["3".toList, " 23-r, 4k".toList, "1-1 ".toList, "1, 2".toList, []],
        Unmarked field) ∧
      (generations kind 3 true weights "b3s 23-r, 4kd1-1 rb1, 2rs".toList).toOption.isSome = true ∧
      (generations kind 3 true weights "b3s 23-r, 4kd1-1 rb1, 2rs".toList).toOption
        = (generations kind 3 true weights " 23-r, 4k/3/1-1 /1, 2/".toList).toOption := by
  intro kind weights
  have h : ∀ field ∈ ["3".toList, " 23-r, 4k".toList, "1-1 ".toList, "1, 2".toList, []],
      Unmarked field := by decide
  exact ⟨h, by decide +kernel, (ageing_forms_agree h kind 3 weights).2⟩

/-- The outer cell that `d` stands for can be asked for in the slash form only. -/
theorem torn_survival :
    let kind := ConditionKind.isotropic .vonNeumann
    let weights : PhaseWeights := ⟨[], #[0, 1]⟩
    (∀ field ∈ [[], "1xd".toList, "1".toList], Unmarked field) ∧
      (generations kind 2 false weights "bs1xdd1".toList).toOption.isSome = false ∧
      (generations kind 2 false weights "1xd//1".toList).toOption.isSome = true := by
  decide +kernel

end Rulestring

end Cellular
