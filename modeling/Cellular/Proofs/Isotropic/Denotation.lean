/-
What a specification is read as is what it says.

A text is read exactly if it spells clauses of the family, and it is read as the set of the
configurations that one of these clauses denotes.  The two grammars are treated in `Groups` and
`Pairs`; here they are put together.
-/
import Cellular.Proofs.Isotropic.Groups
import Cellular.Proofs.Isotropic.Pairs

namespace Cellular

namespace Family

/--
**A specification is read as what it says.**  In every family a text is read exactly if it spells
clauses of the family, and then a configuration is in the set that it is read as exactly if one of
the clauses denotes it.

So neither the order of the clauses nor that of the names in a clause makes a difference, and
repetitions make none: texts whose clauses are the same are read as the same set.
-/
theorem transitions_denote (f : Family) (cs : List Char) :
    ((∃ set, f.transitions cs = .ok set) ↔ ∃ ks, f.Spells cs ks) ∧
    (∀ ks set, f.Spells cs ks → f.transitions cs = .ok set →
      ∀ c, c ∈ set ↔ ∃ k ∈ ks, k.Denotes f c) ∧
    ∀ cs' ks ks', f.Spells cs ks → f.Spells cs' ks' → Clause.SameAll ks ks' →
      f.transitions cs' = f.transitions cs := by
  have hread : ∀ {cs ks}, f.Spells cs ks →
      ∃ set, f.transitions cs = .ok set ∧ ∀ c, c ∈ set ↔ ∃ k ∈ ks, k.Denotes f c := by
    intro cs ks h
    by_cases hf : f = .vonNeumann
    · subst hf
      exact Pairs.read_spelled h
    · rw [Ring.transitions_eq hf]
      exact Ring.read_spelled hf h
  refine ⟨⟨?_, ?_⟩, ?_, ?_⟩
  · rintro ⟨set, hset⟩
    by_cases hf : f = .vonNeumann
    · subst hf
      exact Pairs.exists_spells hset
    · rw [Ring.transitions_eq hf] at hset
      exact Ring.exists_spells hf hset
  · rintro ⟨ks, hks⟩
    obtain ⟨set, hset, -⟩ := hread hks
    exact ⟨set, hset⟩
  · intro ks set hks hset
    obtain ⟨set', hset', hmem⟩ := hread hks
    obtain rfl := Except.ok.inj (hset'.symm.trans hset)
    exact hmem
  · intro cs' ks ks' hks hks' hsame
    obtain ⟨set, hset, hmem⟩ := hread hks
    obtain ⟨set', hset', hmem'⟩ := hread hks'
    rw [hset, hset', Std.ExtTreeSet.ext_mem fun c => (hmem' c).trans
      (hsame.exists_denotes_iff.symm.trans (hmem c).symm)]

/-- A leading zero, a minus sign, a part that is blank, `x` for every ring, and the other way round
with a name that is repeated. -/
theorem transitions_denote_of_two_texts :
    let cs := " 02-cc ,, 5xo".toList
    let cs' := "5xo,2-cccc".toList
    let ks : List Clause := [⟨2, true, ["cc".toList]⟩, ⟨5, false, ["xo".toList]⟩]
    let ks' : List Clause := [⟨5, false, ["xo".toList]⟩, ⟨2, true, ["cc".toList, "cc".toList]⟩]
    vonNeumann.Spells cs ks ∧ vonNeumann.Spells cs' ks' ∧ Clause.SameAll ks ks' ∧
      (∃ set, vonNeumann.transitions cs = .ok set ∧
        ∀ c, c ∈ set ↔ ∃ k ∈ ks, k.Denotes vonNeumann c) ∧
      vonNeumann.transitions cs' = vonNeumann.transitions cs := by
  intro cs cs' ks ks'
  have hcc : ∃ c, vonNeumann.Names 2 "cc".toList c :=
    ⟨_, 'c', 'c', 1, .ofDigits "10000000", 1 <<< 8, rfl, rfl, rfl, by decide, .inr rfl, rfl⟩
  have hxo : ∃ c, vonNeumann.Names 5 "xo".toList c :=
    ⟨_, 'x', 'o', 2, .ofDigits "11000000", 14 <<< 8, rfl, rfl, rfl, by decide,
      .inl ⟨rfl, by decide +kernel⟩, rfl⟩
  have hfive : Clause.Legal vonNeumann ⟨5, false, ["xo".toList]⟩ :=
    ⟨by decide, List.forall_mem_singleton.mpr hxo⟩
  have hspells : vonNeumann.Spells cs ks := by
    refine ⟨List.forall_mem_cons.mpr ⟨⟨by decide, List.forall_mem_singleton.mpr hcc⟩,
      List.forall_mem_singleton.mpr hfive⟩,
      ["02-cc".toList, "5xo".toList], .cons ?_ (.cons ?_ .nil), by decide⟩
    · exact ⟨['0', '2'], by decide, List.forall_mem_cons.mpr ⟨rfl, List.forall_mem_singleton.mpr rfl⟩,
        by decide, rfl, rfl⟩
    · exact ⟨['5'], by decide, List.forall_mem_singleton.mpr rfl, by decide, rfl, rfl⟩
  have hspells' : vonNeumann.Spells cs' ks' := by
    refine ⟨List.forall_mem_cons.mpr ⟨hfive, List.forall_mem_singleton.mpr ⟨by decide,
      List.forall_mem_cons.mpr ⟨hcc, List.forall_mem_singleton.mpr hcc⟩⟩⟩,
      ["5xo".toList, "2-cccc".toList], .cons ?_ (.cons ?_ .nil), by decide⟩
    · exact ⟨['5'], by decide, List.forall_mem_singleton.mpr rfl, by decide, rfl, rfl⟩
    · exact ⟨['2'], by decide, List.forall_mem_singleton.mpr rfl, by decide, rfl, rfl⟩
  have hsame : Clause.SameAll ks ks' := by
    have htwo : Clause.Same ⟨2, true, ["cc".toList]⟩ ⟨2, true, ["cc".toList, "cc".toList]⟩ :=
      ⟨rfl, rfl, fun name => by simp⟩
    have hfive : Clause.Same ⟨5, false, ["xo".toList]⟩ ⟨5, false, ["xo".toList]⟩ :=
      ⟨rfl, rfl, fun name => Iff.rfl⟩
    refine ⟨List.forall_mem_cons.mpr ⟨⟨_, .tail _ (.head _), htwo⟩,
      List.forall_mem_singleton.mpr ⟨_, .head _, hfive⟩⟩,
      List.forall_mem_cons.mpr ⟨⟨_, .tail _ (.head _), hfive⟩,
      List.forall_mem_singleton.mpr ⟨_, .head _, htwo⟩⟩⟩
  obtain ⟨hread, hdenotes, hequal⟩ := transitions_denote vonNeumann cs
  obtain ⟨set, hset⟩ := hread.mpr ⟨ks, hspells⟩
  exact ⟨hspells, hspells', hsame, ⟨set, hset, hdenotes ks set hspells hset⟩,
    hequal cs' ks ks' hspells hspells' hsame⟩

end Family

end Cellular
