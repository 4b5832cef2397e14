/-
Every specification stands for a closed set.

A specification is read group by group, and a group adds one of three things to the
set: all configurations with a count, the images of the named ones, or the rest of those
with the count.  Each is closed, so the set is closed however the groups are put
together.  That holds in both grammars; of the von Neumann family a configuration is
named by its inner and its outer part, and what is put together from the two is again a
configuration of the family.
-/
import Cellular.Proofs.Isotropic.Orbit

namespace Cellular

variable {f : Family}

/-- Adding closed configurations to a closed set. -/
theorem closed_insertMany {acc : ConfigurationSet} {l : List Configuration}
    (hacc : f.Closed (· ∈ acc)) (hl : f.Closed (· ∈ l)) : f.Closed (· ∈ acc.insertMany l) := by
  have hmem : ∀ c, c ∈ acc.insertMany l ↔ c ∈ acc ∨ c ∈ l := by
    intro c
    rw [Std.ExtTreeSet.mem_insertMany_list, List.contains_iff_mem]
  intro c hc
  obtain ⟨hlt, hmoved⟩ := hacc.or hl c ((hmem c).mp hc)
  exact ⟨hlt, fun m => (hmem _).mpr (hmoved m)⟩

theorem closed_empty : f.Closed (· ∈ (∅ : ConfigurationSet)) := by
  intro c hc
  exact absurd hc Std.ExtTreeSet.not_mem_empty

/-- The outcomes of a list of readers, put together. -/
theorem closed_flatten {α : Type} {read : α → Except TransitionError (List Configuration)}
    {l : List α} {all : List (List Configuration)} (h : l.mapM read = .ok all)
    (hread : ∀ x cs, read x = .ok cs → f.Closed (· ∈ cs)) : f.Closed (· ∈ all.flatten) := by
  have hall : ∀ cs ∈ all, f.Closed (· ∈ cs) := by
    intro cs hcs
    obtain ⟨x, -, hx⟩ := (ok_of_mapM h).2 cs hcs
    exact hread x cs hx
  have hunion := Family.Closed.exists (P := fun (cs : List Configuration) c => c ∈ cs) hall
  intro c hc
  obtain ⟨hlt, hmoved⟩ := hunion c (List.mem_flatten.mp hc)
  exact ⟨hlt, fun m => List.mem_flatten.mpr (hmoved m)⟩

/-! ### Letters -/

theorem letter?_lt {count : Nat} {letter : Char} {c : Configuration}
    (h : f.letter? count letter = some c) : c < 2 ^ 8 := by
  have hall : ∀ e ∈ f.letters, Configuration.ofDigits e.2.2 < 2 ^ 8 := by
    cases f <;> decide +kernel
  unfold Family.letter? at h
  obtain ⟨e, he, rfl⟩ := Option.map_eq_some_iff.mp h
  exact hall e (List.mem_of_find?_eq_some he)

theorem outer?_lt {letter : Char} {c : Configuration} (h : Family.outer? letter = some c) :
    c < 2 ^ 12 := by
  have hall : ∀ e ∈ Family.outerLetters, Configuration.ofDigits e.2 <<< 8 < 2 ^ 12 := by
    decide +kernel
  unfold Family.outer? at h
  obtain ⟨e, he, rfl⟩ := Option.map_eq_some_iff.mp h
  exact hall e (List.mem_of_find?_eq_some he)

theorem two_pow_le (f : Family) : 2 ^ 8 ≤ 2 ^ f.cellCount :=
  Nat.pow_le_pow_right (by omega) (by cases f <;> decide)

/-! ### Families of eight cells -/

namespace Ring

theorem closed_named {count : Nat} {letter : Char} {cs : List Configuration}
    (h : named f count letter = .ok cs) : f.Closed (· ∈ cs) := by
  unfold named at h
  split at h
  · rename_i c hc
    injection h with h
    subst h
    exact Family.closed_images (Nat.lt_of_lt_of_le (letter?_lt hc) (two_pow_le f))
  · simp at h

theorem closed_expand {g : Group} {cs : List Configuration} (h : g.expand f = .ok cs) :
    f.Closed (· ∈ cs) := by
  unfold Group.expand at h
  split at h
  · injection h with h
    subst h
    exact f.closed_withCount g.count
  · obtain ⟨all, hall, hcs⟩ := ok_of_bind h
    injection hcs with hcs
    subst hcs
    exact Family.closed_chosen g.count g.negated
      (closed_flatten hall fun letter cs hcs => closed_named hcs)

theorem closed_close {g : Option Group} {acc set : ConfigurationSet}
    (h : close f g acc = .ok set) (hacc : f.Closed (· ∈ acc)) : f.Closed (· ∈ set) := by
  cases g with
  | none =>
      injection h with h
      exact h ▸ hacc
  | some g =>
      obtain ⟨cs, hcs, hset⟩ := ok_of_bind h
      injection hset with hset
      subst hset
      exact closed_insertMany hacc (closed_expand hcs)

/-- What every group keeps that is added to a set, a text keeps that is read after it. -/
theorem read_induction {P : ConfigurationSet → Prop}
    (hclose : ∀ {g : Option Group} {acc set : ConfigurationSet},
      close f g acc = .ok set → P acc → P set) (cs : List Char) :
    ∀ {g : Option Group} {acc set : ConfigurationSet}, read f cs g acc = .ok set → P acc → P set := by
  induction cs with
  | nil => intro g acc set h hacc; exact hclose h hacc
  | cons c rest ih =>
      intro g acc set h hacc
      unfold read at h
      split at h
      · exact ih h hacc
      · split at h
        · simp only at h
          split at h
          · simp at h
          · obtain ⟨closed, hclosed, hrest⟩ := ok_of_bind h
            exact ih hrest (hclose hclosed hacc)
        · split at h
          · split at h
            · exact ih h hacc
            · simp at h
          · split at h
            · split at h
              · exact ih h hacc
              · simp at h
            · simp at h

/-- What is read after a closed set is closed. -/
theorem closed_read (cs : List Char) {g : Option Group} {acc set : ConfigurationSet}
    (h : read f cs g acc = .ok set) (hacc : f.Closed (· ∈ acc)) : f.Closed (· ∈ set) :=
  read_induction (P := fun set => f.Closed (· ∈ set)) closed_close cs h hacc

end Ring

/-! ### The von Neumann family -/

namespace Pairs

/-- An inner ring and outer cells make a configuration. -/
theorem closed_pair {inner ring : Configuration} (hinner : inner < 2 ^ 8) (hring : ring < 2 ^ 12) :
    Family.vonNeumann.Closed (· ∈ Family.vonNeumann.images (inner ||| ring)) :=
  Family.closed_images (Nat.or_lt_two_pow (Nat.lt_trans hinner (by decide)) hring)

theorem closed_named {total : Nat} {inner outer : Char} {cs : List Configuration}
    (h : named total inner outer = .ok cs) : Family.vonNeumann.Closed (· ∈ cs) := by
  unfold named at h
  split at h
  · simp at h
  · rename_i ring hring
    simp only at h
    split at h
    · simp at h
    · split at h
      · injection h with h
        subst h
        have hall : ∀ c ∈ Family.moore.withCount (total - ring.count),
            Family.vonNeumann.Closed (· ∈ Family.vonNeumann.images (c ||| ring)) := by
          intro c hc
          have hlt := (Family.moore.closed_withCount _ c hc).1
          exact closed_pair hlt (outer?_lt hring)
        have hunion := Family.Closed.exists hall
        intro c hc
        obtain ⟨hlt, hmoved⟩ := hunion c (List.mem_flatMap.mp hc)
        exact ⟨hlt, fun m => List.mem_flatMap.mpr (hmoved m)⟩
      · split at h
        · rename_i c hc
          injection h with h
          subst h
          exact closed_pair (letter?_lt hc) (outer?_lt hring)
        · simp at h

theorem closed_expand {group : List Char} {cs : List Configuration} (h : expand group = .ok cs) :
    Family.vonNeumann.Closed (· ∈ cs) := by
  unfold expand at h
  split at h
  · simp at h
  · rename_i total _
    simp only at h
    -- Whether the group is negated changes what is read, not how.
    generalize (if (group.dropWhile Char.isDigit).head? = some '-' then
      (group.dropWhile Char.isDigit).tail else group.dropWhile Char.isDigit) = rest at h
    split at h
    · simp at h
    · split at h
      · injection h with h
        subst h
        exact Family.vonNeumann.closed_withCount total
      · split at h
        · simp at h
        · obtain ⟨all, hall, hcs⟩ := ok_of_bind h
          injection hcs with hcs
          subst hcs
          exact Family.closed_chosen _ _ (closed_flatten hall fun pair cs hcs => closed_named hcs)

theorem closed_read {cs : List Char} {set : ConfigurationSet} (h : read cs = .ok set) :
    Family.vonNeumann.Closed (· ∈ set) := by
  refine invariant_of_foldlM (fun acc : ConfigurationSet => Family.vonNeumann.Closed (· ∈ acc)) ?_
    closed_empty h
  intro acc group _ next hacc hnext
  obtain ⟨cs, hcs, hset⟩ := ok_of_bind hnext
  injection hset with hset
  subst hset
  exact closed_insertMany hacc (closed_expand hcs)

end Pairs

/-- **A specification that is read stands for a closed set,** in every family. -/
theorem Family.closed_transitions {cs : List Char} {set : ConfigurationSet}
    (h : f.transitions cs = .ok set) : f.Closed (· ∈ set) := by
  cases f with
  | vonNeumann => exact Pairs.closed_read h
  | moore => exact Ring.closed_read cs h closed_empty
  | cross => exact Ring.closed_read cs h closed_empty
  | farCorners => exact Ring.closed_read cs h closed_empty
  | knight => exact Ring.closed_read cs h closed_empty

end Cellular
