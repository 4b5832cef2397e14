/-
The fields of a rulestring, put together and cut apart.

In the slash form the fields are plain to see.  In the letter form a field ends where the key
after it first occurs, so a field that holds that key is torn apart.  Where no field holds the
letter that the next key begins with, and no later field does, the rulestring is cut where it was
put together (`letterFields_joined`), and it has not been put together in any other way
(`eq_of_joined`): how often the letter occurs tells that the field before the key holds none of it.
-/
import Mathlib.Data.List.Count
import Cellular.Proofs.Rule.Rulestring
import Cellular.Proofs.Text

namespace Cellular

namespace Rulestring

/-! ### Keys and fields put together -/

/-- Each field after its key. -/
def joined : List String → List (List Char) → List Char
  | key :: keys, field :: fs => key.toList ++ (field ++ joined keys fs)
  | _, _ => []

/-- No field holds the letter that a key begins with. -/
def KeyFree (keys : List String) (fs : List (List Char)) : Prop :=
  ∀ key ∈ keys, ∃ k word, key.toList = k :: word ∧ ∀ f ∈ fs, k ∉ f

/-- Neither a field nor a later one holds the letter that the key after the field begins with. -/
def Separated : List String → List (List Char) → Prop
  | _ :: keys, field :: fs => KeyFree (keys.take 1) (field :: fs) ∧ Separated keys fs
  | _, _ => True

theorem KeyFree.mono {keys keys' : List String} {fs fs' : List (List Char)} (h : KeyFree keys fs)
    (hkeys : keys' ⊆ keys) (hfs : fs' ⊆ fs) : KeyFree keys' fs' := by
  intro key hkey
  obtain ⟨k, word, hk, hnot⟩ := h key (hkeys hkey)
  exact ⟨k, word, hk, fun f hf => hnot f (hfs hf)⟩

theorem keyFree_singleton {key : String} {k : Char} {word : List Char} {fs : List (List Char)}
    (hk : key.toList = k :: word) (h : ∀ f ∈ fs, k ∉ f) : KeyFree [key] fs := by
  intro key' hkey'
  rw [List.mem_singleton.mp hkey']
  exact ⟨k, word, hk, h⟩

theorem KeyFree.separated {keys : List String} :
    ∀ {fs : List (List Char)}, KeyFree keys fs → Separated keys fs := by
  induction keys with
  | nil => exact fun _ => trivial
  | cons key keys ih =>
      intro fs h
      cases fs with
      | nil => trivial
      | cons field fs =>
          have hnext : keys.take 1 ⊆ key :: keys := fun k hk =>
            List.mem_cons_of_mem key (List.mem_of_mem_take hk)
          exact ⟨h.mono hnext (List.Subset.refl _),
            ih (h.mono (List.subset_cons_self key keys) (List.subset_cons_self field fs))⟩

theorem count_joined (c : Char) (keys : List String) : ∀ {fs : List (List Char)},
    fs.length = keys.length →
      (joined keys fs).count c = (keys.flatMap String.toList).count c + fs.flatten.count c := by
  induction keys with
  | nil =>
      intro fs hlen
      rw [List.length_eq_zero_iff.mp hlen]
      rfl
  | cons key keys ih =>
      intro fs hlen
      obtain ⟨field, fs, rfl⟩ := List.exists_cons_of_length_eq_add_one hlen
      have hlen' : fs.length = keys.length := Nat.succ.inj hlen
      show (key.toList ++ (field ++ joined keys fs)).count c = _
      rw [List.count_append, List.count_append, ih hlen', List.flatMap_cons, List.count_append,
        List.flatten_cons, List.count_append]
      omega

/-! ### One field of the letter form -/

/-- The field that a text starts with, which ends at the next key, and the text from there on. -/
def cutAtKey : List String → List Char → List Char × List Char
  | [], cs => (cs, [])
  | next :: _, cs => (Text.beforeWord next.toList cs).getD (cs, [])

/-- Cutting loses nothing. -/
theorem append_cutAtKey (keys : List String) (cs : List Char) :
    (cutAtKey keys cs).1 ++ (cutAtKey keys cs).2 = cs := by
  cases keys with
  | nil => exact List.append_nil cs
  | cons next keys =>
      cases hcut : Text.beforeWord next.toList cs with
      | none => simp [cutAtKey, hcut]
      | some parts => simp [cutAtKey, hcut, Text.append_of_beforeWord cs hcut]

/-- A field without the next key ends where that key was put. -/
theorem cutAtKey_joined {keys : List String} {field : List Char} {fs : List (List Char)}
    (hlen : fs.length = keys.length) (hfree : KeyFree (keys.take 1) [field]) :
    cutAtKey keys (field ++ joined keys fs) = (field, joined keys fs) := by
  cases keys with
  | nil =>
      rw [List.length_eq_zero_iff.mp hlen]
      exact congrArg (·, []) (List.append_nil field)
  | cons next keys =>
      obtain ⟨field', fs, rfl⟩ := List.exists_cons_of_length_eq_add_one hlen
      obtain ⟨k, word, hk, hnot⟩ := hfree next List.mem_cons_self
      have hcut : Text.beforeWord (k :: word) (field ++ k :: (word ++ (field' ++ joined keys fs)))
          = some (field, k :: (word ++ (field' ++ joined keys fs))) :=
        Text.beforeWord_append (hnot field List.mem_cons_self) (field' ++ joined keys fs)
      simp only [cutAtKey, joined, hk, List.cons_append, hcut, Option.getD_some]

/-- No key is passed over. -/
theorem suffix_cutAtKey {keys : List String} {gs : List (List Char)} {cs : List Char}
    (hlen : gs.length = keys.length) (h : joined keys gs <:+ cs) :
    joined keys gs <:+ (cutAtKey keys cs).2 := by
  cases keys with
  | nil =>
      rw [List.length_eq_zero_iff.mp hlen]
      exact List.nil_suffix
  | cons next keys =>
      obtain ⟨g, gs, rfl⟩ := List.exists_cons_of_length_eq_add_one hlen
      obtain ⟨before, after, hcut, hafter⟩ := Text.beforeWord_of_suffix h
      rw [cutAtKey, hcut]
      exact hafter

/-- A field ends before the first letter of a key of one letter, if that key follows. -/
theorem not_mem_cutAtKey {next : String} {keys : List String} {cs : List Char} {k : Char}
    (hk : next.toList = [k]) (hne : (cutAtKey (next :: keys) cs).2 ≠ []) :
    k ∉ (cutAtKey (next :: keys) cs).1 := by
  cases hcut : Text.beforeWord next.toList cs with
  | none => simp [cutAtKey, hcut] at hne
  | some parts =>
      rw [cutAtKey, hcut]
      rw [hk] at hcut
      exact Text.not_mem_of_beforeWord cs hcut

/-! ### All fields of the letter form -/

theorem letterFields_cons (required : Nat) (key : String) (keys : List String) (rest : List Char) :
    letterFields required (key :: keys) rest =
      if rest.isEmpty ∧ required = 0 then .ok ((key :: keys).map fun _ => [])
      else if !key.toList.isPrefixOf rest then .error (.keyExpected key (String.ofList rest))
      else do
        return (cutAtKey keys (rest.drop key.length)).1
          :: (← letterFields (required - 1) keys (cutAtKey keys (rest.drop key.length)).2) := by
  cases keys <;> rfl

/-- A text with the first key at its start is cut at the key after it. -/
theorem letterFields_append {required : Nat} {key : String} (hkey : key.toList ≠ [])
    (keys : List String) (body : List Char) :
    letterFields required (key :: keys) (key.toList ++ body) = (do
      return (cutAtKey keys body).1
        :: (← letterFields (required - 1) keys (cutAtKey keys body).2)) := by
  have hne : (key.toList ++ body).isEmpty = false := by
    rw [List.isEmpty_eq_false_iff]
    exact List.append_ne_nil_of_left_ne_nil hkey body
  rw [letterFields_cons, if_neg (by simp [hne]), if_neg (by simp [List.isPrefixOf_iff_prefix]),
    ← String.length_toList, List.drop_left]

/-- A text that has to hold a key starts with it. -/
theorem of_letterFields {required : Nat} {key : String} {keys : List String} {cs : List Char}
    {fs : List (List Char)} (hrequired : 0 < required)
    (h : letterFields required (key :: keys) cs = .ok fs) :
    ∃ body more, cs = key.toList ++ body ∧ fs = (cutAtKey keys body).1 :: more ∧
      letterFields (required - 1) keys (cutAtKey keys body).2 = .ok more := by
  rw [letterFields_cons, if_neg (by omega)] at h
  split at h
  · simp at h
  · rename_i hkey
    rw [Bool.not_eq_true', Bool.not_eq_false, List.isPrefixOf_iff_prefix] at hkey
    obtain ⟨body, rfl⟩ := hkey
    rw [← String.length_toList, List.drop_left] at h
    obtain ⟨more, hmore, h⟩ := ok_of_bind h
    injection h with h
    exact ⟨body, more, rfl, h.symm, hmore⟩

/-- **Separated fields are cut apart where they were put together.** -/
theorem letterFields_joined {keys : List String} :
    ∀ {required : Nat} {fs : List (List Char)}, fs.length = keys.length →
      (∀ key ∈ keys, key.toList ≠ []) → Separated keys fs →
      letterFields required keys (joined keys fs) = .ok fs := by
  induction keys with
  | nil =>
      intro required fs hlen _ _
      rw [List.length_eq_zero_iff.mp hlen]
      rfl
  | cons key keys ih =>
      intro required fs hlen hkeys hsep
      obtain ⟨field, fs, rfl⟩ := List.exists_cons_of_length_eq_add_one hlen
      have hlen' : fs.length = keys.length := Nat.succ.inj hlen
      have hrest : letterFields (required - 1) keys (joined keys fs) = .ok fs :=
        ih hlen' (fun k hk => hkeys k (List.mem_cons_of_mem key hk)) hsep.2
      have hcut : cutAtKey keys (field ++ joined keys fs) = (field, joined keys fs) :=
        cutAtKey_joined hlen' (hsep.1.mono (List.Subset.refl _) (by simp))
      show letterFields required (key :: keys) (key.toList ++ (field ++ joined keys fs)) = _
      rw [letterFields_append (hkeys key List.mem_cons_self), hcut, hrest]
      rfl

/-- Where every key is present it does not matter how many of them have to be. -/
theorem letterFields_required {keys : List String} :
    ∀ {required required' : Nat} {gs : List (List Char)} {cs : List Char},
      (∀ key ∈ keys, key.toList ≠ []) → gs.length = keys.length → joined keys gs <:+ cs →
      letterFields required keys cs = letterFields required' keys cs := by
  induction keys with
  | nil => exact fun _ _ _ => rfl
  | cons key keys ih =>
      intro required required' gs cs hkeys hlen hsuffix
      obtain ⟨g, gs, rfl⟩ := List.exists_cons_of_length_eq_add_one hlen
      have hkey : key.toList ≠ [] := hkeys key List.mem_cons_self
      have hne : cs.isEmpty = false := by
        rw [List.isEmpty_eq_false_iff]
        rintro rfl
        exact hkey (List.append_eq_nil_iff.mp (List.suffix_nil.mp hsuffix)).1
      by_cases hprefix : key.toList <+: cs
      · obtain ⟨body, rfl⟩ := hprefix
        have hlength := hsuffix.length_le
        have hbody : joined keys gs <:+ body := by
          refine List.suffix_of_suffix_length_le
            (((List.suffix_append g _).trans (List.suffix_append key.toList _)).trans hsuffix)
            (List.suffix_append key.toList body) ?_
          simp only [joined, List.length_append] at hlength
          omega
        rw [letterFields_append hkey, letterFields_append hkey,
          ih (fun k hk => hkeys k (List.mem_cons_of_mem key hk)) (Nat.succ.inj hlen)
            (suffix_cutAtKey (Nat.succ.inj hlen) hbody)]
      · have hno : key.toList.isPrefixOf cs = false :=
          Bool.eq_false_iff.mpr fun h => hprefix (List.isPrefixOf_iff_prefix.mp h)
        rw [letterFields_cons, letterFields_cons]
        simp [hne, hno]

/-- The keys and the fields that are read make up the rulestring. -/
theorem joined_of_letterFields {keys : List String} :
    ∀ {required : Nat} {cs : List Char} {fs : List (List Char)}, keys.length ≤ required →
      (keys = [] → cs = []) → letterFields required keys cs = .ok fs → joined keys fs = cs := by
  induction keys with
  | nil =>
      intro required cs fs _ hnil h
      rw [hnil rfl]
      injection h with h
      rw [← h]
      rfl
  | cons key keys ih =>
      intro required cs fs hrequired _ h
      rw [List.length_cons] at hrequired
      obtain ⟨body, more, rfl, rfl, hmore⟩ := of_letterFields (by omega) h
      show key.toList ++ ((cutAtKey keys body).1 ++ joined keys more) = key.toList ++ body
      rw [ih (by omega) (by rintro rfl; rfl) hmore, append_cutAtKey]

/-- **Separated fields are put together in one way only.** -/
theorem eq_of_joined {keys : List String} :
    ∀ {fs gs : List (List Char)}, fs.length = keys.length → gs.length = keys.length →
      Separated keys fs → joined keys gs = joined keys fs → gs = fs := by
  induction keys with
  | nil =>
      intro fs gs hfs hgs _ _
      rw [List.length_eq_zero_iff.mp hfs, List.length_eq_zero_iff.mp hgs]
  | cons key keys ih =>
      intro fs gs hfs hgs hsep hjoined
      obtain ⟨f, fs, rfl⟩ := List.exists_cons_of_length_eq_add_one hfs
      obtain ⟨g, gs, rfl⟩ := List.exists_cons_of_length_eq_add_one hgs
      have hrest : g ++ joined keys gs = f ++ joined keys fs :=
        List.append_cancel_left hjoined
      -- The two ways have the same number of each character, and the keys take their share.
      have hfree : KeyFree (keys.take 1) [g] := by
        intro next hnext
        obtain ⟨k, word, hk, hnot⟩ := hsep.1 next hnext
        refine ⟨k, word, hk, ?_⟩
        have hzero : f.count k = 0 ∧ fs.flatten.count k = 0 := by
          refine ⟨List.count_eq_zero.mpr (hnot f List.mem_cons_self),
            List.count_eq_zero.mpr fun hin => ?_⟩
          obtain ⟨f', hf', hkf⟩ := List.mem_flatten.mp hin
          exact hnot f' (List.mem_cons_of_mem f hf') hkf
        have hcount := congrArg (List.count k) hrest
        rw [List.count_append, List.count_append, count_joined k keys (Nat.succ.inj hgs),
          count_joined k keys (Nat.succ.inj hfs)] at hcount
        simp only [List.mem_singleton, forall_eq]
        exact List.count_eq_zero.mp (by omega)
      have hcut : (g, joined keys gs) = (f, joined keys fs) := by
        rw [← cutAtKey_joined (Nat.succ.inj hgs) hfree, hrest, cutAtKey_joined (Nat.succ.inj hfs)
          (hsep.1.mono (List.Subset.refl _) (by simp))]
      injection hcut with hfield htail
      rw [hfield, ih (Nat.succ.inj hfs) (Nat.succ.inj hgs) hsep.2 htail]

/-- **Separated fields can be read in one way only.** -/
theorem eq_of_letterFields {keys : List String} {fs gs : List (List Char)}
    (hlen : gs.length = keys.length) (hne : keys ≠ [])
    (h : letterFields keys.length keys (joined keys gs) = .ok fs) (hsep : Separated keys fs) :
    gs = fs :=
  eq_of_joined (length_letterFields keys h) hlen hsep
    (joined_of_letterFields (Nat.le_refl _) (fun hnil => absurd hnil hne) h).symm

/-! ### Keys that may be left out -/

/-- More keys to look for do not change the fields of a rulestring that ends before them. -/
theorem letterFields_more {keys more : List String} :
    ∀ {cs : List Char} {fs : List (List Char)}, keys ≠ [] → (∀ key ∈ keys, key.toList ≠ []) →
      letterFields keys.length keys cs = .ok fs →
      (∀ field ∈ fs.getLast?, KeyFree (more.take 1) [field]) →
      letterFields keys.length (keys ++ more) cs = .ok (fs ++ more.map fun _ => []) := by
  induction keys with
  | nil => exact fun hne => absurd rfl hne
  | cons key keys ih =>
      intro cs fs _ hkeys h hfree
      obtain ⟨body, rest, rfl, rfl, hrest⟩ := of_letterFields (Nat.succ_pos _) h
      rw [List.cons_append, letterFields_append (hkeys key List.mem_cons_self)]
      cases keys with
      | nil =>
          injection hrest with hrest
          subst hrest
          have hcut : cutAtKey more body = (body, []) := by
            cases more with
            | nil => rfl
            | cons next more =>
                obtain ⟨k, word, hk, hnot⟩ := hfree body rfl next List.mem_cons_self
                rw [cutAtKey, hk, Text.beforeWord_eq_none (hnot body List.mem_cons_self)]
                rfl
          have hempty : letterFields 0 more [] = .ok (more.map fun _ => []) := by
            cases more with
            | nil => rfl
            | cons next more => rw [letterFields_cons, if_pos ⟨rfl, rfl⟩]
          show (do return (cutAtKey more body).1 :: (← letterFields 0 more (cutAtKey more body).2))
            = .ok (body :: more.map fun _ => [])
          rw [hcut, hempty]
          rfl
      | cons next keys =>
          have hmore := ih (List.cons_ne_nil next keys)
            (fun k hk => hkeys k (List.mem_cons_of_mem key hk)) hrest fun field hfield => hfree field (by
              obtain ⟨a, rest, rfl⟩ := List.exists_cons_of_length_pos
                (by rw [length_letterFields _ hrest]; exact Nat.succ_pos _ : 0 < rest.length)
              rwa [List.getLast?_cons_cons])
          show (do return (cutAtKey (next :: keys) body).1 :: (← letterFields (next :: keys).length
            (next :: keys ++ more) (cutAtKey (next :: keys) body).2)) = _
          rw [hmore]
          rfl

/-- Fields that are missing from the slash form are empty. -/
theorem slashFields_more {n : Nat} {cs : List Char} {parts : List (List Char)}
    (h : slashFields n n cs = .ok parts) (more : Nat) :
    slashFields n (n + more) cs = .ok (parts ++ List.replicate more []) := by
  unfold slashFields at h ⊢
  simp only at h ⊢
  split at h
  · simp at h
  · rename_i hlen
    injection h with h
    have heq : ((Text.pieces '/' cs).map Text.trim).length = n := by omega
    rw [heq, Nat.sub_self, List.replicate_zero, List.append_nil] at h
    rw [heq, if_neg (by omega), Nat.add_sub_cancel_left, h]

/-! ### Rulestrings of either form -/

/-- The text may be a field of either form: it holds no slash and no capital letter. -/
def Unmarked (cs : List Char) : Prop := ∀ c ∈ cs, c ≠ '/' ∧ c.isUpper = false

instance (cs : List Char) : Decidable (Unmarked cs) :=
  List.decidableBAll _ cs

theorem Unmarked.no_slash {cs : List Char} (h : Unmarked cs) : '/' ∉ cs :=
  fun hmem => (h '/' hmem).1 rfl

variable {α : Type} {keys : List String} {required : Nat}
  {order : List (List Char) → List (List Char)}
  {read : List (List Char) → Except RulestringError α} {gs : List (List Char)}

/-- Keys and unmarked fields make up a rulestring of the letter form. -/
theorem fields_letters (hlen : gs.length = keys.length)
    (hkeys : ∀ key ∈ keys, key.toList ≠ [] ∧ Unmarked key.toList) (hgs : ∀ g ∈ gs, Unmarked g) :
    fields keys required order (joined keys gs)
      = letterFields keys.length keys (joined keys gs) := by
  have hunmarked : Unmarked (joined keys gs) := by
    intro c hc
    have hcount := List.count_pos_iff.mpr hc
    rw [count_joined c keys hlen] at hcount
    by_cases hmem : c ∈ keys.flatMap String.toList
    · obtain ⟨key, hkey, hin⟩ := List.mem_flatMap.mp hmem
      exact (hkeys key hkey).2 c hin
    · rw [List.count_eq_zero_of_not_mem hmem, Nat.zero_add, List.count_pos_iff] at hcount
      obtain ⟨g, hg, hin⟩ := List.mem_flatten.mp hcount
      exact hgs g hg c hin
  unfold fields
  rw [if_neg, Text.lower_of_not_upper fun c hc => (hunmarked c hc).2]
  · exact letterFields_required (fun key hkey => (hkeys key hkey).1) hlen (List.suffix_refl _)
  · rw [List.contains_iff_mem]
    exact hunmarked.no_slash

/-- **Reading the letter form.**  If whatever is accepted of the fields is separated, then it does
not matter that the fields have to be cut apart first. -/
theorem toOption_letters (hne : keys ≠ []) (hlen : gs.length = keys.length)
    (hkeys : ∀ key ∈ keys, key.toList ≠ [] ∧ Unmarked key.toList) (hgs : ∀ g ∈ gs, Unmarked g)
    (hread : ∀ fs a, letterFields keys.length keys (joined keys gs) = .ok fs → read fs = .ok a →
      Separated keys fs)
    (hgiven : ∀ a, read gs = .ok a → Separated keys gs) :
    (fields keys required order (joined keys gs) >>= read).toOption = (read gs).toOption := by
  rw [fields_letters hlen hkeys hgs]
  refine Option.ext fun a => ⟨fun h => ?_, fun h => ?_⟩
  · obtain ⟨fs, hfs, ha⟩ := ok_of_bind (ok_of_toOption h)
    rw [eq_of_letterFields hlen hne hfs (hread fs a hfs ha), ha]
    rfl
  · rw [letterFields_joined hlen (fun key hkey => (hkeys key hkey).1)
      (hgiven a (ok_of_toOption h))]
    exact h

/-- **Reading the slash form.** -/
theorem fields_slashes (hlen : gs.length = keys.length) (htwo : 2 ≤ keys.length)
    (hrequired : required ≤ keys.length) (hgs : ∀ g ∈ gs, '/' ∉ g) :
    fields keys required order (['/'].intercalate gs) = .ok (order (gs.map Text.trim)) := by
  have hslash : '/' ∈ ['/'].intercalate gs := by
    obtain ⟨g, gs, rfl⟩ := List.exists_cons_of_length_pos (by omega : 0 < gs.length)
    obtain ⟨g', gs, rfl⟩ := List.exists_cons_of_length_pos
      (by rw [List.length_cons] at hlen; omega : 0 < gs.length)
    rw [List.intercalate_cons_cons]
    simp
  have hpieces : Text.pieces '/' (['/'].intercalate gs) = gs :=
    Text.pieces_intercalate (by rintro rfl; simp at hlen; omega) hgs
  unfold fields slashFields
  rw [if_pos (List.contains_iff_mem.mpr hslash), hpieces]
  simp only [List.length_map, hlen]
  rw [if_neg (by omega), Nat.sub_self, List.replicate_zero, List.append_nil]
  rfl

end Rulestring

end Cellular
