/-
The table finds what was inserted.

A member sits on its own way: walking from its home slot there is no free slot before
it.  `Table` says so, and that a taken slot holds a member and no two slots the same
one.  Because there are fewer members than slots some slot is free, so every walk ends,
and it ends at the slot of the member or at the free slot where the member belongs.
Writing there keeps `Table`, since it makes a free slot taken and a taken slot never
blocks anybody's way.

Stamps carry over from one epoch to the next: no slot has a larger stamp than the
current one, so after `clear` no slot is taken.
-/
import Mathlib.Data.List.Perm.Subperm
import Mathlib.Data.List.Nodup
import Mathlib.Data.List.Range
import Mathlib.Data.Nat.ModEq
import Mathlib.Order.Nat
import Cellular.CoordSet

namespace Cellular.CoordSet

variable {slots : Array Slot} {stamp : UInt32} {c : Coord}

/-! ### Walking -/

/-- Does the walk for `c` stop at slot `i`? -/
def Stops (slots : Array Slot) (stamp : UInt32) (c : Coord) (i : Nat) : Prop :=
  (slots.getD i .unused).stamp ≠ stamp ∨ (slots.getD i .unused).coord = c

theorem home_lt (h : 0 < slots.size) (c : Coord) : home slots c < slots.size := by
  have hhash : (CoordHash.ofCoord c).toNat < 2 ^ 64 := (CoordHash.ofCoord c).toNat_lt
  unfold home
  rw [UInt64.toNat_mod, UInt64.toNat_ofNat']
  rcases Nat.eq_zero_or_pos (slots.size % 2 ^ 64) with hz | hp
  · rw [hz, Nat.mod_zero]
    have hle : 2 ^ 64 ≤ slots.size := Nat.le_of_dvd h (Nat.dvd_of_mod_eq_zero hz)
    omega
  · have hlt := Nat.mod_lt (CoordHash.ofCoord c).toNat hp
    have hle := Nat.mod_le slots.size (2 ^ 64)
    omega

/-- The walk ends at the first slot that stops it. -/
theorem probeFrom_eq_some :
    ∀ {rounds pos k : Nat}, pos < slots.size → k < rounds →
      Stops slots stamp c ((pos + k) % slots.size) →
      (∀ j < k, ¬Stops slots stamp c ((pos + j) % slots.size)) →
      probeFrom slots stamp c rounds pos = some ((pos + k) % slots.size) := by
  intro rounds
  induction rounds with
  | zero => intro pos k _ hk; omega
  | succ rounds ih =>
      intro pos k hpos hk hstop hbefore
      unfold probeFrom
      cases k with
      | zero =>
          simp only [Nat.add_zero, Nat.mod_eq_of_lt hpos] at hstop ⊢
          exact if_pos hstop
      | succ k =>
          have hgo : ¬Stops slots stamp c pos := by
            have h0 := hbefore 0 (by omega)
            rwa [Nat.add_zero, Nat.mod_eq_of_lt hpos] at h0
          have hshift : ∀ j, ((pos + 1) % slots.size + j) % slots.size
              = (pos + (j + 1)) % slots.size := by
            intro j
            rw [Nat.mod_add_mod, Nat.add_assoc, Nat.add_comm 1 j]
          have hnext := ih (k := k) (Nat.mod_lt (pos + 1) (by omega)) (by omega)
            (by rw [hshift]; exact hstop)
            (fun j hj => by rw [hshift]; exact hbefore (j + 1) (by omega))
          rw [hshift] at hnext
          exact (if_neg hgo).trans hnext

/-- Placing a cell leaves the table as large as it was. -/
theorem size_place (stamp : UInt32) (slots : Array Slot) (c : Coord) :
    (place stamp slots c).size = slots.size := by
  unfold place
  split
  · exact Array.size_setIfInBounds
  · rfl

/-! ### The table -/

/-- The table holds the members of the list, each where its walk finds it. -/
structure Table (slots : Array Slot) (stamp : UInt32) (ms : List Coord) : Prop where
  /-- No slot was taken later than now. -/
  old : ∀ i, (slots.getD i .unused).stamp ≤ stamp
  /-- A taken slot holds a member. -/
  sound : ∀ i < slots.size, (slots.getD i .unused).stamp = stamp →
    (slots.getD i .unused).coord ∈ ms
  /-- No member has two slots. -/
  unique : ∀ i < slots.size, ∀ j < slots.size, (slots.getD i .unused).stamp = stamp →
    (slots.getD j .unused).stamp = stamp →
    (slots.getD i .unused).coord = (slots.getD j .unused).coord → i = j
  /-- A member has a slot, and all slots on the way to it are taken. -/
  reach : ∀ c ∈ ms, ∃ k < slots.size,
    slots.getD ((home slots c + k) % slots.size) .unused = ⟨c, stamp⟩ ∧
    ∀ j < k, (slots.getD ((home slots c + j) % slots.size) .unused).stamp = stamp

/-- A table without a slot of the current epoch has no members. -/
theorem table_nil (h : ∀ i, (slots.getD i .unused).stamp < stamp) : Table slots stamp [] := by
  have hfree : ∀ i, (slots.getD i .unused).stamp ≠ stamp := fun i => UInt32.ne_of_lt (h i)
  refine ⟨fun i => UInt32.le_of_lt (h i), ?_, ?_, by simp⟩
  · intro i _ hi
    exact absurd hi (hfree i)
  · intro i _ j _ hi
    exact absurd hi (hfree i)

namespace Table

variable {ms : List Coord}

private theorem index_inj {n a j k : Nat} (hj : j < n) (hk : k < n)
    (h : (a + j) % n = (a + k) % n) : j = k := by
  have hmod : j ≡ k [MOD n] := Nat.ModEq.add_left_cancel' a h
  rwa [Nat.ModEq, Nat.mod_eq_of_lt hj, Nat.mod_eq_of_lt hk] at hmod

/-- The walk for a member ends at its slot. -/
theorem probe_member (t : Table slots stamp ms) (hc : c ∈ ms) :
    ∃ p < slots.size, probeFrom slots stamp c slots.size (home slots c) = some p ∧
      slots.getD p .unused = ⟨c, stamp⟩ := by
  obtain ⟨k, hk, hslot, hway⟩ := t.reach c hc
  have hpos : 0 < slots.size := by omega
  refine ⟨_, Nat.mod_lt _ hpos, probeFrom_eq_some (home_lt hpos c) hk ?_ ?_, hslot⟩
  · exact Or.inr (by rw [hslot])
  · intro j hj hstop
    rcases hstop with hfree | hcoord
    · exact hfree (hway j hj)
    · have heq := t.unique _ (Nat.mod_lt _ hpos) _ (Nat.mod_lt _ hpos) (hway j hj)
        (by rw [hslot]) (by rw [hslot]; exact hcoord)
      have := index_inj (by omega) hk heq
      omega

/-- With fewer members than slots some slot is free. -/
theorem exists_free (t : Table slots stamp ms) (hlen : ms.length < slots.size) :
    ∃ i < slots.size, (slots.getD i .unused).stamp ≠ stamp := by
  by_contra hall
  push Not at hall
  have hnodup : ((List.range slots.size).map fun i => (slots.getD i .unused).coord).Nodup := by
    refine List.Nodup.map_on ?_ List.nodup_range
    intro i hi j hj hij
    rw [List.mem_range] at hi hj
    exact t.unique i hi j hj (hall i hi) (hall j hj) hij
  have hsub : ((List.range slots.size).map fun i => (slots.getD i .unused).coord) ⊆ ms := by
    intro d hd
    obtain ⟨i, hi, rfl⟩ := List.mem_map.mp hd
    rw [List.mem_range] at hi
    exact t.sound i hi (hall i hi)
  have hle := (List.subperm_of_subset hnodup hsub).length_le
  rw [List.length_map, List.length_range] at hle
  omega

/-- With fewer members than slots every walk comes to a free slot within one round. -/
theorem free_on_way (t : Table slots stamp ms) (hlen : ms.length < slots.size) (c : Coord) :
    ∃ k < slots.size, (slots.getD ((home slots c + k) % slots.size) .unused).stamp ≠ stamp := by
  have hpos : 0 < slots.size := by omega
  have hhome := home_lt hpos c
  obtain ⟨i, hi, hfree⟩ := t.exists_free hlen
  refine ⟨(i + (slots.size - home slots c)) % slots.size, Nat.mod_lt _ hpos, ?_⟩
  have hi' : (home slots c + (i + (slots.size - home slots c)) % slots.size) % slots.size = i := by
    rw [Nat.add_mod_mod, show home slots c + (i + (slots.size - home slots c))
      = i + slots.size by omega, Nat.add_mod_right, Nat.mod_eq_of_lt hi]
  rwa [hi']

/-- The walk for a cell that is no member ends at a free slot. -/
theorem probe_new (t : Table slots stamp ms) (hc : c ∉ ms) (hlen : ms.length < slots.size) :
    ∃ k < slots.size,
      probeFrom slots stamp c slots.size (home slots c)
        = some ((home slots c + k) % slots.size) ∧
      (slots.getD ((home slots c + k) % slots.size) .unused).stamp ≠ stamp ∧
      ∀ j < k, (slots.getD ((home slots c + j) % slots.size) .unused).stamp = stamp := by
  classical
  have hpos : 0 < slots.size := by omega
  have hhome := home_lt hpos c
  have hex : ∃ k, k < slots.size ∧ Stops slots stamp c ((home slots c + k) % slots.size) := by
    obtain ⟨k, hk, hfree⟩ := t.free_on_way hlen c
    exact ⟨k, hk, Or.inl hfree⟩
  obtain ⟨hk, hstop⟩ := Nat.find_spec hex
  have hbefore : ∀ j < Nat.find hex, ¬Stops slots stamp c ((home slots c + j) % slots.size) :=
    fun j hj hs => Nat.find_min hex hj ⟨by omega, hs⟩
  refine ⟨Nat.find hex, hk, probeFrom_eq_some hhome hk hstop hbefore, ?_, ?_⟩
  · rcases hstop with hfree | hcoord
    · exact hfree
    · intro htaken
      have hmem := t.sound _ (Nat.mod_lt _ hpos) htaken
      rw [hcoord] at hmem
      exact hc hmem
  · intro j hj
    by_contra hfree
    exact hbefore j hj (Or.inl hfree)

private theorem getD_set {p i : Nat} (hp : p < slots.size) (x : Slot) :
    (slots.setIfInBounds p x).getD i .unused = if i = p then x else slots.getD i .unused := by
  rw [Array.getD_eq_getD_getElem?, Array.getD_eq_getD_getElem?, Array.getElem?_setIfInBounds]
  by_cases hi : i = p
  · subst hi
    simp [hp]
  · rw [if_neg (Ne.symm hi), if_neg hi]

/-- Writing a new member into the free slot at the end of its walk. -/
theorem set_free (t : Table slots stamp ms) (hc : c ∉ ms) {k p : Nat} (hk : k < slots.size)
    (hp : p = (home slots c + k) % slots.size) (hfree : (slots.getD p .unused).stamp ≠ stamp)
    (hway : ∀ j < k, (slots.getD ((home slots c + j) % slots.size) .unused).stamp = stamp) :
    Table (slots.setIfInBounds p ⟨c, stamp⟩) stamp (ms ++ [c]) := by
  have hlt : p < slots.size := by
    rw [hp]
    exact Nat.mod_lt _ (by omega)
  have hsize : (slots.setIfInBounds p ⟨c, stamp⟩).size = slots.size := Array.size_setIfInBounds
  have hhome : ∀ d, home (slots.setIfInBounds p ⟨c, stamp⟩) d = home slots d := by
    intro d
    unfold home
    rw [hsize]
  -- A slot that was taken stays as it is, and no other becomes free.
  have hkeep : ∀ i, (slots.getD i .unused).stamp = stamp →
      ((slots.setIfInBounds p ⟨c, stamp⟩).getD i .unused) = slots.getD i .unused := by
    intro i hi
    rw [getD_set hlt, if_neg]
    intro heq
    rw [heq] at hi
    exact hfree hi
  have hself : (slots.setIfInBounds p ⟨c, stamp⟩).getD p .unused = ⟨c, stamp⟩ := by
    rw [getD_set hlt, if_pos rfl]
  have hother : ∀ i, i ≠ p →
      (slots.setIfInBounds p ⟨c, stamp⟩).getD i .unused = slots.getD i .unused := by
    intro i hi
    rw [getD_set hlt, if_neg hi]
  refine ⟨?_, ?_, ?_, ?_⟩
  · intro i
    by_cases hi : i = p
    · rw [hi, hself]
      exact UInt32.le_refl stamp
    · rw [hother i hi]
      exact t.old i
  · intro i hi htaken
    rw [hsize] at hi
    by_cases hip : i = p
    · rw [hip, hself]
      simp
    · rw [hother i hip] at htaken ⊢
      exact List.mem_append_left _ (t.sound i hi htaken)
  · intro i hi j hj hit hjt hcoord
    rw [hsize] at hi hj
    -- A slot that held the new member before would make it a member.
    have hnot : ∀ l < slots.size, (slots.getD l .unused).stamp = stamp →
        (slots.getD l .unused).coord ≠ c := by
      intro l hl htaken heq
      rw [← heq] at hc
      exact hc (t.sound l hl htaken)
    by_cases hip : i = p <;> by_cases hjp : j = p
    · rw [hip, hjp]
    · rw [hip, hself, hother j hjp] at hcoord
      rw [hother j hjp] at hjt
      exact absurd hcoord.symm (hnot j hj hjt)
    · rw [hjp, hself, hother i hip] at hcoord
      rw [hother i hip] at hit
      exact absurd hcoord (hnot i hi hit)
    · rw [hother i hip] at hit hcoord
      rw [hother j hjp] at hjt hcoord
      exact t.unique i hi j hj hit hjt hcoord
  · intro d hd
    rw [hsize, hhome]
    rcases List.mem_append.mp hd with hold | hnew
    · obtain ⟨l, hl, hslot, hwayd⟩ := t.reach d hold
      refine ⟨l, hl, by rw [hkeep _ (by rw [hslot]), hslot], ?_⟩
      intro j hj
      rw [hkeep _ (hwayd j hj)]
      exact hwayd j hj
    · obtain rfl := List.mem_singleton.mp hnew
      refine ⟨k, hk, by rw [← hp, hself], ?_⟩
      intro j hj
      rw [hkeep _ (hway j hj)]
      exact hway j hj

/-- Placing a new member. -/
theorem place (t : Table slots stamp ms) (hc : c ∉ ms) (hlen : ms.length < slots.size) :
    Table (place stamp slots c) stamp (ms ++ [c]) := by
  obtain ⟨k, hk, hprobe, hfree, hway⟩ := t.probe_new hc hlen
  unfold CoordSet.place
  rw [hprobe]
  exact t.set_free hc hk rfl hfree hway

/-- Placing a list of new members one after the other. -/
theorem foldl_place :
    ∀ (l : List Coord) {slots : Array Slot} {ms : List Coord}, Table slots stamp ms →
      (ms ++ l).Nodup → (ms ++ l).length ≤ slots.size →
      Table (l.foldl (CoordSet.place stamp) slots) stamp (ms ++ l) ∧
        (l.foldl (CoordSet.place stamp) slots).size = slots.size := by
  intro l
  induction l with
  | nil => intro slots ms t _ _; simpa using t
  | cons c rest ih =>
      intro slots ms t hnodup hlen
      have hassoc : ms ++ [c] ++ rest = ms ++ c :: rest := by simp
      have hc : c ∉ ms := fun hmem =>
        (List.nodup_cons.mp (List.nodup_middle.mp hnodup)).1 (List.mem_append_left rest hmem)
      have hroom : ms.length < slots.size := by
        rw [List.length_append, List.length_cons] at hlen
        omega
      have hrest := ih (t.place hc hroom) (by rw [hassoc]; exact hnodup)
        (by rw [hassoc, size_place]; exact hlen)
      rw [hassoc, size_place] at hrest
      exact hrest

end Table

/-! ### The set -/

/-- The list with `c` at its end, unless it is there already. -/
def addNew (cs : List Coord) (c : Coord) : List Coord := if c ∈ cs then cs else cs ++ [c]

theorem mem_addNew {cs : List Coord} {c d : Coord} : d ∈ addNew cs c ↔ d ∈ cs ∨ d = c := by
  unfold addNew
  split
  · rename_i hc
    exact ⟨Or.inl, fun h => h.elim id fun hd => hd ▸ hc⟩
  · simp

/-- What every set satisfies that was made by the operations below. -/
structure Valid (s : CoordSet) : Prop where
  /-- The stamp of an unused slot is never current. -/
  current : 0 < s.stamp
  large : 4 ≤ s.slots.size
  /-- Some slot is free. -/
  room : s.members.size < s.slots.size
  nodup : s.toList.Nodup
  table : Table s.slots s.stamp s.toList

theorem taken_iff {s : CoordSet} {pos : Nat} :
    s.taken pos = true ↔ (s.slots.getD pos .unused).stamp = s.stamp := decide_eq_true_iff

theorem length_toList (s : CoordSet) : s.toList.length = s.members.size := Array.length_toList

private theorem getD_replicate (n i : Nat) : (Array.replicate n Slot.unused).getD i .unused = .unused := by
  rw [Array.getD_eq_getD_getElem?, Array.getElem?_replicate]
  split <;> rfl

theorem valid_withCapacity (keys : Nat) : (withCapacity keys).Valid := by
  have hsize : (withCapacity keys).slots.size = slotsFor keys := Array.size_replicate
  have hlarge : 16 ≤ slotsFor keys := Nat.le_max_left ..
  refine ⟨(by decide : (0 : UInt32) < 1), by omega, ?_, List.nodup_nil, table_nil ?_⟩
  · show 0 < (withCapacity keys).slots.size
    omega
  · intro i
    show ((Array.replicate (slotsFor keys) Slot.unused).getD i .unused).stamp < 1
    rw [getD_replicate]
    decide

/-- A new table has no members in the current epoch. -/
theorem Valid.table_unused {s : CoordSet} (h : s.Valid) (size : Nat) :
    Table (.replicate size .unused) s.stamp [] := by
  refine table_nil fun i => ?_
  rw [getD_replicate]
  exact h.current

/-- A larger table holds the same members. -/
theorem Valid.resize {s : CoordSet} (h : s.Valid) {size : Nat} (hsize : s.slots.size ≤ size) :
    (s.resize size).Valid ∧ (s.resize size).slots.size = size := by
  have hlarge := h.large
  have hroom := h.room
  have hall := (h.table_unused size).foldl_place s.toList (by simpa using h.nodup)
    (by rw [List.nil_append, length_toList, Array.size_replicate]; omega)
  rw [Array.size_replicate, List.nil_append] at hall
  have hslots : (s.resize size).slots
      = s.toList.foldl (place s.stamp) (.replicate size .unused) := by
    unfold CoordSet.resize toList
    rw [Array.foldl_toList]
  rw [← hslots] at hall
  exact ⟨⟨h.current, by omega, by rw [hall.2]; show s.members.size < size; omega, h.nodup,
    hall.1⟩, hall.2⟩

theorem Valid.reserve {s : CoordSet} (h : s.Valid) (keys : Nat) :
    (s.reserve keys).Valid ∧ (s.reserve keys).toList = s.toList := by
  unfold CoordSet.reserve
  split
  · rename_i hlt
    exact ⟨(h.resize (Nat.le_of_lt hlt)).1, rfl⟩
  · exact ⟨h, rfl⟩

/-- **Membership is what the list says.** -/
theorem Valid.contains_iff {s : CoordSet} (h : s.Valid) (c : Coord) :
    s.contains c = true ↔ c ∈ s.toList := by
  unfold contains probe?
  by_cases hc : c ∈ s.toList
  · obtain ⟨p, -, hprobe, hslot⟩ := h.table.probe_member hc
    rw [hprobe]
    exact ⟨fun _ => hc, fun _ => taken_iff.mpr (by rw [hslot])⟩
  · obtain ⟨k, -, hprobe, hfree, -⟩ := h.table.probe_new hc (by rw [length_toList]; exact h.room)
    rw [hprobe]
    exact ⟨fun h => absurd (taken_iff.mp h) hfree, fun h => absurd h hc⟩

private theorem tryInsert_roomy {s : CoordSet} (h : s.Valid)
    (hroom : s.members.size + 1 < s.slots.size) (c : Coord) :
    let r := match s.probe? c with
      | none => (false, s)
      | some pos =>
        if s.taken pos then (false, s)
        else (true, { s with
          slots := s.slots.setIfInBounds pos ⟨c, s.stamp⟩
          members := s.members.push c })
    r.2.Valid ∧ r.2.toList = addNew s.toList c ∧ (r.1 = true ↔ c ∉ s.toList) := by
  unfold probe? addNew
  by_cases hc : c ∈ s.toList
  · obtain ⟨p, -, hprobe, hslot⟩ := h.table.probe_member hc
    have htaken : s.taken p = true := taken_iff.mpr (by rw [hslot])
    simp only [hprobe, htaken, if_true, if_pos hc]
    exact ⟨h, trivial, by simp [hc]⟩
  · obtain ⟨k, hk, hprobe, hfree, hway⟩ :=
      h.table.probe_new hc (by rw [length_toList]; exact h.room)
    have htaken : s.taken ((home s.slots c + k) % s.slots.size) = false :=
      Bool.eq_false_iff.mpr fun h => hfree (taken_iff.mp h)
    simp only [hprobe, htaken, Bool.false_eq_true, if_false, if_neg hc]
    have hlist : (s.members.push c).toList = s.toList ++ [c] := Array.toList_push
    refine ⟨⟨h.current, ?_, ?_, ?_, ?_⟩, hlist, by simp [hc]⟩
    · simpa using h.large
    · simpa using hroom
    · show (s.members.push c).toList.Nodup
      rw [hlist, List.nodup_append]
      refine ⟨h.nodup, List.nodup_singleton c, ?_⟩
      intro a ha b hb heq
      rw [heq, List.mem_singleton.mp hb] at ha
      exact hc ha
    · show Table _ _ (s.members.push c).toList
      rw [hlist]
      exact h.table.set_free hc hk rfl hfree hway

/-- **Inserting adds a new member at the end, and tells whether it was new.** -/
theorem Valid.tryInsert {s : CoordSet} (h : s.Valid) (c : Coord) :
    (s.tryInsert c).2.Valid ∧ (s.tryInsert c).2.toList = addNew s.toList c ∧
      ((s.tryInsert c).1 = true ↔ c ∉ s.toList) := by
  unfold CoordSet.tryInsert
  have hlarge := h.large
  have hroom := h.room
  by_cases hcrowd : s.isCrowded = true
  · rw [if_pos hcrowd]
    have hle : s.slots.size ≤ s.slots.size * 2 := by omega
    obtain ⟨hv, hsize⟩ := h.resize hle
    refine tryInsert_roomy hv ?_ c
    rw [hsize]
    show s.members.size + 1 < s.slots.size * 2
    omega
  · rw [if_neg hcrowd]
    refine tryInsert_roomy h ?_ c
    unfold isCrowded at hcrowd
    rw [decide_eq_true_eq] at hcrowd
    omega

theorem Valid.insert {s : CoordSet} (h : s.Valid) (c : Coord) :
    (s.insert c).Valid ∧ (s.insert c).toList = addNew s.toList c :=
  ⟨(h.tryInsert c).1, (h.tryInsert c).2.1⟩

theorem Valid.insertAll (cs : List Coord) :
    ∀ {s : CoordSet}, s.Valid →
      (s.insertAll cs).Valid ∧ (s.insertAll cs).toList = cs.foldl addNew s.toList := by
  induction cs with
  | nil => intro s h; exact ⟨h, rfl⟩
  | cons c rest ih =>
      intro s h
      obtain ⟨hv, hlist⟩ := h.insert c
      have hrest := ih hv
      rw [hlist] at hrest
      exact hrest

/-- Forgetting the members leaves a set of the same kind. -/
theorem Valid.clear {s : CoordSet} (h : s.Valid) : s.clear.Valid ∧ s.clear.toList = [] := by
  unfold CoordSet.clear
  have hlarge := h.large
  by_cases hwrap : s.stamp + 1 = 0
  · -- The stamps ran out: every slot gets stamp 0 and the epochs start over.
    rw [if_pos hwrap]
    refine ⟨⟨(by decide : (0 : UInt32) < 1), by simpa using hlarge, by simp; omega,
      List.nodup_nil, table_nil ?_⟩, rfl⟩
    intro i
    show ((s.slots.map fun (slot : Slot) => ({ slot with stamp := 0 } : Slot)).getD i
      .unused).stamp < 1
    rw [Array.getD_eq_getD_getElem?, Array.getElem?_map]
    have hpos : (0 : UInt32) < 1 := by decide
    cases s.slots[i]? with
    | none => exact hpos
    | some slot => exact hpos
  · rw [if_neg hwrap]
    have hlt : s.stamp < s.stamp + 1 := by
      rw [UInt32.lt_iff_toNat_lt, UInt32.toNat_add]
      have hmax := s.stamp.toNat_lt
      have hne : s.stamp.toNat + 1 ≠ 2 ^ 32 := by
        intro heq
        exact hwrap (UInt32.toNat_inj.mp (by rw [UInt32.toNat_add]; simp [heq]))
      have hone : (1 : UInt32).toNat = 1 := rfl
      rw [hone, Nat.mod_eq_of_lt (by omega)]
      omega
    refine ⟨⟨UInt32.lt_trans h.current hlt, hlarge, by simp; omega, List.nodup_nil,
      table_nil ?_⟩, rfl⟩
    intro i
    exact UInt32.lt_of_le_of_lt (h.table.old i) hlt

theorem mem_foldl_addNew (cs : List Coord) :
    ∀ {ds : List Coord} {c : Coord}, c ∈ cs.foldl addNew ds ↔ c ∈ ds ∨ c ∈ cs := by
  induction cs with
  | nil => intro ds c; simp
  | cons d rest ih =>
      intro ds c
      rw [List.foldl_cons, ih, mem_addNew, List.mem_cons, or_assoc]

end Cellular.CoordSet
