/-
A set of cells answers like a list.

Whatever was asked of a set, it answers as if it had written down the cells that were inserted
since its members were last forgotten, one after the other, and looked them up there.  The
members are the cells on that list, each where it first stands.  Neither the table nor its size
shows, nor what earlier epochs left in it.

Every walk ends, also the ones that a growing table makes for its members: at each of them some
slot is still free (`Table.ends`), and a walk passes all slots within one round.
-/
import Cellular.Proofs.CoordSet
import Cellular.Proofs.CoordHash

namespace Cellular.CoordSet

variable {slots : Array Slot} {stamp : UInt32} {s : CoordSet}

/-! ### Calls -/

/-- What can be asked of a set. -/
inductive Call where
  | insert (c : Coord)
  | contains (c : Coord)
  | clear
  | reserve (keys : Nat)

/-- The set after a call. -/
def Call.run (s : CoordSet) : Call → CoordSet
  | .insert c => s.insert c
  | .contains _ => s
  | .clear => s.clear
  | .reserve keys => s.reserve keys

/-- The cells inserted since the members were last forgotten, first to last. -/
def Call.log (cs : List Coord) : Call → List Coord
  | .insert c => cs ++ [c]
  | .clear => []
  | .contains _ | .reserve _ => cs

/-! ### Walks -/

/-- The walk for a cell comes to a free slot within one round, and ends there or before. -/
structure Ends (slots : Array Slot) (stamp : UInt32) (c : Coord) : Prop where
  free : ∃ k < slots.size, (slots.getD ((home slots c + k) % slots.size) .unused).stamp ≠ stamp
  stops : ∃ p < slots.size, probeFrom slots stamp c slots.size (home slots c) = some p ∧
    Stops slots stamp c p

/-- The walks that placing cells makes, first to last: the table as it then is, and the cell. -/
def placings (stamp : UInt32) : Array Slot → List Coord → List (Array Slot × Coord)
  | _, [] => []
  | slots, c :: cs => (slots, c) :: placings stamp (place stamp slots c) cs

/-- The walks that moving the members to a table of the given size makes. -/
def moves (s : CoordSet) (size : Nat) : List (Array Slot × Coord) :=
  placings s.stamp (.replicate size .unused) s.toList

/-- The walks that a call makes. -/
def walks (s : CoordSet) : Call → List (Array Slot × Coord)
  | .insert c =>
    if s.isCrowded then
      s.moves (s.slots.size * 2) ++ [((s.resize (s.slots.size * 2)).slots, c)]
    else [(s.slots, c)]
  | .contains c => [(s.slots, c)]
  | .clear => []
  | .reserve keys => if s.slots.size < slotsFor keys then s.moves (slotsFor keys) else []

namespace Table

variable {ms : List Coord}

/-- **A table with a free slot ends every walk.** -/
theorem ends (t : Table slots stamp ms) (hlen : ms.length < slots.size) (c : Coord) :
    Ends slots stamp c := by
  refine ⟨t.free_on_way hlen c, ?_⟩
  by_cases hc : c ∈ ms
  · obtain ⟨p, hp, hprobe, hslot⟩ := t.probe_member hc
    exact ⟨p, hp, hprobe, Or.inr (by rw [hslot])⟩
  · obtain ⟨k, hk, hprobe, hfree, -⟩ := t.probe_new hc hlen
    exact ⟨_, Nat.mod_lt _ (by omega), hprobe, Or.inl hfree⟩

/-- Placing a list of new members ends all the walks that it makes. -/
theorem placings_end :
    ∀ (l : List Coord) {slots : Array Slot} {ms : List Coord}, Table slots stamp ms →
      (ms ++ l).Nodup → (ms ++ l).length ≤ slots.size →
      ∀ w ∈ placings stamp slots l, Ends w.1 stamp w.2 := by
  intro l
  induction l with
  | nil => intro slots ms _ _ _ w hw; exact absurd hw List.not_mem_nil
  | cons c rest ih =>
      intro slots ms t hnodup hlen w hw
      have hc : c ∉ ms := fun hmem =>
        (List.nodup_cons.mp (List.nodup_middle.mp hnodup)).1 (List.mem_append_left rest hmem)
      have hroom : ms.length < slots.size := by
        rw [List.length_append, List.length_cons] at hlen
        omega
      rcases List.mem_cons.mp hw with rfl | hrest
      · exact t.ends hroom c
      · have hassoc : ms ++ [c] ++ rest = ms ++ c :: rest := by simp
        exact ih (t.place hc hroom) (by rw [hassoc]; exact hnodup)
          (by rw [hassoc, size_place]; exact hlen) w hrest

end Table

theorem Valid.ends (h : s.Valid) (c : Coord) : Ends s.slots s.stamp c :=
  h.table.ends (by rw [length_toList]; exact h.room) c

/-- Moving to a larger table never fills it, so that every member finds a slot. -/
theorem Valid.moves_end (h : s.Valid) {size : Nat} (hsize : s.slots.size ≤ size) :
    ∀ w ∈ s.moves size, Ends w.1 s.stamp w.2 := by
  have hroom := h.room
  refine (h.table_unused size).placings_end s.toList ?_ ?_
  · simpa using h.nodup
  · rw [List.nil_append, length_toList, Array.size_replicate]
    omega

/-- **Every walk of every call ends.** -/
theorem Valid.walks_end (h : s.Valid) (call : Call) :
    ∀ w ∈ s.walks call, Ends w.1 s.stamp w.2 := by
  intro w hw
  cases call with
  | insert c =>
      unfold walks at hw
      dsimp only at hw
      split at hw
      · have hle : s.slots.size ≤ s.slots.size * 2 := by omega
        rcases List.mem_append.mp hw with hmove | hlast
        · exact h.moves_end hle w hmove
        · obtain rfl := List.mem_singleton.mp hlast
          exact (h.resize hle).1.ends c
      · obtain rfl := List.mem_singleton.mp hw
        exact h.ends c
  | contains c =>
      obtain rfl := List.mem_singleton.mp hw
      exact h.ends c
  | clear => exact absurd hw List.not_mem_nil
  | reserve keys =>
      unfold walks at hw
      dsimp only at hw
      split at hw
      · rename_i hlt
        exact h.moves_end (Nat.le_of_lt hlt) w hw
      · exact absurd hw List.not_mem_nil

/-! ### The table size -/

/-- The number of slots is a power of two. -/
def Binary (s : CoordSet) : Prop := ∃ k, s.slots.size = 2 ^ k

theorem slotsFor_binary (keys : Nat) : ∃ k, slotsFor keys = 2 ^ k := by
  unfold slotsFor
  rcases Nat.le_total 16 ((keys * 4 + 2) / 3).nextPowerOfTwo with hle | hle
  · rw [Nat.max_eq_right hle]
    exact Nat.isPowerOfTwo_nextPowerOfTwo _
  · rw [Nat.max_eq_left hle]
    exact ⟨4, rfl⟩

theorem Valid.binary_resize (h : s.Valid) {size : Nat} (hsize : s.slots.size ≤ size)
    (hpow : ∃ k, size = 2 ^ k) : (s.resize size).Binary := by
  unfold Binary
  rw [(h.resize hsize).2]
  exact hpow

/-- Writing into a slot does not change the number of slots. -/
theorem size_insert (s : CoordSet) (c : Coord) : (s.insert c).slots.size
    = (if s.isCrowded then s.resize (s.slots.size * 2) else s).slots.size := by
  unfold insert tryInsert
  generalize (if s.isCrowded then s.resize (s.slots.size * 2) else s) = t
  dsimp only
  split
  · rfl
  · split
    · rfl
    · exact Array.size_setIfInBounds

theorem Binary.insert (hbinary : s.Binary) (h : s.Valid) (c : Coord) : (s.insert c).Binary := by
  unfold Binary
  rw [size_insert]
  split
  · obtain ⟨k, hk⟩ := hbinary
    exact h.binary_resize (by omega) ⟨k + 1, by rw [hk, Nat.pow_succ]⟩
  · exact hbinary

theorem Binary.reserve (hbinary : s.Binary) (h : s.Valid) (keys : Nat) :
    (s.reserve keys).Binary := by
  unfold CoordSet.reserve
  split
  · rename_i hlt
    exact h.binary_resize (Nat.le_of_lt hlt) (slotsFor_binary keys)
  · exact hbinary

theorem Binary.clear (hbinary : s.Binary) : s.clear.Binary := by
  unfold CoordSet.clear
  dsimp only
  split
  · obtain ⟨k, hk⟩ := hbinary
    exact ⟨k, Array.size_map.trans hk⟩
  · exact hbinary

/-- The first slot of a walk is told by the low bits of the hash. -/
theorem Binary.home_eq (h : s.Binary) (c : Coord) :
    home s.slots c = (CoordHash.ofCoord c).toNat &&& (s.slots.size - 1) := by
  obtain ⟨k, hk⟩ := h
  rw [CoordHash.home_eq_mod hk, hk, Nat.and_two_pow_sub_one_eq_mod]

/-! ### The list -/

/-- A set that holds the cells of a list, in the order in which they first stand there. -/
structure Lists (s : CoordSet) (cs : List Coord) : Prop where
  valid : s.Valid
  binary : s.Binary
  toList_eq : s.toList = cs.foldl addNew []

theorem lists_withCapacity (keys : Nat) : (withCapacity keys).Lists [] := by
  refine ⟨valid_withCapacity keys, ?_, rfl⟩
  obtain ⟨k, hk⟩ := slotsFor_binary keys
  exact ⟨k, Array.size_replicate.trans hk⟩

/-- One call. -/
theorem Lists.run {cs : List Coord} (h : s.Lists cs) (call : Call) :
    (call.run s).Lists (call.log cs) := by
  obtain ⟨hvalid, hbinary, hlist⟩ := h
  cases call with
  | insert c =>
      obtain ⟨hnew, htoList⟩ := hvalid.insert c
      refine ⟨hnew, hbinary.insert hvalid c, ?_⟩
      show (s.insert c).toList = (cs ++ [c]).foldl addNew []
      rw [htoList, hlist, List.foldl_append]
      rfl
  | contains c => exact ⟨hvalid, hbinary, hlist⟩
  | clear => exact ⟨hvalid.clear.1, hbinary.clear, hvalid.clear.2⟩
  | reserve keys =>
      obtain ⟨hnew, htoList⟩ := hvalid.reserve keys
      exact ⟨hnew, hbinary.reserve hvalid keys, htoList.trans hlist⟩

/-- Any number of them. -/
theorem lists_run (calls : List Call) :
    ∀ {s : CoordSet} {cs : List Coord}, s.Lists cs →
      (calls.foldl Call.run s).Lists (calls.foldl Call.log cs) := by
  induction calls with
  | nil => exact fun h => h
  | cons call rest ih => exact fun h => ih (h.run call)

theorem Lists.mem_iff {cs : List Coord} (h : s.Lists cs) {c : Coord} : c ∈ s.toList ↔ c ∈ cs := by
  rw [h.toList_eq, mem_foldl_addNew]
  simp

/-- Taking over only what is new keeps the order of the first places. -/
theorem pairwise_foldl_addNew (cs : List Coord) :
    (cs.foldl addNew []).Pairwise fun c d => cs.idxOf c < cs.idxOf d := by
  induction cs using List.reverseRecOn with
  | nil => exact .nil
  | append_singleton cs c ih =>
      have hmem : ∀ d, d ∈ cs.foldl addNew [] ↔ d ∈ cs := by simp [mem_foldl_addNew]
      have hold : (cs.foldl addNew []).Pairwise
          fun d e => (cs ++ [c]).idxOf d < (cs ++ [c]).idxOf e := by
        refine ih.imp_of_mem fun {d e} hd he hlt => ?_
        rwa [List.idxOf_append_of_mem ((hmem d).mp hd), List.idxOf_append_of_mem ((hmem e).mp he)]
      rw [List.foldl_append]
      show List.Pairwise _
        (if c ∈ cs.foldl addNew [] then cs.foldl addNew [] else cs.foldl addNew [] ++ [c])
      split
      · exact hold
      · rename_i hnew
        rw [hmem] at hnew
        refine List.pairwise_append.mpr ⟨hold, List.pairwise_singleton _ c, fun d hd e he => ?_⟩
        obtain rfl := List.mem_singleton.mp he
        rw [hmem] at hd
        have hlt := List.idxOf_lt_length_of_mem hd
        rw [List.idxOf_append_of_mem hd, List.idxOf_append_of_notMem hnew]
        omega

/--
**A set of cells answers like the list of its insertions.**  Let any calls be made to a set that
was empty, with room for any number of members, and let the list be that of the cells inserted
since it was last cleared, with repetitions.  Then every walk that the next call makes through a
table, whatever that call is, comes to a free slot within one round and ends; it starts where the
low bits of the hash say.  Inserting a cell tells that it is new exactly if it is not on the list,
and a cell is found exactly if it is on the list.  The members are the cells on the list, each of
them once and in the order of their first insertion.
-/
theorem answers_like_list (keys : Nat) (calls : List Call) :
    let s := calls.foldl Call.run (withCapacity keys)
    let cs := calls.foldl Call.log []
    (∀ call, ∀ w ∈ s.walks call, Ends w.1 s.stamp w.2) ∧
      (∀ c, home s.slots c = (CoordHash.ofCoord c).toNat &&& (s.slots.size - 1)) ∧
      (∀ c, (s.tryInsert c).1 = true ↔ c ∉ cs) ∧ (∀ c, s.contains c = true ↔ c ∈ cs) ∧
      s.toList.Nodup ∧ (∀ c, c ∈ s.toList ↔ c ∈ cs) ∧
      s.toList.Pairwise fun c d => cs.idxOf c < cs.idxOf d := by
  intro s cs
  have h : s.Lists cs := lists_run calls (lists_withCapacity keys)
  refine ⟨h.valid.walks_end, h.binary.home_eq, fun c => ?_, fun c => ?_, h.valid.nodup,
    fun c => h.mem_iff, ?_⟩
  · rw [(h.valid.tryInsert c).2.2, h.mem_iff]
  · rw [h.valid.contains_iff, h.mem_iff]
  · rw [h.toList_eq]
    exact pairwise_foldl_addNew cs

/-- A set that was cleared with a member in it, and whose table has to grow for the next cell. -/
theorem answers_like_list_when_growing :
    let calls : List Call := [.insert ⟨0, 0⟩, .clear, .insert ⟨1, 3⟩] ++
      (List.range 12).map fun (i : Nat) => .insert ⟨1, 11 - i⟩
    let s := calls.foldl Call.run (withCapacity 0)
    s.isCrowded = true ∧
      ((s.resize (s.slots.size * 2)).slots, ⟨1, 12⟩) ∈ s.walks (.insert ⟨1, 12⟩) ∧
      Ends (s.resize (s.slots.size * 2)).slots s.stamp ⟨1, 12⟩ ∧
      (s.tryInsert ⟨1, 12⟩).1 = true ∧ (s.tryInsert ⟨1, 5⟩).1 = false ∧
      s.contains ⟨1, 5⟩ = true ∧ s.contains ⟨0, 0⟩ = false ∧ ⟨1, 5⟩ ∈ s.toList := by
  intro calls s
  have hcrowded : s.isCrowded = true := by decide +kernel
  have hall := answers_like_list 0 calls
  rw [show calls.foldl Call.run (withCapacity 0) = s from rfl] at hall
  clear_value s
  obtain ⟨hends, -, hnew, hfound, -, hmem, -⟩ := hall
  have hwalk : ((s.resize (s.slots.size * 2)).slots, ⟨1, 12⟩) ∈ s.walks (.insert ⟨1, 12⟩) := by
    unfold walks
    simp only [hcrowded, if_true]
    exact List.mem_append_right _ (List.mem_singleton.mpr rfl)
  refine ⟨hcrowded, hwalk, hends _ _ hwalk, (hnew _).mpr (by decide), ?_, (hfound _).mpr (by decide),
    ?_, (hmem _).mpr (by decide)⟩
  · exact Bool.eq_false_iff.mpr (mt (hnew _).mp (by decide))
  · exact Bool.eq_false_iff.mpr (mt (hfound _).mp (by decide))

end Cellular.CoordSet
