/-
What a specification of configurations stands for is the same after every motion.

A quarter turn and a mirror image of the plane permute the cells of a family, and the
tables of the family say how: `move_source` reads each table against the offsets.  From
there on a motion of the plane is a permutation of bits.  Permuting twice is permuting
by the composed table, so the twelve images of a configuration are the twelve tables of
`sources` applied to it, and these tables are closed under composing with a motion.

A set of configurations is `Closed` if motions do not lead out of it.  Images are
closed, and so are all the configurations with one count, since a permutation keeps the
count.  A motion undoes itself after three more of its kind, so what is left of a closed
set when another is taken away is closed as well.  These are all the ways in which a
specification is expanded.
-/
import Mathlib.Data.List.Perm.Basic
import Mathlib.Data.Nat.Bitwise
import Cellular.Isotropic.Transitions
import Cellular.Proofs.Chain

namespace Cellular

/-! ### Motions of the plane -/

/-- The motions that generate the symmetries of the square. -/
inductive Motion where
  | quarterTurn
  | mirror

namespace Motion

/-- Where a cell goes. -/
def cell : Motion → Coord → Coord
  | quarterTurn, c => ⟨c.col, -c.row⟩
  | mirror, c => ⟨c.row, -c.col⟩

/-- Where a cell comes from. -/
def back : Motion → Coord → Coord
  | quarterTurn, c => ⟨-c.col, c.row⟩
  | mirror, c => ⟨c.row, -c.col⟩

/-- What becomes of a displacement. -/
def move : Motion → Offset → Offset
  | quarterTurn, o => ⟨o.dx, -o.dy⟩
  | mirror, o => ⟨o.dy, -o.dx⟩

@[simp] theorem back_cell (m : Motion) (c : Coord) : m.back (m.cell c) = c := by
  cases m <;> ext <;> simp [back, cell]

@[simp] theorem cell_back (m : Motion) (c : Coord) : m.cell (m.back c) = c := by
  cases m <;> ext <;> simp [back, cell]

theorem cell_add (m : Motion) (c : Coord) (o : Offset) : m.cell (c + o) = m.cell c + m.move o := by
  cases m <;> ext <;> simp [cell, move] <;> omega

theorem cell_injective (m : Motion) {c d : Coord} (h : m.cell c = m.cell d) : c = d := by
  rw [← m.back_cell c, h, m.back_cell]

/-- The table that says from which cell of a family each cell takes its state. -/
def source (m : Motion) (f : Family) : List Nat :=
  match m with
  | quarterTurn => f.symmetry.turn
  | mirror => f.symmetry.flip

/-- **The tables are the motions.**  A cell takes its state from the cell that the motion
brings to its place. -/
theorem move_source (m : Motion) (f : Family) :
    (m.source f).map (fun i => m.move (f.offsets.getD i .zero)) = f.offsets := by
  cases m <;> cases f <;> decide

theorem source_perm (m : Motion) (f : Family) : (m.source f).Perm (List.range f.cellCount) := by
  cases m <;> cases f <;> decide

theorem length_source (m : Motion) (f : Family) : (m.source f).length = f.cellCount := by
  rw [(m.source_perm f).length_eq, List.length_range]

theorem lt_of_mem_source {m : Motion} {f : Family} {i : Nat} (hi : i ∈ m.source f) :
    i < f.cellCount := List.mem_range.mp ((m.source_perm f).mem_iff.mp hi)

end Motion

/-! ### Permuted configurations -/

/-- One table after the other. -/
def after (first second : List Nat) : List Nat := second.map fun i => first.getD i 0

namespace Configuration

theorem testBit_ofBits (bs : List Bool) : ∀ i, (ofBits bs).testBit i = bs.getD i false := by
  induction bs with
  | nil => intro i; simp [ofBits]
  | cons b rest ih =>
      intro i
      cases i with
      | zero =>
          show (b.toNat + 2 * ofBits rest).testBit 0 = b
          cases b <;> simp [Nat.testBit_zero, Nat.add_mod]
      | succ i =>
          show (b.toNat + 2 * ofBits rest).testBit (i + 1) = rest.getD i false
          have hhalf : (b.toNat + 2 * ofBits rest) / 2 = ofBits rest := by
            have hb := Bool.toNat_lt b
            omega
          rw [Nat.testBit_succ, hhalf, ih]

theorem ofBits_lt (bs : List Bool) : ofBits bs < 2 ^ bs.length := by
  induction bs with
  | nil => simp [ofBits]
  | cons b rest ih =>
      have hb := Bool.toNat_lt b
      calc b.toNat + 2 * ofBits rest
          < 2 + 2 * ofBits rest := Nat.add_lt_add_right hb _
        _ = 2 * (ofBits rest + 1) := Nat.add_comm 2 _
        _ ≤ 2 * 2 ^ rest.length := Nat.mul_le_mul_left 2 ih
        _ = 2 ^ (rest.length + 1) := Nat.pow_succ'.symm

theorem testBit_of_le {c : Configuration} {n i : Nat} (hc : c < 2 ^ n) (hi : n ≤ i) :
    c.testBit i = false :=
  Nat.testBit_lt_two_pow (Nat.lt_of_lt_of_le hc (Nat.pow_le_pow_right (by omega) hi))

/-- Configurations are equal if they are equal cell by cell. -/
theorem eq_of_testBit {c d : Configuration} {n : Nat} (hc : c < 2 ^ n) (hd : d < 2 ^ n)
    (h : ∀ i < n, c.testBit i = d.testBit i) : c = d := by
  refine Nat.eq_of_testBit_eq fun i => ?_
  by_cases hi : i < n
  · exact h i hi
  · rw [testBit_of_le hc (Nat.le_of_not_lt hi), testBit_of_le hd (Nat.le_of_not_lt hi)]

theorem permute_lt (c : Configuration) (s : List Nat) : c.permute s < 2 ^ s.length := by
  have h := ofBits_lt (s.map c.testBit)
  rwa [List.length_map] at h

theorem testBit_permute (c : Configuration) {s : List Nat} {i : Nat} (hi : i < s.length) :
    (c.permute s).testBit i = c.testBit (s.getD i 0) := by
  unfold permute
  rw [testBit_ofBits, List.getD_eq_getElem _ _ (by rw [List.length_map]; exact hi),
    List.getElem_map, List.getD_eq_getElem _ _ hi]

/-- Permuting twice is permuting by the composed table. -/
theorem permute_permute (c : Configuration) {a b : List Nat} (hb : ∀ i ∈ b, i < a.length) :
    (c.permute a).permute b = c.permute (after a b) := by
  unfold after
  show ofBits (b.map _) = ofBits ((b.map _).map _)
  rw [List.map_map]
  congr 1
  exact List.map_congr_left fun i hi => testBit_permute c (hb i hi)

theorem permute_range {c : Configuration} {n : Nat} (hc : c < 2 ^ n) :
    c.permute (List.range n) = c := by
  have hp := c.permute_lt (List.range n)
  rw [List.length_range] at hp
  refine eq_of_testBit hp hc fun i hi => ?_
  rw [testBit_permute c (by rw [List.length_range]; exact hi), List.getD_eq_getElem _ _ (by simpa),
    List.getElem_range]

theorem count_eq {c : Configuration} {n : Nat} (hn : n ≤ 16) (hc : c < 2 ^ n) :
    c.count = (List.range n).countP c.testBit := by
  obtain ⟨k, hk⟩ := Nat.exists_eq_add_of_le hn
  unfold count
  rw [hk, List.range_add, List.countP_append, Nat.add_eq_left, List.countP_eq_zero]
  intro i hi
  obtain ⟨j, -, rfl⟩ := List.mem_map.mp hi
  rw [testBit_of_le hc (Nat.le_add_right n j)]
  exact Bool.false_ne_true

/-- A permutation of the cells keeps the number of those that are on. -/
theorem count_permute {c : Configuration} {s : List Nat} {n : Nat} (hn : n ≤ 16) (hc : c < 2 ^ n)
    (hs : s.Perm (List.range n)) : (c.permute s).count = c.count := by
  have hlen : s.length = n := by rw [hs.length_eq, List.length_range]
  have hp : c.permute s < 2 ^ n := hlen ▸ c.permute_lt s
  have hbits : (List.range n).map (c.permute s).testBit = s.map c.testBit := by
    refine List.ext_getElem (by simp [hlen]) fun i hi hi' => ?_
    rw [List.length_map] at hi'
    rw [List.getElem_map, List.getElem_map, List.getElem_range, testBit_permute c hi',
      List.getD_eq_getElem _ _ hi']
  calc (c.permute s).count
      = ((List.range n).map (c.permute s).testBit).countP id := by
        rw [count_eq hn hp, List.countP_map]
        rfl
    _ = (s.map c.testBit).countP id := by rw [hbits]
    _ = ((List.range n).map c.testBit).countP id := (hs.map c.testBit).countP_eq id
    _ = c.count := by
        rw [count_eq hn hc, List.countP_map]
        rfl

end Configuration

/-! ### Sets that no motion leaves -/

namespace Family

variable {f : Family} {P Q : Configuration → Prop} {c : Configuration}

theorem nodup_offsets (f : Family) : f.offsets.Nodup := by
  cases f <;> decide

/-- The tables of the twelve images: each turn with its reflections. -/
def sources (f : Family) : List (List Nat) :=
  let turned (s : List Nat) := after s f.symmetry.turn
  let still := List.range f.cellCount
  [still, turned still, turned (turned still), turned (turned (turned still))].flatMap
    fun s => [s, after s f.symmetry.flip, after s f.symmetry.flop]

/-- The images of a configuration are the configuration under the twelve tables. -/
theorem images_eq (hc : c < 2 ^ f.cellCount) : f.images c = f.sources.map c.permute := by
  have hlen : ∀ s ∈ f.sources, ∀ i ∈ f.symmetry.turn ++ f.symmetry.flip ++ f.symmetry.flop,
      i < s.length := by
    cases f <;> decide
  have hturn : ∀ s ∈ f.sources,
      (c.permute s).permute f.symmetry.turn = c.permute (after s f.symmetry.turn) := fun s hs =>
    c.permute_permute fun i hi => hlen s hs i (by simp [hi])
  have hflip : ∀ s ∈ f.sources,
      (c.permute s).permute f.symmetry.flip = c.permute (after s f.symmetry.flip) := fun s hs =>
    c.permute_permute fun i hi => hlen s hs i (by simp [hi])
  have hflop : ∀ s ∈ f.sources,
      (c.permute s).permute f.symmetry.flop = c.permute (after s f.symmetry.flop) := fun s hs =>
    c.permute_permute fun i hi => hlen s hs i (by simp [hi])
  unfold sources at hturn hflip hflop ⊢
  simp only [List.flatMap_cons, List.flatMap_nil, List.append_nil, List.cons_append,
    List.nil_append, List.mem_cons, List.not_mem_nil, or_false, forall_eq_or_imp, forall_eq]
    at hturn hflip hflop ⊢
  have hstill := Configuration.permute_range hc
  simp only [images, reflections, List.flatMap_cons, List.flatMap_nil, List.append_nil,
    List.cons_append, List.nil_append, List.map_cons, List.map_nil, ← hturn, ← hflip, ← hflop,
    hstill]

theorem sources_closed (f : Family) (m : Motion) {s : List Nat} (hs : s ∈ f.sources) :
    after s (m.source f) ∈ f.sources := by
  have h : ∀ s ∈ f.sources, after s (m.source f) ∈ f.sources := by
    cases f <;> cases m <;> decide
  exact h s hs

theorem length_of_mem_sources {s : List Nat} (hs : s ∈ f.sources) : s.length = f.cellCount := by
  have h : ∀ s ∈ f.sources, s.length = f.cellCount := by
    cases f <;> decide
  exact h s hs

/-- The configurations are configurations of the family, and no motion leads from one of
them to another one. -/
def Closed (f : Family) (P : Configuration → Prop) : Prop :=
  ∀ c, P c → c < 2 ^ f.cellCount ∧ ∀ m : Motion, P (c.permute (m.source f))

/-- Four equal motions are none. -/
theorem permute_four (m : Motion) (hc : c < 2 ^ f.cellCount) :
    (((c.permute (m.source f)).permute (m.source f)).permute (m.source f)).permute (m.source f)
      = c := by
  have hlt : ∀ {s : List Nat}, s.length = f.cellCount → ∀ i ∈ m.source f, i < s.length := by
    intro s hs i hi
    rw [hs]
    exact Motion.lt_of_mem_source hi
  have hlen : ∀ s : List Nat, (after s (m.source f)).length = f.cellCount := by
    intro s
    unfold after
    rw [List.length_map, m.length_source]
  have hfour : after (after (after (m.source f) (m.source f)) (m.source f)) (m.source f)
      = List.range f.cellCount := by
    cases m <;> cases f <;> decide
  rw [c.permute_permute (hlt (m.length_source f)), c.permute_permute (hlt (hlen _)),
    c.permute_permute (hlt (hlen _)), hfour, Configuration.permute_range hc]

/-- A motion leads neither out of a closed set nor into it. -/
theorem Closed.permute_iff (h : f.Closed P) (hc : c < 2 ^ f.cellCount) (m : Motion) :
    P (c.permute (m.source f)) ↔ P c := by
  constructor
  · intro hp
    have hback := (h _ ((h _ ((h _ hp).2 m)).2 m)).2 m
    rwa [permute_four m hc] at hback
  · intro hp
    exact (h c hp).2 m

theorem Closed.or (hp : f.Closed P) (hq : f.Closed Q) : f.Closed fun c => P c ∨ Q c := by
  intro c hor
  rcases hor with hc | hc
  · exact ⟨(hp c hc).1, fun m => Or.inl ((hp c hc).2 m)⟩
  · exact ⟨(hq c hc).1, fun m => Or.inr ((hq c hc).2 m)⟩

theorem Closed.and_not (hp : f.Closed P) (hq : f.Closed Q) : f.Closed fun c => P c ∧ ¬Q c := by
  intro c hand
  obtain ⟨hc, hnot⟩ := hand
  refine ⟨(hp c hc).1, fun m => ⟨(hp c hc).2 m, fun hmoved => hnot ?_⟩⟩
  exact (hq.permute_iff (hp c hc).1 m).mp hmoved

theorem Closed.exists {α : Type} {l : List α} {P : α → Configuration → Prop}
    (h : ∀ x ∈ l, f.Closed (P x)) : f.Closed fun c => ∃ x ∈ l, P x c := by
  intro c hex
  obtain ⟨x, hx, hc⟩ := hex
  exact ⟨(h x hx c hc).1, fun m => ⟨x, hx, (h x hx c hc).2 m⟩⟩

/-- **The images of a configuration are closed.** -/
theorem closed_images (hc : c < 2 ^ f.cellCount) : f.Closed (· ∈ f.images c) := by
  rw [images_eq hc]
  intro d hd
  obtain ⟨s, hs, rfl⟩ := List.mem_map.mp hd
  have hlen := length_of_mem_sources hs
  refine ⟨hlen ▸ c.permute_lt s, fun m => List.mem_map.mpr ⟨_, f.sources_closed m hs, ?_⟩⟩
  refine (c.permute_permute fun i hi => ?_).symm
  rw [hlen]
  exact Motion.lt_of_mem_source hi

theorem mem_withCount {c : Configuration} {count : Nat} :
    c ∈ f.withCount count ↔ c < 2 ^ f.cellCount ∧ c.count = count := by
  unfold withCount
  rw [List.mem_filter, List.mem_range, Nat.one_shiftLeft, decide_eq_true_eq]

/-- **The configurations with one count are closed.** -/
theorem closed_withCount (f : Family) (count : Nat) : f.Closed (· ∈ f.withCount count) := by
  have hcells : f.cellCount ≤ 16 := by cases f <;> decide
  intro c hc
  obtain ⟨hlt, hcount⟩ := mem_withCount.mp hc
  refine ⟨hlt, fun m => mem_withCount.mpr ⟨?_, ?_⟩⟩
  · have hmoved := c.permute_lt (m.source f)
    rwa [m.length_source] at hmoved
  · exact (Configuration.count_permute hcells hlt (m.source_perm f)).trans hcount

/-- After a minus sign a group stands for the others with its count. -/
theorem mem_chosen_negated {count : Nat} {named : List Configuration} {c : Configuration} :
    c ∈ f.chosen count true named ↔ c ∈ f.withCount count ∧ ¬c ∈ named := by
  unfold chosen
  rw [if_pos rfl]
  simp only [List.mem_filter, Std.ExtTreeSet.contains_ofList, Bool.not_eq_true',
    List.contains_eq_mem, decide_eq_false_iff_not]

/-- What a group stands for is closed if the configurations that it names are. -/
theorem closed_chosen (count : Nat) (negated : Bool) {named : List Configuration}
    (h : f.Closed (· ∈ named)) : f.Closed (· ∈ f.chosen count negated named) := by
  cases negated with
  | false => exact h
  | true =>
      have hrest := (f.closed_withCount count).and_not h
      intro c hc
      obtain ⟨hlt, hmoved⟩ := hrest c (mem_chosen_negated.mp hc)
      exact ⟨hlt, fun m => mem_chosen_negated.mpr (hmoved m)⟩

end Family

end Cellular
