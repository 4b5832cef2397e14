/-
Two copies of a pattern.

A pattern replicates when it has become two copies of itself that share no cell, moved by opposite
displacements (`Grid.TwoCopies`).  The test for it asks for less: there are twice as many cells,
and each of them has its state from one copy or from the other, the displacement being guessed
from the first cells of both patterns in reading order.

That is enough.  The cells lie among those of the copies, which are no more than twice as many, so
every cell of either copy is there and none is shared (`twoCopies_of_covered`).  And no
displacement is missed, for of two opposite displacements one leads back in reading order, and the
first cell of the whole is the first cell of the copy moved back (`TwoCopies.sub_first`).
-/
import Cellular.Proofs.Identification

namespace Cellular

/-! ### Opposite displacements -/

namespace Offset

/-- Does the displacement lead to later cells in reading order? -/
def Forward (o : Offset) : Prop := 0 < o.dy ∨ o.dy = 0 ∧ 0 < o.dx

theorem forward_or_neg {o : Offset} (h : o ≠ .zero) : o.Forward ∨ (-o).Forward := by
  simp only [ne_eq, Offset.ext_iff, Forward, neg_dy, neg_dx, zero] at h ⊢
  omega

end Offset

/-! ### Two copies -/

namespace Grid

variable {g h : Grid} {d : Offset} {a b : Coord} {s t : State} {rest others : List (Coord × State)}

/-- The pattern `h` is made of two copies of `g` that share no cell, one moved by `d` and the other
by the opposite displacement. -/
structure TwoCopies (g : Grid) (d : Offset) (h : Grid) : Prop where
  moves : d ≠ .zero
  /-- The live cells are those of the copies. -/
  union : ∀ c, h.get c ≠ 0 ↔ (g.translate d).get c ≠ 0 ∨ (g.translate (-d)).get c ≠ 0
  apart : ∀ c, (g.translate d).get c = 0 ∨ (g.translate (-d)).get c = 0
  /-- Every cell has the state that it has in its copy. -/
  there : ∀ c, (g.translate d).get c ≠ 0 → h.get c = (g.translate d).get c
  back : ∀ c, (g.translate (-d)).get c ≠ 0 → h.get c = (g.translate (-d)).get c

/-- It does not matter which copy is named first. -/
theorem TwoCopies.neg (hc : g.TwoCopies d h) : g.TwoCopies (-d) h where
  moves := mt Offset.neg_eq_zero.mp hc.moves
  union := fun c => by rw [Offset.neg_neg, hc.union, or_comm]
  apart := fun c => by rw [Offset.neg_neg]; exact (hc.apart c).symm
  there := hc.back
  back := fun c => by rw [Offset.neg_neg]; exact hc.there c

/-- The places of the cells of both copies. -/
def twice (g : Grid) (d : Offset) : List Coord := g.coords.map (· + d) ++ g.coords.map (· + -d)

theorem mem_coords_map {c : Coord} : c ∈ g.coords.map (· + d) ↔ (g.translate d).get c ≠ 0 := by
  rw [get_translate_eq, ← mem_coords, List.mem_map]
  constructor
  · rintro ⟨e, he, rfl⟩
    rwa [Coord.add_neg_cancel]
  · intro hc
    exact ⟨c + -d, hc, Coord.neg_add_cancel c d⟩

theorem mem_twice {c : Coord} :
    c ∈ g.twice d ↔ (g.translate d).get c ≠ 0 ∨ (g.translate (-d)).get c ≠ 0 := by
  unfold twice
  rw [List.mem_append, mem_coords_map, mem_coords_map]

theorem length_twice (g : Grid) (d : Offset) : (g.twice d).length = 2 * g.size := by
  unfold twice
  rw [List.length_append, List.length_map, List.length_map, length_coords, Nat.two_mul]

/-- No place is listed twice exactly if the copies share no cell. -/
theorem nodup_twice_iff :
    (g.twice d).Nodup ↔ ∀ c, (g.translate d).get c = 0 ∨ (g.translate (-d)).get c = 0 := by
  have hmoved : ∀ o : Offset, (g.coords.map (· + o)).Nodup := fun o =>
    (nodup_coords g).map fun c e heq => by
      rw [← Coord.add_neg_cancel c o, ← Coord.add_neg_cancel e o]
      exact congrArg (· + -o) heq
  unfold twice
  rw [List.nodup_append', and_iff_right (hmoved d), and_iff_right (hmoved (-d)),
    List.disjoint_left]
  refine forall_congr' fun c => ?_
  rw [mem_coords_map, mem_coords_map, not_not]
  exact or_iff_not_imp_left.symm

/-- Two copies have twice as many cells. -/
theorem TwoCopies.size_eq (hc : g.TwoCopies d h) : h.size = 2 * g.size := by
  have hperm : h.coords.Perm (g.twice d) := by
    refine (List.perm_ext_iff_of_nodup (nodup_coords h) (nodup_twice_iff.mpr hc.apart)).mpr
      fun c => ?_
    rw [mem_coords, mem_twice, hc.union]
  rw [← length_coords, hperm.length_eq, length_twice]

/-- **Twice as many cells, each from one of the copies, are both copies.** -/
theorem twoCopies_of_covered (hd : d ≠ .zero) (hsize : h.size = 2 * g.size)
    (hcovered : ∀ c, h.get c ≠ 0 →
      (g.translate (-d)).get c = h.get c ∨ (g.translate d).get c = h.get c) :
    g.TwoCopies d h := by
  have hsub : h.coords ⊆ g.twice d := by
    intro c hc
    have hlive := mem_coords.mp hc
    rcases hcovered c hlive with heq | heq
    · exact mem_twice.mpr (.inr (heq ▸ hlive))
    · exact mem_twice.mpr (.inl (heq ▸ hlive))
  -- A list without repetitions inside of one that is no longer has the same members.
  have hperm : h.coords.Perm (g.twice d) :=
    (List.subperm_of_subset (nodup_coords h) hsub).perm_of_length_le
      (by rw [length_twice, length_coords, hsize])
  have hunion : ∀ c, h.get c ≠ 0 ↔ (g.translate d).get c ≠ 0 ∨ (g.translate (-d)).get c ≠ 0 :=
    fun c => by rw [← mem_coords, hperm.mem_iff, mem_twice]
  have hapart := nodup_twice_iff.mp (hperm.nodup_iff.mp (nodup_coords h))
  refine ⟨hd, hunion, hapart, fun c hc => ?_, fun c hc => ?_⟩
  · have hlive := (hunion c).mpr (.inl hc)
    have hother := (hapart c).resolve_left hc
    refine ((hcovered c hlive).resolve_left fun heq => hlive ?_).symm
    rw [← heq, hother]
  · have hlive := (hunion c).mpr (.inr hc)
    have hother := (hapart c).resolve_right hc
    refine ((hcovered c hlive).resolve_right fun heq => hlive ?_).symm
    rw [← heq, hother]

theorem TwoCopies.covered (hc : g.TwoCopies d h) {c : Coord} (hlive : h.get c ≠ 0) :
    (g.translate (-d)).get c = h.get c ∨ (g.translate d).get c = h.get c :=
  ((hc.union c).mp hlive).symm.imp (fun hback => (hc.back c hback).symm)
    fun hthere => (hc.there c hthere).symm

/-- **The first cell of both copies is that of the copy moved back.** -/
theorem TwoCopies.sub_first (hc : g.TwoCopies d h) (hd : d.Forward)
    (hg : g.toList = (a, s) :: rest) (hh : h.toList = (b, t) :: others) : a - b = d := by
  obtain ⟨ha, hfirst⟩ := first_of_toList hg
  obtain ⟨hb, hfirst'⟩ := first_of_toList hh
  have hback : h.get (a + -d) ≠ 0 := by
    refine (hc.union _).mpr (.inr ?_)
    rwa [get_translate]
  have hle := hfirst' _ hback
  unfold Offset.Forward at hd
  -- The first cell of the whole comes from a cell of `g`, which comes no earlier than `a`.
  have hfrom := (hc.union b).mp hb
  rw [get_translate_eq, get_translate_eq, Offset.neg_neg] at hfrom
  simp only [Coord.add_row, Coord.add_col, Offset.neg_dy, Offset.neg_dx] at hle
  rcases hfrom with hthere | hback'
  · have hge := hfirst _ hthere
    simp only [Coord.add_row, Coord.add_col, Offset.neg_dy, Offset.neg_dx] at hge
    omega
  · have hge := hfirst _ hback'
    simp only [Coord.add_row, Coord.add_col] at hge
    ext <;> simp only [Coord.sub_dy, Coord.sub_dx] <;> omega

end Grid

/-! ### The test -/

namespace Reference

variable {r : Reference} {g h : Grid} {d o : Offset}

/-- The reference lists the cells of its grid, and has its smallest box. -/
structure Valid (r : Reference) : Prop where
  cells : r.cells = r.grid.toList
  bounds : r.grid.tightBounds = some r.bounds

theorem Valid.length_cells (hr : r.Valid) : r.cells.length = r.grid.size := by
  rw [hr.cells, Grid.length_toList]

/-- A grid with a smallest box has cells. -/
theorem Valid.cells_ne_nil (hr : r.Valid) : r.cells ≠ [] := by
  intro hnil
  have hcoords : r.grid.coords = [] := by
    rw [← Grid.map_fst_toList, ← hr.cells, hnil, List.map_nil]
  have hbounds := hr.bounds
  unfold Grid.tightBounds at hbounds
  rw [hcoords] at hbounds
  simp [Bounds.enclosing?] at hbounds

/-- A grid with cells has a reference. -/
theorem exists_ofGrid? (hg : g.isEmpty = false) :
    ∃ r, ofGrid? g = some r ∧ r.grid = g ∧ r.Valid := by
  obtain ⟨b, hb⟩ := Grid.exists_tightBounds hg
  refine ⟨⟨g, g.toList, b⟩, ?_, rfl, rfl, hb⟩
  unfold ofGrid?
  rw [hb, Option.map_some]

/-- The displacement that the test answers is one of two copies. -/
theorem Valid.of_twoCopies? (hr : r.Valid) (ho : r.twoCopies? h = some o) :
    r.grid.TwoCopies o h := by
  unfold twoCopies? at ho
  split at ho
  · simp at ho
  · rename_i hsize
    simp only at ho
    split at ho
    · split at ho
      · rename_i htest
        obtain rfl := Option.some.inj ho
        simp only [Bool.and_eq_true, decide_eq_true_eq, List.all_eq_true, Bool.or_eq_true] at htest
        obtain ⟨hmoves, hcopied⟩ := htest
        refine Grid.twoCopies_of_covered hmoves ?_ fun c hlive => ?_
        · rw [← hr.length_cells]
          exact not_not.mp hsize
        · rw [Grid.get_translate_eq, Grid.get_translate_eq, Offset.neg_neg]
          exact hcopied (c, h.get c) (Grid.mem_toList.mpr ⟨rfl, hlive⟩)
      · simp at ho
    · simp at ho

/-- Two copies pass the test with the displacement that leads forward. -/
theorem Valid.twoCopies?_of_forward (hr : r.Valid) (hc : r.grid.TwoCopies d h) (hd : d.Forward) :
    r.twoCopies? h = some d := by
  have hsize : h.size = 2 * r.cells.length := by rw [hr.length_cells, hc.size_eq]
  obtain ⟨⟨a, s⟩, rest, hcells⟩ := List.exists_cons_of_ne_nil hr.cells_ne_nil
  have hnow : h.toList ≠ [] := by
    intro hnil
    have hlength := Grid.length_toList h
    rw [hnil, hsize, hcells] at hlength
    simp at hlength
  obtain ⟨⟨b, t⟩, others, hlist⟩ := List.exists_cons_of_ne_nil hnow
  have hfirst : a - b = d := hc.sub_first hd (hr.cells ▸ hcells) hlist
  unfold twoCopies?
  rw [if_neg (not_not.mpr hsize)]
  simp only [hcells, hlist, hfirst]
  rw [← hlist, if_pos]
  simp only [Bool.and_eq_true, decide_eq_true_eq, List.all_eq_true, Bool.or_eq_true]
  refine ⟨hc.moves, fun p hp => ?_⟩
  obtain ⟨hstate, hlive⟩ := Grid.mem_toList.mp hp
  have hcovered := hc.covered (c := p.1) (by rwa [hstate])
  rwa [Grid.get_translate_eq, Grid.get_translate_eq, Offset.neg_neg, hstate] at hcovered

/-- Two copies pass the test, with one of their displacements. -/
theorem Valid.twoCopies?_of_twoCopies (hr : r.Valid) (hc : r.grid.TwoCopies d h) :
    r.twoCopies? h = some d ∨ r.twoCopies? h = some (-d) :=
  (Offset.forward_or_neg hc.moves).imp (hr.twoCopies?_of_forward hc)
    (hr.twoCopies?_of_forward hc.neg)

theorem Valid.exists_twoCopies?_iff (hr : r.Valid) :
    (∃ o, r.twoCopies? h = some o) ↔ ∃ d, r.grid.TwoCopies d h := by
  constructor
  · rintro ⟨o, ho⟩
    exact ⟨o, hr.of_twoCopies? ho⟩
  · rintro ⟨d, hd⟩
    rcases hr.twoCopies?_of_twoCopies hd with ho | ho
    · exact ⟨d, ho⟩
    · exact ⟨-d, ho⟩

end Reference

end Cellular
