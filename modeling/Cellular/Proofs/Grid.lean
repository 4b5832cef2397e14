/-
What a grid means.

A grid is used through `get` alone: `set` changes one cell, `extend` the cells it
lists, and the cells that are listed are the ones where `get` is not background.  The
lists are sorted, so two grids with the same states list the same cells, and a grid
that is another one moved lists the moved cells in the same order.
-/
import Mathlib.Data.List.Nodup
import Mathlib.Order.MinMax
import Mathlib.Tactic.Tauto
import Cellular.Grid.Basic

namespace Cellular

/-! ### Displacements -/

@[simp] theorem Coord.add_zero (c : Coord) : c + Offset.zero = c := by
  ext <;> simp [Offset.zero]

@[simp] theorem Coord.add_neg_cancel (c : Coord) (o : Offset) : c + o + -o = c := by
  ext <;> simp only [Coord.add_row, Coord.add_col, Offset.neg_dy, Offset.neg_dx] <;> omega

@[simp] theorem Coord.neg_add_cancel (c : Coord) (o : Offset) : c + -o + o = c := by
  ext <;> simp only [Coord.add_row, Coord.add_col, Offset.neg_dy, Offset.neg_dx] <;> omega

@[simp] theorem Offset.neg_neg (o : Offset) : - -o = o := by
  ext <;> simp

theorem Offset.neg_eq_zero {o : Offset} : -o = .zero ↔ o = .zero := by
  simp only [Offset.ext_iff, Offset.neg_dy, Offset.neg_dx, Offset.zero]
  omega

theorem Coord.add_sub_cancel (c : Coord) (o : Offset) : c + o - c = o := by
  ext <;> simp only [Coord.sub_dy, Coord.sub_dx, Coord.add_row, Coord.add_col] <;> omega

theorem Coord.add_right_comm (c : Coord) (o p : Offset) : c + o + p = c + p + o := by
  ext <;> simp <;> omega

/-- Cells come in reading order: by rows, and within a row by columns. -/
theorem Coord.compare_eq_lt {c d : Coord} :
    compare c d = .lt ↔ c.row < d.row ∨ (c.row = d.row ∧ c.col < d.col) := by
  show (compare c.row d.row).then (compare c.col d.col) = .lt ↔ _
  rw [Ordering.then_eq_lt, Std.compare_eq_lt, Std.compare_eq_lt, Std.compare_eq_iff_eq]

theorem mem_between {lo hi n : Int} : n ∈ between lo hi ↔ lo ≤ n ∧ n < hi := by
  unfold between
  rw [List.mem_map]
  constructor
  · intro h
    obtain ⟨i, hi, rfl⟩ := h
    rw [List.mem_range] at hi
    omega
  · intro h
    exact ⟨(n - lo).toNat, List.mem_range.mpr (by omega), by omega⟩

namespace Grid

/-! ### Reading what was written -/

@[simp] theorem get_empty (c : Coord) : empty.get c = 0 := by
  simp [get, empty]

theorem get_set (g : Grid) (c : Coord) (s : State) (d : Coord) :
    (g.set c s).get d = if d = c then s else g.get d := by
  unfold set get
  by_cases hs : s = 0
  · rw [dif_pos hs]
    simp only [Std.ExtTreeMap.getD_erase, Std.compare_eq_iff_eq]
    by_cases hd : d = c
    · simp [hd, hs]
    · rw [if_neg (Ne.symm hd), if_neg hd]
  · rw [dif_neg hs]
    simp only [Std.ExtTreeMap.getD_insert, Std.compare_eq_iff_eq]
    by_cases hd : d = c
    · simp [hd]
    · rw [if_neg (Ne.symm hd), if_neg hd]

theorem getElem?_cells (g : Grid) (c : Coord) (s : State) :
    g.cells[c]? = some s ↔ g.get c = s ∧ s ≠ 0 := by
  have hlive := g.live c
  unfold get
  rw [Std.ExtTreeMap.getD_eq_getD_getElem?]
  cases h : g.cells[c]? with
  | none =>
      simp only [Option.getD_none, reduceCtorEq, ne_eq, false_iff, not_and, not_not]
      exact fun h0 => h0.symm
  | some v =>
      rw [h] at hlive
      simp only [Option.getD_some, Option.some.injEq, ne_eq, iff_self_and]
      intro hv hs
      simp [hv, hs] at hlive

/-- The listed cells are the ones that are not background. -/
theorem mem_toList {g : Grid} {c : Coord} {s : State} :
    (c, s) ∈ g.toList ↔ g.get c = s ∧ s ≠ 0 := by
  unfold toList
  rw [Std.ExtTreeMap.mem_toList_iff_getElem?_eq_some, getElem?_cells]

theorem map_fst_toList (g : Grid) : g.toList.map Prod.fst = g.coords := by
  unfold toList coords
  exact Std.ExtTreeMap.map_fst_toList_eq_keys

theorem mem_coords {g : Grid} {c : Coord} : c ∈ g.coords ↔ g.get c ≠ 0 := by
  rw [← map_fst_toList]
  constructor
  · intro h
    obtain ⟨⟨d, s⟩, hmem, rfl⟩ := List.mem_map.mp h
    obtain ⟨hget, hs⟩ := mem_toList.mp hmem
    rw [hget]
    exact hs
  · intro h
    exact List.mem_map.mpr ⟨(c, g.get c), mem_toList.mpr ⟨rfl, h⟩, rfl⟩

/-! ### Writing many cells -/

/-- What holds of the places of the cells holds of every live cell. -/
theorem forall_live {g : Grid} {P : Coord → Prop} (h : ∀ c ∈ g.coords, P c) (c : Coord)
    (hc : g.get c ≠ 0) : P c :=
  h c (mem_coords.mpr hc)

/-- What holds of the background and of the live cells holds everywhere. -/
theorem forall_get {g : Grid} {P : State → Prop} (hzero : P 0)
    (hlive : ∀ c, g.get c ≠ 0 → P (g.get c)) (c : Coord) : P (g.get c) := by
  by_cases hc : g.get c = 0
  · rw [hc]
    exact hzero
  · exact hlive c hc

@[simp] theorem extend_nil (g : Grid) : g.extend [] = g := rfl

@[simp] theorem extend_cons (g : Grid) (c : Coord) (s : State) (cs : List (Coord × State)) :
    g.extend ((c, s) :: cs) = (g.set c s).extend cs := rfl

/-- Where the states written are those of a function, only the places matter. -/
theorem get_extend {f : Coord → State} :
    ∀ (cs : List (Coord × State)) (g : Grid), (∀ p ∈ cs, p.2 = f p.1) → ∀ d,
      (g.extend cs).get d = if d ∈ cs.map Prod.fst then f d else g.get d := by
  intro cs
  induction cs with
  | nil => intro g _ d; simp
  | cons p rest ih =>
      obtain ⟨c, s⟩ := p
      intro g hf d
      rw [extend_cons, ih _ (fun p hp => hf p (by simp [hp]))]
      have hs : s = f c := hf (c, s) (by simp)
      by_cases hrest : d ∈ rest.map Prod.fst
      · rw [if_pos hrest, if_pos (by simp at hrest ⊢; simp [hrest])]
      · rw [if_neg hrest, get_set, List.map_cons]
        by_cases hd : d = c
        · rw [if_pos hd, if_pos (by simp [hd]), hs, hd]
        · rw [if_neg hd, if_neg (by simp [hd, hrest])]

/-- Cells that are not listed are not written. -/
theorem get_extend_of_not_mem {d : Coord} :
    ∀ {cs : List (Coord × State)} {g : Grid}, d ∉ cs.map Prod.fst →
      (g.extend cs).get d = g.get d := by
  intro cs
  induction cs with
  | nil => intro g _; rfl
  | cons p rest ih =>
      intro g hd
      rw [List.map_cons, List.mem_cons, not_or] at hd
      rw [extend_cons, ih hd.2, get_set, if_neg hd.1]

/-- The part of a pattern inside a box. -/
theorem get_restrict (g : Grid) (b : Bounds) (c : Coord) :
    (g.restrict b).get c = if b.contains c = true then g.get c else 0 := by
  have hfun : ∀ p ∈ g.toList.filter (fun p => b.contains p.1), p.2 = g.get p.1 := by
    intro p hp
    exact (mem_toList.mp (List.mem_filter.mp hp).1).1.symm
  unfold restrict ofList
  rw [get_extend (f := g.get) _ _ hfun, get_empty]
  by_cases hlive : g.get c = 0
  · rw [hlive, ite_self, ite_self]
  · congr 1
    simp only [List.mem_map, List.mem_filter, eq_iff_iff]
    constructor
    · rintro ⟨p, ⟨-, hin⟩, rfl⟩
      exact hin
    · intro hin
      exact ⟨(c, g.get c), ⟨mem_toList.mpr ⟨rfl, hlive⟩, hin⟩, rfl⟩

/-! ### Grids with the same states -/

private theorem pairwise_toList (g : Grid) :
    g.toList.Pairwise fun a b => compare a.1 b.1 = .lt :=
  Std.ExtTreeMap.ordered_keys_toList

private theorem eq_of_sorted {xs ys : List (Coord × State)}
    (hx : xs.Pairwise fun a b => compare a.1 b.1 = .lt)
    (hy : ys.Pairwise fun a b => compare a.1 b.1 = .lt)
    (h : ∀ p, p ∈ xs ↔ p ∈ ys) : xs = ys := by
  have hnodup : ∀ {zs : List (Coord × State)},
      (zs.Pairwise fun a b => compare a.1 b.1 = .lt) → zs.Nodup := by
    intro zs hz
    refine hz.imp ?_
    intro a b hab heq
    simp [heq] at hab
  refine List.Perm.eq_of_pairwise ?_ hx hy
    ((List.perm_ext_iff_of_nodup (hnodup hx) (hnodup hy)).mpr h)
  intro a b _ _ hab hba
  have hlt := Coord.compare_eq_lt.mp hab
  have hgt := Coord.compare_eq_lt.mp hba
  omega

/-- A grid that is another one moved lists the moved cells. -/
theorem toList_of_moved {g h : Grid} {o : Offset} (hm : ∀ c, h.get (c + o) = g.get c) :
    h.toList = g.toList.map fun p => (p.1 + o, p.2) := by
  refine eq_of_sorted (pairwise_toList h) ?_ ?_
  · rw [List.pairwise_map]
    refine (pairwise_toList g).imp ?_
    intro a b hab
    have hlt := Coord.compare_eq_lt.mp hab
    refine Coord.compare_eq_lt.mpr ?_
    simp only [Coord.add_row, Coord.add_col]
    omega
  · intro p
    obtain ⟨c, s⟩ := p
    have hc : h.get c = g.get (c + -o) := by
      rw [← hm, Coord.neg_add_cancel]
    rw [mem_toList, List.mem_map, hc]
    constructor
    · intro hget
      exact ⟨(c + -o, s), mem_toList.mpr hget, by simp⟩
    · intro hmoved
      obtain ⟨⟨d, t⟩, hmem, heq⟩ := hmoved
      obtain ⟨rfl, rfl⟩ := Prod.mk.inj heq
      rw [Coord.add_neg_cancel]
      exact mem_toList.mp hmem

/-- A grid that lists the moved cells of another one is that one moved. -/
theorem moved_of_toList {g h : Grid} {o : Offset}
    (hlist : h.toList = g.toList.map fun p => (p.1 + o, p.2)) (c : Coord) :
    h.get (c + o) = g.get c := by
  by_cases hc : g.get c = 0
  · by_contra hne
    have hmem : (c + o, h.get (c + o)) ∈ h.toList :=
      mem_toList.mpr ⟨rfl, fun h0 => hne (by rw [hc, h0])⟩
    rw [hlist, List.mem_map] at hmem
    obtain ⟨⟨d, s⟩, hd, heq⟩ := hmem
    obtain ⟨hplace, rfl⟩ := Prod.mk.inj heq
    have hdc : d = c := by
      rw [← Coord.add_neg_cancel d o, hplace, Coord.add_neg_cancel]
    rw [← hdc, (mem_toList.mp hd).1] at hc
    exact (mem_toList.mp hd).2 hc
  · have hmem : (c + o, g.get c) ∈ h.toList := by
      rw [hlist]
      exact List.mem_map.mpr ⟨(c, g.get c), mem_toList.mpr ⟨rfl, hc⟩, rfl⟩
    exact (mem_toList.mp hmem).1

/-- **A grid is determined by its states.** -/
theorem toList_congr {g h : Grid} (hget : ∀ c, h.get c = g.get c) : h.toList = g.toList := by
  rw [toList_of_moved (g := g) (o := .zero) (by simpa using hget)]
  simp

/-- Grids that list the same cells have the same states. -/
theorem get_of_toList_eq {g h : Grid} (hlist : h.toList = g.toList) (c : Coord) :
    h.get c = g.get c := by
  have hc := moved_of_toList (g := g) (h := h) (o := .zero) (by simpa using hlist) c
  rwa [Coord.add_zero] at hc

theorem sameCells_iff {g h : Grid} : g.sameCells h = true ↔ ∀ c, g.get c = h.get c := by
  unfold sameCells
  rw [decide_eq_true_eq]
  exact ⟨get_of_toList_eq, toList_congr⟩

theorem sameCells_symm {g h : Grid} (hsame : g.sameCells h = true) : h.sameCells g = true :=
  sameCells_iff.mpr fun c => (sameCells_iff.mp hsame c).symm

theorem sameCells_trans {g h k : Grid} (hsame : g.sameCells h = true)
    (hsame' : h.sameCells k = true) : g.sameCells k = true :=
  sameCells_iff.mpr fun c => (sameCells_iff.mp hsame c).trans (sameCells_iff.mp hsame' c)

theorem coords_of_moved {g h : Grid} {o : Offset} (hm : ∀ c, h.get (c + o) = g.get c) :
    h.coords = g.coords.map (· + o) := by
  rw [← map_fst_toList, ← map_fst_toList, toList_of_moved hm]
  simp

theorem length_coords (g : Grid) : g.coords.length = g.size :=
  Std.ExtTreeMap.length_keys

theorem length_toList (g : Grid) : g.toList.length = g.size :=
  Std.ExtTreeMap.length_toList

theorem nodup_coords (g : Grid) : g.coords.Nodup :=
  Std.ExtTreeMap.nodup_keys

theorem isEmpty_eq_false_iff {g : Grid} : g.isEmpty = false ↔ g.toList ≠ [] := by
  unfold isEmpty
  rw [Std.ExtTreeMap.isEmpty_eq_size_beq_zero, beq_eq_false_iff_ne, ne_eq, ne_eq,
    ← List.length_eq_zero_iff, length_toList]
  rfl

/-- The first cell of a list is live, and no live cell comes before it. -/
theorem first_of_toList {g : Grid} {a : Coord} {s : State} {rest : List (Coord × State)}
    (hg : g.toList = (a, s) :: rest) :
    g.get a ≠ 0 ∧ ∀ c, g.get c ≠ 0 → a.row < c.row ∨ a.row = c.row ∧ a.col ≤ c.col := by
  have hcoords : g.coords = a :: rest.map Prod.fst := by
    rw [← map_fst_toList, hg, List.map_cons]
  have hsorted : (a :: rest.map Prod.fst).Pairwise fun c d => compare c d = .lt := by
    rw [← hcoords]
    exact Std.ExtTreeMap.ordered_keys
  refine ⟨mem_coords.mp (hcoords ▸ List.mem_cons_self), fun c hc => ?_⟩
  have hmem := mem_coords.mpr hc
  rw [hcoords] at hmem
  rcases List.mem_cons.mp hmem with rfl | hlater
  · omega
  · have hlt := Coord.compare_eq_lt.mp (List.rel_of_pairwise_cons hsorted hlater)
    omega

/-- Moving a pattern keeps its number of cells. -/
theorem size_of_moved {g h : Grid} {o : Offset} (hm : ∀ c, h.get (c + o) = g.get c) :
    h.size = g.size := by
  rw [← length_coords, ← length_coords, coords_of_moved hm, List.length_map]

/-! ### Patterns seen through a map of the plane -/

/-- The pattern whose cells are moved by a function. -/
def image (f : Coord → Coord) (g : Grid) : Grid := ofList (g.toList.map fun p => (f p.1, p.2))

/-- Where a function can be undone, a cell has the state of the cell that is moved there. -/
theorem get_image_of_live {f inv : Coord → Coord} {g : Grid} {d : Coord}
    (hleft : ∀ c, g.get c ≠ 0 → inv (f c) = c) (hright : f (inv d) = d) :
    (g.image f).get d = g.get (inv d) := by
  have hfun : ∀ p ∈ g.toList.map (fun p => (f p.1, p.2)), p.2 = g.get (inv p.1) := by
    intro p hp
    obtain ⟨q, hq, rfl⟩ := List.mem_map.mp hp
    obtain ⟨hstate, hlive⟩ := mem_toList.mp hq
    rw [hleft q.1 (by rwa [hstate]), hstate]
  unfold image ofList
  rw [get_extend (f := fun c => g.get (inv c)) _ _ hfun]
  by_cases hd : g.get (inv d) = 0
  · rw [hd, get_empty, ite_self]
  · refine if_pos ?_
    rw [List.map_map, List.mem_map]
    exact ⟨(inv d, g.get (inv d)), mem_toList.mpr ⟨rfl, hd⟩, hright⟩

/-- A cell that no cell is moved to is background. -/
theorem get_image_of_not_moved {f : Coord → Coord} {g : Grid} {d : Coord}
    (h : ∀ c, g.get c ≠ 0 → f c ≠ d) : (g.image f).get d = 0 := by
  unfold image ofList
  rw [get_extend_of_not_mem, get_empty]
  rw [List.map_map, List.mem_map]
  rintro ⟨⟨c, s⟩, hmem, heq⟩
  obtain ⟨hstate, hlive⟩ := mem_toList.mp hmem
  exact h c (by rwa [hstate]) heq

theorem get_image {f inv : Coord → Coord} (hleft : ∀ c, inv (f c) = c)
    (hright : ∀ c, f (inv c) = c) (g : Grid) (d : Coord) :
    (g.image f).get d = g.get (inv d) :=
  get_image_of_live (fun c _ => hleft c) (hright d)

/-- Moving a pattern moves its states. -/
theorem get_translate (g : Grid) (o : Offset) (c : Coord) :
    (g.translate o).get (c + o) = g.get c := by
  show (g.image (· + o)).get (c + o) = g.get c
  rw [@get_image (· + o) (· + -o) (fun d => Coord.add_neg_cancel d o)
    (fun d => Coord.neg_add_cancel d o), Coord.add_neg_cancel]

theorem get_translate_eq (g : Grid) (o : Offset) (c : Coord) :
    (g.translate o).get c = g.get (c + -o) := by
  have hc := get_translate g o (c + -o)
  rwa [Coord.neg_add_cancel] at hc

theorem sameCells_translate_iff {g h : Grid} {o : Offset} :
    g.sameCells (h.translate o) = true ↔ ∀ c, g.get (c + o) = h.get c := by
  rw [sameCells_iff]
  constructor
  · intro hsame c
    rw [hsame, get_translate]
  · intro hmoved c
    rw [get_translate_eq, ← hmoved, Coord.neg_add_cancel]

end Grid

/-! ### The smallest box -/

namespace Bounds

private theorem foldl_grow_le (cs : List Coord) :
    ∀ b : Bounds, (cs.foldl grow b).left ≤ b.left ∧ b.right ≤ (cs.foldl grow b).right ∧
      (cs.foldl grow b).top ≤ b.top ∧ b.bottom ≤ (cs.foldl grow b).bottom := by
  induction cs with
  | nil => intro b; simp
  | cons c rest ih =>
      intro b
      have hrest := ih (b.grow c)
      simp only [List.foldl_cons, grow] at hrest ⊢
      omega

theorem contains_iff {b : Bounds} {c : Coord} : b.contains c = true ↔
    (b.top ≤ c.row ∧ c.row ≤ b.bottom) ∧ b.left ≤ c.col ∧ c.col ≤ b.right := by
  simp only [contains, Bool.and_eq_true, decide_eq_true_eq]
  tauto

private theorem foldl_grow_contains (cs : List Coord) :
    ∀ b : Bounds, ∀ c ∈ cs, (cs.foldl grow b).contains c = true := by
  induction cs with
  | nil => intro b c hc; simp at hc
  | cons d rest ih =>
      intro b c hc
      rcases List.mem_cons.mp hc with rfl | hc'
      · have hle := foldl_grow_le rest (b.grow c)
        simp only [grow] at hle
        rw [List.foldl_cons, contains_iff]
        simp only [grow]
        omega
      · exact ih (b.grow d) c hc'

/-- A box around all the cells of a list holds each of them. -/
theorem contains_of_enclosing {cs : List Coord} {b : Bounds} (h : enclosing? cs = some b) :
    ∀ c ∈ cs, b.contains c = true := by
  cases cs with
  | nil => simp [enclosing?] at h
  | cons c rest =>
      obtain rfl := Option.some.inj h
      intro d hd
      rcases List.mem_cons.mp hd with rfl | hd'
      · have hle := foldl_grow_le rest (around d)
        rw [contains_iff]
        simp only [around] at hle ⊢
        omega
      · exact foldl_grow_contains rest (around c) d hd'

/-- Each side of the box touches a cell. -/
structure Touches (b : Bounds) (cs : List Coord) : Prop where
  left : ∃ c ∈ cs, c.col = b.left
  right : ∃ c ∈ cs, c.col = b.right
  top : ∃ c ∈ cs, c.row = b.top
  bottom : ∃ c ∈ cs, c.row = b.bottom

private theorem touches_grow {b : Bounds} {cs : List Coord} (h : b.Touches cs) (c : Coord) :
    (b.grow c).Touches (c :: cs) := by
  obtain ⟨⟨l, hl, hl'⟩, ⟨r, hr, hr'⟩, ⟨t, ht, ht'⟩, ⟨u, hu, hu'⟩⟩ := h
  refine ⟨?_, ?_, ?_, ?_⟩
  · rcases min_choice b.left c.col with h | h
    · exact ⟨l, by simp [hl], by rw [hl']; exact h.symm⟩
    · exact ⟨c, by simp, h.symm⟩
  · rcases max_choice b.right c.col with h | h
    · exact ⟨r, by simp [hr], by rw [hr']; exact h.symm⟩
    · exact ⟨c, by simp, h.symm⟩
  · rcases min_choice b.top c.row with h | h
    · exact ⟨t, by simp [ht], by rw [ht']; exact h.symm⟩
    · exact ⟨c, by simp, h.symm⟩
  · rcases max_choice b.bottom c.row with h | h
    · exact ⟨u, by simp [hu], by rw [hu']; exact h.symm⟩
    · exact ⟨c, by simp, h.symm⟩

theorem Touches.mono {b : Bounds} {cs ds : List Coord} (h : b.Touches cs) (hsub : cs ⊆ ds) :
    b.Touches ds := by
  obtain ⟨⟨l, hl, hl'⟩, ⟨r, hr, hr'⟩, ⟨t, ht, ht'⟩, ⟨u, hu, hu'⟩⟩ := h
  exact ⟨⟨l, hsub hl, hl'⟩, ⟨r, hsub hr, hr'⟩, ⟨t, hsub ht, ht'⟩, ⟨u, hsub hu, hu'⟩⟩

private theorem foldl_grow_touches (cs : List Coord) :
    ∀ (b : Bounds) (ds : List Coord), b.Touches ds → (cs.foldl grow b).Touches (cs ++ ds) := by
  induction cs with
  | nil => intro b ds h; exact h
  | cons c rest ih =>
      intro b ds h
      refine (ih (b.grow c) (c :: ds) (touches_grow h c)).mono ?_
      intro d hd
      simp only [List.mem_append, List.mem_cons] at hd ⊢
      tauto

/-- A box around all the cells of a list is as small as it can be. -/
theorem touches_of_enclosing {cs : List Coord} {b : Bounds} (h : enclosing? cs = some b) :
    b.Touches cs := by
  cases cs with
  | nil => simp [enclosing?] at h
  | cons c rest =>
      obtain rfl := Option.some.inj h
      refine (foldl_grow_touches rest (around c) [c] ?_).mono ?_
      · exact ⟨⟨c, by simp, rfl⟩, ⟨c, by simp, rfl⟩, ⟨c, by simp, rfl⟩, ⟨c, by simp, rfl⟩⟩
      · intro d hd
        simp only [List.mem_append, List.mem_cons, List.not_mem_nil, or_false] at hd ⊢
        exact hd.symm

/-- The box moved by a displacement. -/
def shift (b : Bounds) (o : Offset) : Bounds :=
  ⟨b.left + o.dx, b.right + o.dx, b.top + o.dy, b.bottom + o.dy⟩

private theorem grow_shift (b : Bounds) (c : Coord) (o : Offset) :
    (b.shift o).grow (c + o) = (b.grow c).shift o := by
  simp only [grow, shift, Coord.add_row, Coord.add_col, Bounds.mk.injEq]
  omega

private theorem foldl_grow_shift (o : Offset) (cs : List Coord) :
    ∀ b : Bounds, (cs.map (· + o)).foldl grow (b.shift o) = (cs.foldl grow b).shift o := by
  induction cs with
  | nil => intro b; rfl
  | cons c rest ih =>
      intro b
      rw [List.map_cons, List.foldl_cons, grow_shift, ih]
      rfl

theorem contains_shift (b : Bounds) (c : Coord) (o : Offset) :
    (b.shift o).contains (c + o) = b.contains c := by
  rw [Bool.eq_iff_iff, contains_iff, contains_iff]
  simp only [shift, Coord.add_row, Coord.add_col]
  omega

theorem enclosing_shift (o : Offset) (cs : List Coord) :
    enclosing? (cs.map (· + o)) = (enclosing? cs).map (·.shift o) := by
  cases cs with
  | nil => rfl
  | cons c rest => exact congrArg some (foldl_grow_shift o rest (around c))

end Bounds

namespace Grid

/-- The smallest box holds every cell. -/
theorem contains_of_tightBounds {g : Grid} {b : Bounds} (h : g.tightBounds = some b) {c : Coord}
    (hc : g.get c ≠ 0) : b.contains c = true :=
  Bounds.contains_of_enclosing h c (mem_coords.mpr hc)

/-- A grid without a smallest box has no cells. -/
theorem get_of_tightBounds_none {g : Grid} (h : g.tightBounds = none) (c : Coord) :
    g.get c = 0 := by
  by_contra hc
  have hmem := mem_coords.mpr hc
  unfold tightBounds at h
  cases hcs : g.coords with
  | nil => rw [hcs] at hmem; simp at hmem
  | cons d rest => rw [hcs] at h; simp [Bounds.enclosing?] at h

/-- A grid with cells has a smallest box. -/
theorem exists_tightBounds {g : Grid} (hg : g.isEmpty = false) : ∃ b, g.tightBounds = some b := by
  cases hb : g.tightBounds with
  | some b => exact ⟨b, rfl⟩
  | none =>
      refine absurd (List.eq_nil_iff_forall_not_mem.mpr ?_) (isEmpty_eq_false_iff.mp hg)
      rintro ⟨c, s⟩ hmem
      obtain ⟨hstate, hlive⟩ := mem_toList.mp hmem
      exact hlive (hstate ▸ get_of_tightBounds_none hb c)

/-- Moving a pattern does not make it empty. -/
theorem isEmpty_of_moved {g h : Grid} {o : Offset} (hm : ∀ c, h.get (c + o) = g.get c) :
    h.isEmpty = g.isEmpty := by
  have hsize : h.cells.size = g.cells.size := size_of_moved hm
  unfold isEmpty
  rw [Std.ExtTreeMap.isEmpty_eq_size_beq_zero, Std.ExtTreeMap.isEmpty_eq_size_beq_zero, hsize]

theorem tightBounds_of_moved {g h : Grid} {o : Offset} (hm : ∀ c, h.get (c + o) = g.get c) :
    h.tightBounds = g.tightBounds.map (·.shift o) := by
  unfold tightBounds
  rw [coords_of_moved hm, Bounds.enclosing_shift]

/-- The part in a moved box of a moved pattern. -/
theorem restrict_of_moved {g h : Grid} {o : Offset} (hm : ∀ c, h.get (c + o) = g.get c)
    (b : Bounds) (c : Coord) : (h.restrict (b.shift o)).get (c + o) = (g.restrict b).get c := by
  rw [get_restrict, get_restrict, hm, Bounds.contains_shift]

end Grid

end Cellular
