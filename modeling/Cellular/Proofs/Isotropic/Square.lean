/-
Images are the images under the symmetries of the square.

A symmetry of the square exchanges the two axes or does not, and reverses each of them or does
not, so there are eight.  One configuration is an image of another if the cells that are on in it
are those that a symmetry makes of the other's, all told by their displacements (`Image`).

The twelve tables of a family are these symmetries, some of them twice (`exists_symmetry`,
`exists_source`), and permuting by a table is moving the cells (`eq_permute_iff`).
-/
import Cellular.Proofs.Isotropic.Orbit

namespace Cellular

/-- A symmetry of the square: the axes may change places, and then each may be reversed. -/
structure SquareSymmetry where
  swap : Bool
  flipRows : Bool
  flipCols : Bool

/-- What becomes of a displacement. -/
def SquareSymmetry.move (σ : SquareSymmetry) (o : Offset) : Offset :=
  let moved : Offset := if σ.swap then ⟨o.dx, o.dy⟩ else o
  ⟨if σ.flipRows then -moved.dy else moved.dy, if σ.flipCols then -moved.dx else moved.dx⟩

namespace Family

variable {f : Family} {c d : Configuration}

/-- The cell of the family at this displacement is on. -/
def On (f : Family) (c : Configuration) (o : Offset) : Prop :=
  ∃ i, f.offsets[i]? = some o ∧ c.testBit i = true

/-- The second configuration is what one of the eight symmetries makes of the first one. -/
def Image (f : Family) (d c : Configuration) : Prop :=
  c < 2 ^ f.cellCount ∧ ∃ σ : SquareSymmetry, ∀ o ∈ f.offsets, f.On c (σ.move o) ↔ f.On d o

theorem on_iff {i : Nat} {o : Offset} (hi : f.offsets[i]? = some o) :
    f.On c o ↔ c.testBit i = true := by
  constructor
  · rintro ⟨j, hj, hbit⟩
    have hlt := (List.getElem?_eq_some_iff.mp hi).1
    rwa [(List.getElem?_inj hlt f.nodup_offsets).mp (hi.trans hj.symm)]
  · exact fun hbit => ⟨i, hi, hbit⟩

/-- The table is the symmetry: a cell takes its state from the one that is moved to its place. -/
def Follows (f : Family) (s : List Nat) (σ : SquareSymmetry) : Prop :=
  s.map (fun i => σ.move (f.offsets.getD i .zero)) = f.offsets

theorem exists_symmetry {s : List Nat} (hs : s ∈ f.sources) : ∃ σ, f.Follows s σ := by
  have hall : ∀ s ∈ f.sources, ∃ swap flipRows flipCols : Bool,
      s.map (fun i => SquareSymmetry.move ⟨swap, flipRows, flipCols⟩ (f.offsets.getD i .zero))
        = f.offsets := by
    cases f <;> decide +kernel
  obtain ⟨swap, flipRows, flipCols, hfollows⟩ := hall s hs
  exact ⟨⟨swap, flipRows, flipCols⟩, hfollows⟩

theorem exists_source (f : Family) (σ : SquareSymmetry) : ∃ s ∈ f.sources, f.Follows s σ := by
  have hall : ∀ swap flipRows flipCols : Bool, ∃ s ∈ f.sources,
      s.map (fun i => SquareSymmetry.move ⟨swap, flipRows, flipCols⟩ (f.offsets.getD i .zero))
        = f.offsets := by
    cases f <;> decide +kernel
  exact hall σ.swap σ.flipRows σ.flipCols

theorem perm_of_mem_sources {s : List Nat} (hs : s ∈ f.sources) :
    s.Perm (List.range f.cellCount) := by
  have hall : ∀ s ∈ f.sources, s.Perm (List.range f.cellCount) := by
    cases f <;> decide
  exact hall s hs

/-- The place of a cell after a symmetry, in the order of the family. -/
theorem Follows.getElem? {s : List Nat} {σ : SquareSymmetry} (h : f.Follows s σ) {i : Nat}
    (hi : i < s.length) :
    f.offsets[i]? = some (σ.move (f.offsets.getD (s.getD i 0) .zero)) := by
  conv_lhs => rw [← h]
  rw [List.getElem?_map, List.getElem?_eq_getElem hi, List.getD_eq_getElem _ _ hi]
  rfl

/-- **Permuting by a table is moving the cells.** -/
theorem eq_permute_iff {s : List Nat} {σ : SquareSymmetry} (hs : s ∈ f.sources)
    (h : f.Follows s σ) :
    c = d.permute s ↔ c < 2 ^ f.cellCount ∧ ∀ o ∈ f.offsets, f.On c (σ.move o) ↔ f.On d o := by
  have hlen := length_of_mem_sources hs
  have hperm := perm_of_mem_sources hs
  constructor
  · rintro rfl
    refine ⟨hlen ▸ d.permute_lt s, fun o ho => ?_⟩
    obtain ⟨k, hk, rfl⟩ := List.mem_iff_getElem.mp ho
    obtain ⟨i, hi, hik⟩ := List.mem_iff_getElem.mp (hperm.mem_iff.mpr (List.mem_range.mpr hk))
    have hsource : s.getD i 0 = k := by rw [List.getD_eq_getElem _ _ hi, hik]
    have hplace := h.getElem? hi
    rw [hsource, List.getD_eq_getElem _ _ hk] at hplace
    rw [on_iff hplace, on_iff (List.getElem?_eq_getElem hk), Configuration.testBit_permute d hi,
      hsource]
  · rintro ⟨hlt, hsame⟩
    refine Configuration.eq_of_testBit hlt (hlen ▸ d.permute_lt s) fun i hi => ?_
    -- The cell at place `i` is on exactly if the cell that is moved there was on.
    rw [← hlen] at hi
    have hk : s.getD i 0 < f.offsets.length := by
      rw [List.getD_eq_getElem _ _ hi]
      exact List.mem_range.mp (hperm.mem_iff.mp (List.getElem_mem hi))
    have hget : f.offsets[s.getD i 0]? = some (f.offsets.getD (s.getD i 0) .zero) := by
      rw [List.getElem?_eq_getElem hk, List.getD_eq_getElem _ _ hk]
    rw [Bool.eq_iff_iff, ← on_iff (h.getElem? hi), hsame _ (List.mem_of_getElem? hget),
      on_iff hget, Configuration.testBit_permute d hi]

/-- **The twelve images of a configuration are its images under the eight symmetries.** -/
theorem mem_images_iff (hd : d < 2 ^ f.cellCount) : c ∈ f.images d ↔ f.Image d c := by
  rw [images_eq hd, List.mem_map]
  constructor
  · rintro ⟨s, hs, rfl⟩
    obtain ⟨σ, hσ⟩ := exists_symmetry hs
    obtain ⟨hlt, hmoved⟩ := (eq_permute_iff hs hσ).mp rfl
    exact ⟨hlt, σ, hmoved⟩
  · rintro ⟨hlt, σ, hmoved⟩
    obtain ⟨s, hs, hσ⟩ := f.exists_source σ
    exact ⟨s, hs, ((eq_permute_iff hs hσ).mpr ⟨hlt, hmoved⟩).symm⟩

end Family

end Cellular
