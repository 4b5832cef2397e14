/-
Where the weights of a block stand.

A neighbourhood is read from one list of weights, row after row, and a place in the list is
turned into a displacement by dividing by the side of the block.  `placed` lists the same
weights by rows and columns, as they are written.  So a block of weights is a neighbourhood
of the offsets where the weight is not zero (`mem_entries_ofBlock`), each of which it has
once, and that is all a rule knows of it.
-/
import Mathlib.Data.List.Nodup
import Mathlib.Tactic.Ring
import Cellular.Neighbourhood

namespace Cellular

namespace Neighbourhood

variable {range : Nat} {rows : List (List Int)}

/-- The weights of the rows from number `first` on, with their places. -/
def placed (range first : Nat) (rows : List (List Int)) : List (Offset × Int) :=
  (rows.zipIdx first).flatMap fun (row, i) =>
    row.zipIdx.map fun (w, j) => (⟨(i : Int) - range, (j : Int) - range⟩, w)

/-- The place in the list tells the row and the column. -/
theorem blockOffset_eq {i j : Nat} (hj : j < 2 * range + 1) :
    blockOffset range (i * (2 * range + 1) + j) = ⟨(i : Int) - range, (j : Int) - range⟩ := by
  have hpos : (0 : Int) < 2 * range + 1 := by omega
  have hnonneg : (0 : Int) ≤ ((i * (2 * range + 1) + j : Nat) : Int) := Int.natCast_nonneg _
  have hcast : ((i * (2 * range + 1) + j : Nat) : Int) = j + (i : Int) * (2 * range + 1) := by
    push_cast
    ring
  unfold blockOffset
  simp only
  rw [Int.tdiv_eq_ediv_of_nonneg hnonneg, Int.tmod_eq_emod_of_nonneg hnonneg, hcast,
    Int.add_mul_ediv_right _ _ hpos.ne', Int.add_mul_emod_self_right,
    Int.ediv_eq_zero_of_lt (Int.natCast_nonneg j) (by omega),
    Int.emod_eq_of_lt (Int.natCast_nonneg j) (by omega), Int.zero_add]

/-- No two places of the list have the same offset. -/
theorem blockOffset_injective (range : Nat) : Function.Injective (blockOffset range) := by
  have hsplit : ∀ n : Nat, blockOffset range n
      = ⟨((n / (2 * range + 1) : Nat) : Int) - range,
        ((n % (2 * range + 1) : Nat) : Int) - range⟩ := by
    intro n
    conv_lhs => rw [← Nat.div_add_mod' n (2 * range + 1)]
    exact blockOffset_eq (Nat.mod_lt n (by omega))
  intro m n hmn
  rw [hsplit, hsplit] at hmn
  injection hmn with hdiv hmod
  rw [← Nat.div_add_mod' m (2 * range + 1), ← Nat.div_add_mod' n (2 * range + 1)]
  have hdiv' : m / (2 * range + 1) = n / (2 * range + 1) := by omega
  have hmod' : m % (2 * range + 1) = n % (2 * range + 1) := by omega
  rw [hdiv', hmod']

private theorem flatten_placed (range : Nat) (rows : List (List Int)) :
    (∀ row ∈ rows, row.length = 2 * range + 1) → ∀ first : Nat,
      ((rows.flatten.zipIdx (first * (2 * range + 1))).map fun (w, i) => (blockOffset range i, w))
        = placed range first rows := by
  induction rows with
  | nil => intro _ _; rfl
  | cons row rest ih =>
      intro hlen first
      have hrow : row.length = 2 * range + 1 := hlen row List.mem_cons_self
      have hnext : first * (2 * range + 1) + row.length = (first + 1) * (2 * range + 1) := by
        rw [hrow]
        ring
      have hhead :
          ((row.zipIdx (first * (2 * range + 1))).map fun (w, i) => (blockOffset range i, w))
          = row.zipIdx.map fun (w, j) => (⟨(first : Int) - range, (j : Int) - range⟩, w) := by
        refine List.ext_getElem (by simp) fun j hj _ => ?_
        rw [List.length_map, List.length_zipIdx, hrow] at hj
        simp only [List.getElem_map, List.getElem_zipIdx, Nat.zero_add]
        rw [blockOffset_eq hj]
      rw [List.flatten_cons, List.zipIdx_append, List.map_append, hhead, hnext,
        ih (fun r hr => hlen r (List.mem_cons_of_mem row hr)) (first + 1)]
      rfl

/-- **A square block lists its weights by rows and columns.** -/
theorem entries_ofBlock (h : ∀ row ∈ rows, row.length = 2 * range + 1) :
    (ofBlock range rows.flatten).entries = (placed range 0 rows).filter (·.2 ≠ 0) := by
  have hplaced := flatten_placed range rows h 0
  rw [Nat.zero_mul] at hplaced
  unfold ofBlock weighted
  rw [hplaced]

/-- The weight of a block at a displacement from its centre, 0 outside the block. -/
def weightAt (range : Nat) (rows : List (List Int)) (o : Offset) : Int :=
  if 0 ≤ o.dy + range ∧ 0 ≤ o.dx + range then
    ((rows[(o.dy + range).toNat]?).bind fun row => row[(o.dx + range).toNat]?).getD 0
  else 0

private theorem mem_placed {o : Offset} {w : Int} : (o, w) ∈ placed range 0 rows ↔
    ∃ (i j : Nat) (row : List Int), rows[i]? = some row ∧ row[j]? = some w ∧
      o = ⟨(i : Int) - range, (j : Int) - range⟩ := by
  unfold placed
  simp only [List.mem_flatMap, List.mem_map, Prod.exists, List.mk_mem_zipIdx_iff_getElem?,
    Prod.mk.injEq]
  constructor
  · rintro ⟨row, i, hrow, v, j, hv, rfl, rfl⟩
    exact ⟨i, j, row, hrow, hv, rfl⟩
  · rintro ⟨i, j, row, hrow, hw, ho⟩
    exact ⟨row, i, hrow, w, j, hw, ho.symm, rfl⟩

/-- **The entries of a block are its weights that are not zero.** -/
theorem mem_entries_ofBlock (h : ∀ row ∈ rows, row.length = 2 * range + 1) {o : Offset} {w : Int} :
    (o, w) ∈ (ofBlock range rows.flatten).entries ↔ w ≠ 0 ∧ weightAt range rows o = w := by
  rw [entries_ofBlock h, List.mem_filter, mem_placed, decide_eq_true_eq, and_comm]
  refine and_congr_right fun hw => ?_
  unfold weightAt
  constructor
  · rintro ⟨i, j, row, hrow, hj, ho⟩
    rw [ho]
    simp only [Int.sub_add_cancel, Int.natCast_nonneg, and_self, if_true, Int.toNat_natCast, hrow,
      Option.bind_some, hj, Option.getD_some]
  · intro hweight
    split at hweight
    · rename_i hin
      cases hrow : rows[(o.dy + range).toNat]? with
      | none =>
          rw [hrow] at hweight
          exact absurd hweight.symm hw
      | some row =>
          rw [hrow, Option.bind_some] at hweight
          cases hj : row[(o.dx + range).toNat]? with
          | none =>
              rw [hj] at hweight
              exact absurd hweight.symm hw
          | some v =>
              rw [hj, Option.getD_some] at hweight
              subst hweight
              refine ⟨_, _, row, hrow, hj, ?_⟩
              ext <;> simp only <;> omega
    · exact absurd hweight.symm hw

/-- The offsets of a block are those where the weight is not zero. -/
theorem mem_offsets_ofBlock (h : ∀ row ∈ rows, row.length = 2 * range + 1) {o : Offset} :
    o ∈ (ofBlock range rows.flatten).offsets ↔ weightAt range rows o ≠ 0 := by
  unfold offsets
  rw [List.mem_map]
  constructor
  · rintro ⟨⟨o', w⟩, hmem, rfl⟩
    obtain ⟨hw, hweight⟩ := (mem_entries_ofBlock h).mp hmem
    rwa [hweight]
  · intro hw
    exact ⟨(o, weightAt range rows o), (mem_entries_ofBlock h).mpr ⟨hw, rfl⟩, rfl⟩

/-- A block has no offset twice. -/
theorem nodup_offsets_ofBlock (range : Nat) (block : List Int) :
    (ofBlock range block).offsets.Nodup := by
  have hall : ((block.zipIdx.map fun (w, i) => (blockOffset range i, w)).map Prod.fst).Nodup := by
    have hplaces : (block.zipIdx.map fun (w, i) => (blockOffset range i, w)).map Prod.fst
        = (List.range block.length).map (blockOffset range) := by
      rw [List.map_map, List.range_eq_range', ← List.zipIdx_map_snd 0 block, List.map_map]
      rfl
    rw [hplaces]
    exact List.Nodup.map (blockOffset_injective range) List.nodup_range
  exact hall.sublist (List.filter_sublist.map Prod.fst)

end Neighbourhood

end Cellular
