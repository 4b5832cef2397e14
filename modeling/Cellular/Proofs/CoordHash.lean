/-
Neighbours in a row never share a slot.

Folding a coordinate into a word mixes it in and multiplies by an odd number.  Neither of the
two carries anything from a high bit down to a lower one, and what they do to the low bits can
be undone on these bits alone.  So within a row the last `k` bits of the hash tell two cells
apart exactly if the last `k` bits of their columns do (`modEq_ofCoord_iff`).  A table whose
size is a power of two looks at nothing else: as many neighbours as it has slots start their
walks at slots of their own.

Turning the word brings its high bits down, so that the rows are not spread like this.  But
turning loses nothing either, and of the cells in a column no two have the same hash.
-/
import Mathlib
import Cellular.CoordSet

namespace Cellular

namespace CoordHash

variable {k : Nat} {m n : Int} {v w : UInt64}

/-! ### The low bits -/

/-- A coordinate is mixed in modulo `2 ^ 64`. -/
theorem toNat_coordinate (n : Int) : ((Int64.ofInt n).toUInt64.toNat : Int) = n % 2 ^ 64 := by
  have hword : (Int64.ofInt n).toUInt64.toNat = (n % (2 ^ 64 : Nat)).toNat := BitVec.toNat_ofInt n
  rw [hword, Int.toNat_of_nonneg (Int.emod_nonneg n (by decide))]
  rfl

theorem modEq_coordinate_iff (hk : k ≤ 64) :
    (Int64.ofInt m).toUInt64.toNat ≡ (Int64.ofInt n).toUInt64.toNat [MOD 2 ^ k] ↔
      m ≡ n [ZMOD 2 ^ k] := by
  have hdvd : (2 ^ k : Int) ∣ 2 ^ 64 := pow_dvd_pow 2 hk
  rw [← Int.natCast_modEq_iff, toNat_coordinate, toNat_coordinate, Int.ModEq, Int.ModEq,
    Int.natCast_pow, Int.cast_ofNat_Int, Int.emod_emod_of_dvd m hdvd, Int.emod_emod_of_dvd n hdvd]

/-- Mixing the same word into two others changes the same bits of both. -/
theorem modEq_xor_iff {x : UInt64} :
    (x ^^^ v).toNat ≡ (x ^^^ w).toNat [MOD 2 ^ k] ↔ v.toNat ≡ w.toNat [MOD 2 ^ k] := by
  rw [UInt64.toNat_xor, UInt64.toNat_xor, Nat.ModEq, Nat.xor_mod_two_pow, Nat.xor_mod_two_pow,
    Nat.xor_right_inj]
  rfl

/-- The multiplier is odd, so it has an inverse modulo every power of two. -/
theorem modEq_mul_multiplier_iff (hk : k ≤ 64) :
    (v * multiplier).toNat ≡ (w * multiplier).toNat [MOD 2 ^ k] ↔
      v.toNat ≡ w.toNat [MOD 2 ^ k] := by
  have hdvd : 2 ^ k ∣ 2 ^ 64 := Nat.pow_dvd_pow 2 hk
  have hodd : (2 ^ k).Coprime multiplier.toNat := Nat.Coprime.pow_left k (by decide)
  rw [UInt64.toNat_mul, UInt64.toNat_mul, Nat.ModEq, Nat.mod_mod_of_dvd _ hdvd,
    Nat.mod_mod_of_dvd _ hdvd]
  exact ⟨Nat.ModEq.cancel_right_of_coprime hodd, Nat.ModEq.mul_right _⟩

/-- **The low bits of a coordinate decide the low bits of the word it is folded into.** -/
theorem modEq_fold_iff (hk : k ≤ 64) (w : UInt64) :
    (fold w m).toNat ≡ (fold w n).toNat [MOD 2 ^ k] ↔ m ≡ n [ZMOD 2 ^ k] := by
  unfold fold
  rw [modEq_mul_multiplier_iff hk, modEq_xor_iff, modEq_coordinate_iff hk]

theorem modEq_ofCoord_iff (hk : k ≤ 64) (row : Int) :
    (ofCoord ⟨row, m⟩).toNat ≡ (ofCoord ⟨row, n⟩).toNat [MOD 2 ^ k] ↔ m ≡ n [ZMOD 2 ^ k] :=
  modEq_fold_iff hk (fold 0 row)

/-! ### Whole words -/

theorem modEq_iff_eq : v.toNat ≡ w.toNat [MOD 2 ^ 64] ↔ v = w := by
  rw [Nat.ModEq, Nat.mod_eq_of_lt v.toNat_lt, Nat.mod_eq_of_lt w.toNat_lt, UInt64.toNat_inj]

theorem fold_eq_iff (w : UInt64) : fold w m = fold w n ↔ m ≡ n [ZMOD 2 ^ 64] := by
  rw [← modEq_iff_eq, modEq_fold_iff (Nat.le_refl 64)]

theorem toBitVec_turn (w : UInt64) : (turn w).toBitVec = w.toBitVec.rotateLeft 26 := rfl

/-- Turning on by the other 38 bits brings every bit back to its place. -/
theorem rotateLeft_turn (w : UInt64) : (turn w).toBitVec.rotateLeft 38 = w.toBitVec := by
  refine BitVec.eq_of_getLsbD_eq fun i hi => ?_
  rw [toBitVec_turn, BitVec.getLsbD_rotateLeft, BitVec.getLsbD_rotateLeft,
    BitVec.getLsbD_rotateLeft]
  by_cases hlow : i < 38
  · have hin : 26 + i < 64 := by omega
    have hout : ¬26 + i < 26 := by omega
    simp [hlow, hin, hout]
  · have hin : i - 38 < 26 := by omega
    have hback : 38 + (i - 38) = i := by omega
    simp [hlow, hi, hin, hback]

theorem turn_injective : Function.Injective turn := by
  intro v w h
  refine UInt64.eq_of_toBitVec_eq ?_
  rw [← rotateLeft_turn v, h, rotateLeft_turn]

/-- Folding the same coordinate into two words keeps them apart. -/
theorem fold_injective (n : Int) : Function.Injective (fold · n) := by
  intro v w h
  have hmixed : turn v ^^^ (Int64.ofInt n).toUInt64 = turn w ^^^ (Int64.ofInt n).toUInt64 :=
    modEq_iff_eq.mp ((modEq_mul_multiplier_iff (Nat.le_refl 64)).mp (modEq_iff_eq.mpr h))
  exact turn_injective ((UInt64.xor_left_inj _).mp hmixed)

/-- Within a column only 64 bits of the row matter, but all of them do. -/
theorem ofCoord_eq_iff (col : Int) : ofCoord ⟨m, col⟩ = ofCoord ⟨n, col⟩ ↔ m ≡ n [ZMOD 2 ^ 64] :=
  (fold_injective col).eq_iff.trans (fold_eq_iff 0)

/-! ### Slots -/

variable {slots : Array Slot}

/-- A table whose size is a power of two looks at the low bits of the hash alone. -/
theorem home_eq_mod (hsize : slots.size = 2 ^ k) (c : Coord) :
    CoordSet.home slots c = (ofCoord c).toNat % 2 ^ k := by
  unfold CoordSet.home
  rw [hsize, UInt64.toNat_mod, UInt64.toNat_ofNat']
  rcases Nat.lt_or_ge k 64 with hk | hk
  · rw [Nat.mod_eq_of_lt (Nat.pow_lt_pow_right (by decide) hk)]
  · have hfits : (ofCoord c).toNat < 2 ^ k :=
      Nat.lt_of_lt_of_le (ofCoord c).toNat_lt (Nat.pow_le_pow_right (by decide) hk)
    rw [Nat.mod_eq_zero_of_dvd (Nat.pow_dvd_pow 2 hk), Nat.mod_zero, Nat.mod_eq_of_lt hfits]

/-- Of `N` integers in a row no two leave the same remainder. -/
theorem eq_of_modEq {N c : Int} (hm : m ∈ Set.Ico c (c + N)) (hn : n ∈ Set.Ico c (c + N))
    (h : m ≡ n [ZMOD N]) : m = n := by
  obtain ⟨hm, hm'⟩ := hm
  obtain ⟨hn, hn'⟩ := hn
  have hzero : n - m = 0 := Int.eq_zero_of_abs_lt_dvd h.dvd (abs_lt.mpr ⟨by omega, by omega⟩)
  omega

/-- Neighbours in a row start at slots of their own, and leave no slot out. -/
theorem bijOn_home (hk : k ≤ 64) (hsize : slots.size = 2 ^ k) (row c : Int) :
    Set.BijOn (fun col => CoordSet.home slots ⟨row, col⟩) (Set.Ico c (c + 2 ^ k))
      (Set.Iio (2 ^ k)) := by
  have hmaps : Set.MapsTo (fun col => CoordSet.home slots ⟨row, col⟩) (Set.Ico c (c + 2 ^ k))
      (Set.Iio (2 ^ k)) := by
    intro col _
    show CoordSet.home slots ⟨row, col⟩ < 2 ^ k
    rw [home_eq_mod hsize]
    exact Nat.mod_lt _ (Nat.two_pow_pos k)
  have hinj : Set.InjOn (fun col => CoordSet.home slots ⟨row, col⟩) (Set.Ico c (c + 2 ^ k)) := by
    intro m hm n hn h
    simp only [home_eq_mod hsize] at h
    exact eq_of_modEq hm hn ((modEq_ofCoord_iff hk row).mp h)
  -- There are as many slots as neighbours.
  have hcard : (Finset.Iio (2 ^ k)).card ≤ (Finset.Ico c (c + 2 ^ k)).card := by
    have hpow : (2 ^ k : Int) = (2 ^ k : Nat) := by norm_cast
    rw [Nat.card_Iio, Int.card_Ico, hpow]
    omega
  refine ⟨hmaps, hinj, ?_⟩
  rw [← Finset.coe_Ico, ← Finset.coe_Iio] at hmaps ⊢
  rw [← Finset.coe_Ico] at hinj
  exact Finset.surjOn_of_injOn_of_card_le _ hmaps hinj hcard

/--
**The hash spreads a row evenly over every table, and it tells the cells of a column apart.**
For every row and every `k` up to 64 the hashes of two cells of the row agree modulo `2 ^ k`
exactly if their columns do.  In a table of `2 ^ k` slots any `2 ^ k` neighbours in the row
therefore start at different slots, one at each.  In every column the hash is different for any
two rows that are integers of 64 bits.
-/
theorem spreads_rows :
    (∀ k ≤ 64, ∀ row : Int,
      (∀ c c' : Int, (ofCoord ⟨row, c⟩).toNat ≡ (ofCoord ⟨row, c'⟩).toNat [MOD 2 ^ k] ↔
        c ≡ c' [ZMOD 2 ^ k]) ∧
      ∀ slots : Array Slot, slots.size = 2 ^ k → ∀ c : Int,
        Set.BijOn (fun col => CoordSet.home slots ⟨row, col⟩) (Set.Ico c (c + 2 ^ k))
          (Set.Iio (2 ^ k))) ∧
    ∀ col : Int, Set.InjOn (fun row => ofCoord ⟨row, col⟩) (Set.Ico (-2 ^ 63) (2 ^ 63)) := by
  refine ⟨fun k hk row => ⟨fun _ _ => modEq_ofCoord_iff hk row, ?_⟩, ?_⟩
  · intro slots hsize c
    exact bijOn_home hk hsize row c
  · intro col m hm n hn h
    exact eq_of_modEq hm hn ((ofCoord_eq_iff col).mp h)

/-- Columns on both sides of the origin in the smallest table, with two that are a round apart. -/
theorem spreads_rows_into_sixteen_slots :
    4 ≤ 64 ∧ (CoordSet.withCapacity 0).slots.size = 2 ^ 4 ∧
      (ofCoord ⟨-3, 21⟩).toNat ≡ (ofCoord ⟨-3, 5⟩).toNat [MOD 2 ^ 4] ∧
      ¬(ofCoord ⟨-3, 21⟩).toNat ≡ (ofCoord ⟨-3, 5⟩).toNat [MOD 2 ^ 5] ∧
      Set.BijOn (fun col => CoordSet.home (CoordSet.withCapacity 0).slots ⟨-3, col⟩)
        (Set.Ico (-7) (-7 + 2 ^ 4)) (Set.Iio (2 ^ 4)) ∧
      ofCoord ⟨-3, 5⟩ ≠ ofCoord ⟨4, 5⟩ := by
  obtain ⟨hrows, hcolumns⟩ := spreads_rows
  have hsize : (CoordSet.withCapacity 0).slots.size = 2 ^ 4 := by cbv
  refine ⟨by decide, hsize, ((hrows 4 (by decide) (-3)).1 21 5).mpr (by decide),
    mt ((hrows 5 (by decide) (-3)).1 21 5).mp (by decide),
    (hrows 4 (by decide) (-3)).2 _ hsize (-7), fun h => ?_⟩
  exact absurd (hcolumns 5 (by simp) (by simp) h) (by decide)

end CoordHash

end Cellular
