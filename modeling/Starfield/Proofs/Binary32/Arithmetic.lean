import Starfield.Proofs.Binary32.Rounding

/-!
# Arithmetic

Sums, differences and quotients of numbers in the form of results are nearest to
the exact ones, and comparing two of them compares the numbers that they stand for.
-/

namespace Starfield.Binary32

open Float.Model (Format UnpackedFloat totalExponent)
open Float.Model.UnpackedFloat

variable {u w : UnpackedFloat}

/-! ## Signs -/

theorem signed_mul (s : Sign) (p q : ℚ) : signed s p * q = signed s (p * q) := by
  cases s with
  | positive => rfl
  | negative => exact neg_mul p q

theorem signed_div (s s' : Sign) (p q : ℚ) :
    signed (s / s') (p / q) = signed s p / signed s' q := by
  cases s <;> cases s'
  · exact (neg_div_neg_eq p q).symm
  · exact (neg_div q p).symm
  · exact (div_neg p).symm
  · rfl

theorem abs_signed (s : Sign) (q : ℚ) : |signed s q| = |q| := by
  cases s with
  | positive => rfl
  | negative => exact abs_neg q

theorem cast_apply (s : Sign) (m : ℕ) : ((s.apply m : ℤ) : ℚ) = signed s m := by
  cases s with
  | positive => exact Int.cast_natCast m
  | negative => exact (Int.cast_neg _).trans (congrArg _ (Int.cast_natCast m))

theorem Canonical.fits (h : Canonical u) : Fits (value u) := by
  cases u with
  | zero s => exact fits_zero
  | finite s m e hm =>
      obtain ⟨hbits, he, _⟩ := h
      have hfits : Fits ((m : ℤ) * 2 ^ e) :=
        fits_mul (by rw [Nat.abs_cast]; exact_mod_cast hbits.le) he
      rw [Int.cast_natCast] at hfits
      cases s with
      | positive => exact hfits
      | negative => exact hfits.neg
  | infinity s => exact h.elim
  | notANumber => exact h.elim

/-! ## Sums and differences -/

/-- A significand brought to a smaller exponent. -/
theorem decreaseExponent_mul (s : Sign) (m : ℕ) {e t : ℤ} (h : t ≤ e) :
    ((s.apply (decreaseExponent m e t).1 : ℤ) : ℚ) * 2 ^ t =
      signed s (m * 2 ^ e) := by
  have hvalue := shiftLeft_mul_two_zpow m e (e - t).toNat
  have ht : e - (e - t).toNat = t := by omega
  rw [ht] at hvalue
  rw [cast_apply, signed_mul, decreaseExponent_eq, hvalue]

theorem add_spec (hu : Canonical u) (hw : Canonical w) :
    Canonical (add Format.binary32 u w) ∧
      Nearest (value u + value w) (value (add Format.binary32 u w)) := by
  cases u with
  | infinity s => exact hu.elim
  | notANumber => exact hu.elim
  | zero s =>
      cases w with
      | infinity s' => exact hw.elim
      | notANumber => exact hw.elim
      | zero s' =>
          rw [value_zero, value_zero, add_zero]
          cases s <;> cases s' <;> exact ⟨trivial, nearest_self fits_zero⟩
      | finite s' m' e' hm' =>
          rw [value_zero, zero_add]
          exact ⟨hw, nearest_self hw.fits⟩
  | finite s m e hm =>
      cases w with
      | infinity s' => exact hw.elim
      | notANumber => exact hw.elim
      | zero s' =>
          rw [value_zero, add_zero]
          exact ⟨hu, nearest_self hu.fits⟩
      | finite s' m' e' hm' =>
          rw [value_finite, value_finite,
            ← decreaseExponent_mul s m (min_le_left e e'),
            ← decreaseExponent_mul s' m' (min_le_right e e'), ← add_mul,
            ← Int.cast_add]
          exact normalize_spec _ _ _

theorem value_neg (u : UnpackedFloat) : value u.neg = -value u := by
  cases u with
  | infinity s => exact neg_zero.symm
  | notANumber => exact neg_zero.symm
  | zero s => exact neg_zero.symm
  | finite s m e hm =>
      cases s with
      | positive => rfl
      | negative => exact (neg_neg _).symm

theorem Canonical.neg (h : Canonical u) : Canonical u.neg := by
  cases u with
  | infinity s => exact h.elim
  | notANumber => exact h.elim
  | zero s => trivial
  | finite s m e hm => exact h

theorem value_abs (u : UnpackedFloat) : value u.abs = |value u| := by
  cases u with
  | infinity s => exact abs_zero.symm
  | notANumber => exact abs_zero.symm
  | zero s => exact abs_zero.symm
  | finite s m e hm =>
      have hnonneg : (0 : ℚ) ≤ m * 2 ^ e :=
        mul_nonneg m.cast_nonneg (two_zpow_pos e).le
      rw [value_finite, abs_signed, abs_of_nonneg hnonneg]
      rfl

theorem Canonical.abs (h : Canonical u) : Canonical u.abs := by
  cases u with
  | infinity s => exact h.elim
  | notANumber => exact h.elim
  | zero s => trivial
  | finite s m e hm => exact h

theorem sub_eq_add (u w : UnpackedFloat) :
    sub Format.binary32 u w = add Format.binary32 u w.neg := by
  cases u <;> cases w <;> try rfl
  rename_i s m e hm s' m' e' hm'
  have hneg (n : ℤ) : (-s').apply n = -s'.apply n := by
    cases s' with
    | positive => rfl
    | negative => exact (neg_neg n).symm
  rw [sub, neg, add]
  simp only [hneg, Int.sub_eq_add_neg]

theorem sub_spec (hu : Canonical u) (hw : Canonical w) :
    Canonical (sub Format.binary32 u w) ∧
      Nearest (value u - value w) (value (sub Format.binary32 u w)) := by
  have hadd := add_spec hu hw.neg
  rwa [value_neg, ← sub_eq_add_neg, ← sub_eq_add] at hadd

/-! ## Quotients -/

variable {m m' : ℕ}

/-- A quotient is worked out to 24 bits at least, unless it gets down to the least
exponent before. -/
theorem exponent_divCore_le (hm : m ≠ 0) (e : ℤ) (m' : ℕ) (hm' : 0 < m') (e' : ℤ) :
    (divCore Format.binary32 m e m' e').2.1 ≤
      Format.binary32.targetExponent (totalExponent
        (divCore Format.binary32 m e m' e').1
        (divCore Format.binary32 m e m' e').2.1) := by
  let t := min (e - e') (Format.binary32.targetExponent
    (totalExponent m e - totalExponent m' e'))
  let k := (e - e' - t).toNat
  change t ≤ Format.binary32.targetExponent (totalExponent ((m <<< k) / m') t)
  have ht : t ≤ max (totalExponent m e - totalExponent m' e' - 24) (-149) :=
    min_le_right _ _
  have hk : t + k = e - e' := by
    have := min_le_left (e - e') (Format.binary32.targetExponent
      (totalExponent m e - totalExponent m' e'))
    omega
  rw [targetExponent_eq, le_max_iff]
  rcases le_max_iff.mp ht with hlarge | hleast
  · refine .inl ?_
    rw [totalExponent, totalExponent] at hlarge
    have hbits : 2 ^ 23 ≤ (m <<< k) / m' := by
      rw [Nat.le_div_iff_mul_le hm', Nat.shiftLeft_eq]
      calc 2 ^ 23 * m' ≤ 2 ^ 23 * 2 ^ (m'.log2 + 1) :=
            Nat.mul_le_mul_left _ Nat.lt_log2_self.le
        _ = 2 ^ (m'.log2 + 24) := by
            rw [← Nat.pow_add]
            congr 1
            omega
        _ ≤ 2 ^ (m.log2 + k) := Nat.pow_le_pow_right two_pos (by omega)
        _ = 2 ^ m.log2 * 2 ^ k := Nat.pow_add _ _ _
        _ ≤ m * 2 ^ k := Nat.mul_le_mul_right _ (Nat.log2_self_le hm)
    have hlog : 23 ≤ ((m <<< k) / m').log2 :=
      (Nat.le_log2 (by omega)).mpr hbits
    rw [totalExponent]
    omega
  · exact .inr hleast

theorem div_spec (hu : Canonical u) (hw : Canonical w) (hzero : value w ≠ 0) :
    Canonical (div Format.binary32 u w) ∧
      Nearest (value u / value w) (value (div Format.binary32 u w)) := by
  cases w with
  | infinity s' => exact hw.elim
  | notANumber => exact hw.elim
  | zero s' => exact absurd (value_zero s') hzero
  | finite s' m' e' hm' =>
      cases u with
      | infinity s => exact hu.elim
      | notANumber => exact hu.elim
      | zero s =>
          rw [value_zero, zero_div]
          exact ⟨trivial, nearest_self fits_zero⟩
      | finite s m e hm =>
          let t := (divCore Format.binary32 m e m' e').2.1
          let k := (e - e' - t).toNat
          have ht : t ≤ e - e' := min_le_left _ _
          have hrounded := (represents_quotient (m <<< k) hm').rounded
            (exponent_divCore_le hm.ne' e m' hm' e') (s / s')
          have hquotient : ((m <<< k : ℕ) : ℚ) / m' * 2 ^ t =
              m * 2 ^ e / (m' * 2 ^ e') := by
            have hshift := shiftLeft_mul_two_zpow m (e - e') k
            have hexponent : e - e' - k = t := by omega
            rw [hexponent, zpow_sub₀ two_ne_zero] at hshift
            rw [div_mul_eq_mul_div, hshift, mul_div_assoc', div_div,
              mul_comm (m' : ℚ)]
          rw [value_finite, value_finite, ← signed_div, ← hquotient]
          exact hrounded

/-! ## Comparisons -/

/-- A smaller exponent means a smaller number. -/
theorem mul_two_zpow_lt {e e' : ℤ} (hm : m < 2 ^ 24) (hm' : 2 ^ 23 ≤ m')
    (h : e < e') : (m : ℚ) * 2 ^ e < m' * 2 ^ e' := by
  have hlt : (m : ℚ) < 2 ^ 24 := by exact_mod_cast hm
  have hle : (2 : ℚ) ^ 23 ≤ m' := by exact_mod_cast hm'
  calc (m : ℚ) * 2 ^ e < 2 ^ 24 * 2 ^ e :=
        mul_lt_mul_of_pos_right hlt (two_zpow_pos e)
    _ = 2 ^ 23 * 2 ^ (e + 1) := by
        rw [zpow_add_one₀ two_ne_zero]
        ring
    _ ≤ m' * 2 ^ e' := by
        have := two_zpow_le (show e + 1 ≤ e' by omega)
        gcongr

/-- Exponents are compared first and then significands, as the numbers are. -/
theorem compares_magnitude {e e' : ℤ} (hm : m < 2 ^ 24) (he : -149 ≤ e)
    (hform : 2 ^ 23 ≤ m ∨ e = -149) (hm' : m' < 2 ^ 24) (he' : -149 ≤ e')
    (hform' : 2 ^ 23 ≤ m' ∨ e' = -149) :
    ((compare e e').then (compare m m')).Compares ((m : ℚ) * 2 ^ e)
      (m' * 2 ^ e') := by
  cases hexponent : compare e e' with
  | lt =>
      have hlt : e < e' := Int.compare_eq_lt.mp hexponent
      exact mul_two_zpow_lt hm (hform'.resolve_right (by omega)) hlt
  | gt =>
      have hlt : e' < e := Int.compare_eq_gt.mp hexponent
      exact mul_two_zpow_lt hm' (hform.resolve_right (by omega)) hlt
  | eq =>
      have heq : e = e' := Int.compare_eq_eq.mp hexponent
      subst heq
      have hpos := two_zpow_pos e
      cases hmantissa : compare m m' with
      | lt =>
          have hlt : m < m' := Nat.compare_eq_lt.mp hmantissa
          exact mul_lt_mul_of_pos_right (Nat.cast_lt.mpr hlt) hpos
      | eq =>
          have heq : m = m' := Nat.compare_eq_eq.mp hmantissa
          exact congrArg (fun n : ℕ => (n : ℚ) * 2 ^ e) heq
      | gt =>
          have hlt : m' < m := Nat.compare_eq_gt.mp hmantissa
          exact mul_lt_mul_of_pos_right (Nat.cast_lt.mpr hlt) hpos

theorem compares_neg {o : Ordering} {p q : ℚ} (h : o.Compares p q) :
    o.Compares (-q) (-p) := by
  cases o with
  | lt => exact neg_lt_neg h
  | eq => exact congrArg Neg.neg (Eq.symm h)
  | gt => exact neg_lt_neg h

/-- Two finite numbers compare as the numbers that they stand for. -/
theorem Canonical.exists_compares (hu : Canonical u) (hw : Canonical w) :
    ∃ o : Ordering, u.compare w = some o ∧ o.Compares (value u) (value w) := by
  have hpos {m : ℕ} (hm : 0 < m) (e : ℤ) : (0 : ℚ) < m * 2 ^ e :=
    mul_pos (Nat.cast_pos.mpr hm) (two_zpow_pos e)
  cases u with
  | infinity s => exact hu.elim
  | notANumber => exact hu.elim
  | zero s =>
      cases w with
      | infinity s' => exact hw.elim
      | notANumber => exact hw.elim
      | zero s' => exact ⟨.eq, rfl, rfl⟩
      | finite s' m' e' hm' =>
          cases s' with
          | positive => exact ⟨.lt, rfl, hpos hm' e'⟩
          | negative => exact ⟨.gt, rfl, neg_lt_zero.mpr (hpos hm' e')⟩
  | finite s m e hm =>
      cases w with
      | infinity s' => exact hw.elim
      | notANumber => exact hw.elim
      | zero s' =>
          cases s with
          | positive => exact ⟨.gt, rfl, hpos hm e⟩
          | negative => exact ⟨.lt, rfl, neg_lt_zero.mpr (hpos hm e)⟩
      | finite s' m' e' hm' =>
          have hcompares := compares_magnitude hu.1 hu.2.1 hu.2.2 hw.1 hw.2.1 hw.2.2
          cases s <;> cases s'
          · refine ⟨_, rfl, ?_⟩
            rw [Ordering.compares_swap]
            exact compares_neg hcompares
          · exact ⟨.lt, rfl,
              (neg_lt_zero.mpr (hpos hm e)).trans (hpos hm' e')⟩
          · exact ⟨.gt, rfl,
              (neg_lt_zero.mpr (hpos hm' e')).trans (hpos hm e)⟩
          · exact ⟨_, rfl, hcompares⟩

theorem Canonical.lt_iff (hu : Canonical u) (hw : Canonical w) :
    u.lt w = true ↔ value u < value w := by
  obtain ⟨o, hcompare, ho⟩ := hu.exists_compares hw
  rw [UnpackedFloat.lt, hcompare, beq_iff_eq, Option.some_inj]
  exact ho.eq_lt

theorem Canonical.le_iff (hu : Canonical u) (hw : Canonical w) :
    u.le w = true ↔ value u ≤ value w := by
  obtain ⟨o, hcompare, ho⟩ := hu.exists_compares hw
  rw [UnpackedFloat.le, hcompare, Option.any_some, ← ho.ne_gt]
  cases o <;> decide

end Starfield.Binary32
