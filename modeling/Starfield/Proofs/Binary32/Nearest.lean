import Mathlib.Algebra.Order.Field.Power
import Mathlib.Algebra.Order.Ring.Rat
import Mathlib.Data.Rat.Floor
import Mathlib.Tactic.Linarith
import Mathlib.Tactic.NormNum
import Mathlib.Tactic.Positivity
import Mathlib.Tactic.Ring

/-!
# Nearest numbers

A result in binary32 has a significand of 24 bits and is a multiple of the least
positive number.  Among the numbers of this form the one nearest to the exact
result is chosen.  What follows from being nearest is proved here once for all
operations: a number of this form is kept, bounds of this form carry over, and the
error is half a unit at most.
-/

namespace Starfield.Binary32

/-- A number that binary32 could hold if there were no largest exponent. -/
def Fits (q : ℚ) : Prop :=
  ∃ n e : ℤ, |n| < 2 ^ 24 ∧ -149 ≤ e ∧ q = n * 2 ^ e

/-- No number that fits is nearer to the first one than the second, which fits. -/
structure Nearest (q v : ℚ) : Prop where
  fits : Fits v
  le : ∀ r, Fits r → |v - q| ≤ |r - q|

variable {q r v : ℚ} {n e s : ℤ}

theorem two_zpow_pos (e : ℤ) : (0 : ℚ) < 2 ^ e :=
  zpow_pos rfl e

theorem two_zpow_add (e : ℤ) (k : ℕ) : (2 : ℚ) ^ (e + k) = 2 ^ k * 2 ^ e := by
  rw [zpow_add₀ two_ne_zero, zpow_natCast, mul_comm]

theorem two_zpow_le {e e' : ℤ} (h : e ≤ e') : (2 : ℚ) ^ e ≤ 2 ^ e' :=
  zpow_le_zpow_right₀ one_le_two h

/-! ## Numbers that fit -/

theorem Fits.neg (h : Fits q) : Fits (-q) := by
  obtain ⟨n, e, hn, he, rfl⟩ := h
  refine ⟨-n, e, ?_, he, ?_⟩
  · rwa [abs_neg]
  · rw [Int.cast_neg, neg_mul]

/-- A significand of just `2 ^ 24` fits too, with one bit less. -/
theorem fits_mul (hn : |n| ≤ 2 ^ 24) (he : -149 ≤ e) : Fits (n * 2 ^ e) := by
  rcases hn.lt_or_eq with hlt | heq
  · exact ⟨n, e, hlt, he, rfl⟩
  · have hhalf : ∃ m, n = 2 * m := by
      rcases abs_eq (by norm_num) |>.mp heq with rfl | rfl
      · exact ⟨2 ^ 23, by norm_num⟩
      · exact ⟨-2 ^ 23, by norm_num⟩
    obtain ⟨m, rfl⟩ := hhalf
    refine ⟨m, e + 1, ?_, by omega, ?_⟩
    · rw [abs_mul] at heq
      norm_num at heq
      omega
    · rw [zpow_add_one₀ two_ne_zero]
      push_cast
      ring

theorem fits_zero : Fits 0 :=
  ⟨0, 0, by norm_num, by norm_num, by norm_num⟩

/-- The last number before `2 ^ 24` units. -/
theorem fits_last (hs : -149 ≤ s) : Fits ((2 ^ 24 - 1) * 2 ^ s) := by
  have hfits : Fits ((2 ^ 24 - 1 : ℤ) * 2 ^ s) := fits_mul (by norm_num) hs
  rwa [Int.cast_sub, Int.cast_pow, Int.cast_ofNat, Int.cast_one] at hfits

/-- A number that fits is a multiple of a unit, or it is less than `2 ^ 23` of
them and the unit is not the least one. -/
theorem Fits.multiple_or_lt (h : Fits q) (s : ℤ) :
    (∃ n : ℤ, q = n * 2 ^ s) ∨ -149 < s ∧ |q| < 2 ^ 23 * 2 ^ s := by
  obtain ⟨n, e, hn, he, rfl⟩ := h
  rcases le_or_gt s e with hle | hlt
  · obtain ⟨k, rfl⟩ := Int.exists_add_of_le hle
    refine .inl ⟨n * 2 ^ k, ?_⟩
    rw [two_zpow_add]
    push_cast
    ring
  · refine .inr ⟨lt_of_le_of_lt he hlt, ?_⟩
    have hn' : (|n| : ℚ) < 2 ^ 24 := by exact_mod_cast hn
    have he' : (2 : ℚ) * 2 ^ e ≤ 2 ^ s := by
      rw [← zpow_one_add₀ two_ne_zero]
      exact two_zpow_le (by omega)
    calc |(n : ℚ) * 2 ^ e| = |(n : ℚ)| * 2 ^ e := by
          rw [abs_mul, abs_of_pos (two_zpow_pos e)]
      _ < 2 ^ 24 * 2 ^ e := mul_lt_mul_of_pos_right hn' (two_zpow_pos e)
      _ = 2 ^ 23 * (2 * 2 ^ e) := by ring
      _ ≤ 2 ^ 23 * 2 ^ s := by gcongr

/-- Below `2 ^ 24` units the next number that fits is one unit less. -/
theorem Fits.le_last (h : Fits q) (hq : q < 2 ^ 24 * 2 ^ s) :
    q ≤ (2 ^ 24 - 1) * 2 ^ s := by
  have hs := two_zpow_pos s
  rcases h.multiple_or_lt s with ⟨n, rfl⟩ | ⟨_, hlt⟩
  · have hn : (n : ℚ) < (2 ^ 24 : ℤ) := by
      push_cast
      exact lt_of_mul_lt_mul_right hq hs.le
    have hn' : n ≤ 2 ^ 24 - 1 := Int.le_sub_one_of_lt (Int.cast_lt.mp hn)
    gcongr
    exact_mod_cast hn'
  · have hle := (le_abs_self q).trans hlt.le
    nlinarith

/-! ## What is nearest -/

theorem Nearest.eq_of_fits (h : Nearest q v) (hq : Fits q) : v = q := by
  have hle := h.le q hq
  rw [sub_self, abs_zero, abs_nonpos_iff] at hle
  exact sub_eq_zero.mp hle

theorem nearest_self (h : Fits q) : Nearest q q where
  fits := h
  le r _ := by
    rw [sub_self, abs_zero]
    exact abs_nonneg _

theorem Nearest.le_of_le (h : Nearest q v) (hr : Fits r) (hq : q ≤ r) : v ≤ r := by
  by_contra hlt
  rw [not_le] at hlt
  have hle := h.le r hr
  rw [abs_of_nonneg (by linarith), abs_of_nonneg (by linarith)] at hle
  linarith

theorem Nearest.neg (h : Nearest q v) : Nearest (-q) (-v) where
  fits := h.fits.neg
  le r hr := by
    have hleft : -v - -q = -(v - q) := by ring
    have hright : r - -q = -(-r - q) := by ring
    rw [hleft, hright, abs_neg, abs_neg]
    exact h.le (-r) hr.neg

theorem Nearest.ge_of_ge (h : Nearest q v) (hr : Fits r) (hq : r ≤ q) : r ≤ v :=
  neg_le_neg_iff.mp (h.neg.le_of_le hr.neg (neg_le_neg hq))

theorem Nearest.abs_le_of_abs_le (h : Nearest q v) (hr : Fits r)
    (hq : |q| ≤ r) : |v| ≤ r := by
  rw [abs_le] at hq ⊢
  exact ⟨h.ge_of_ge hr.neg hq.1, h.le_of_le hr hq.2⟩

/-- Rounding is off by half a unit at most. -/
theorem Nearest.abs_sub_le_half (h : Nearest q v) (hs : -149 ≤ s)
    (hq : |q| ≤ 2 ^ 24 * 2 ^ s) : |v - q| ≤ 2 ^ s / 2 := by
  have hpos := two_zpow_pos s
  have hround := abs_sub_round (q / 2 ^ s)
  have hlarge : |q / 2 ^ s| ≤ 2 ^ 24 := by
    rwa [abs_div, abs_of_pos hpos, div_le_iff₀ hpos]
  have hbits : |round (q / 2 ^ s)| ≤ 2 ^ 24 := by
    have hlt : (|round (q / 2 ^ s)| : ℚ) < (2 ^ 24 + 1 : ℤ) := by
      have htriangle := abs_sub_abs_le_abs_sub (round (q / 2 ^ s) : ℚ) (q / 2 ^ s)
      rw [abs_sub_comm] at htriangle
      push_cast
      linarith
    exact Int.lt_add_one_iff.mp (by exact_mod_cast hlt)
  refine (h.le _ (fits_mul hbits hs)).trans ?_
  have hscaled : (round (q / 2 ^ s) : ℚ) * 2 ^ s - q =
      -(q / 2 ^ s - round (q / 2 ^ s)) * 2 ^ s := by
    field_simp
    ring
  rw [hscaled, abs_mul, abs_neg, abs_of_pos hpos]
  linarith [mul_le_mul_of_nonneg_right hround hpos.le]

/-- A number that is closer than half a unit to the last one before `2 ^ 24` units
does not reach these when it is rounded. -/
theorem Nearest.le_last (h : Nearest q v) (hs : -149 ≤ s)
    (hq : q < (2 ^ 24 - 1 / 2) * 2 ^ s) : v ≤ (2 ^ 24 - 1) * 2 ^ s := by
  have hlast := fits_last hs
  rcases le_or_gt q ((2 ^ 24 - 1) * 2 ^ s) with hle | hgt
  · exact h.le_of_le hlast hle
  · refine h.fits.le_last ?_
    have hnear := h.le _ hlast
    rw [abs_of_neg (sub_neg.mpr hgt)] at hnear
    linarith [le_abs_self (v - q)]

theorem Nearest.abs_le_last (h : Nearest q v) (hs : -149 ≤ s)
    (hq : |q| < (2 ^ 24 - 1 / 2) * 2 ^ s) : |v| ≤ (2 ^ 24 - 1) * 2 ^ s := by
  rw [abs_lt] at hq
  exact abs_le'.mpr ⟨h.le_last hs hq.2, h.neg.le_last hs (neg_lt.mp hq.1)⟩

/-- The nearest multiple of a unit is the nearest number that fits, provided that
the unit is not too small for the number. -/
theorem nearest_multiple (hn : |n| ≤ 2 ^ 24) (hs : -149 ≤ s)
    (hq : |n * 2 ^ s - q| ≤ 2 ^ s / 2)
    (hlarge : -149 < s → 2 ^ 23 * 2 ^ s ≤ |q|) : Nearest q (n * 2 ^ s) where
  fits := fits_mul hn hs
  le r hr := by
    have hpos := two_zpow_pos s
    have hmultiple (k : ℤ) : |n * 2 ^ s - q| ≤ |k * 2 ^ s - q| := by
      rcases eq_or_ne k n with rfl | hne
      · exact le_rfl
      · have hone : (1 : ℚ) ≤ |(k : ℚ) - n| := by
          exact_mod_cast Int.one_le_abs (sub_ne_zero.mpr hne)
        have hapart : 2 ^ s ≤ |(k : ℚ) * 2 ^ s - n * 2 ^ s| := by
          rw [← sub_mul, abs_mul, abs_of_pos hpos]
          exact le_mul_of_one_le_left hpos.le hone
        have htriangle := abs_sub_le ((k : ℚ) * 2 ^ s) q (n * 2 ^ s)
        rw [abs_sub_comm q] at htriangle
        linarith
    rcases hr.multiple_or_lt s with ⟨k, rfl⟩ | ⟨hs', hlt⟩
    · exact hmultiple k
    · -- The other number is farther off than the power of two below this one.
      have hlarge := hlarge hs'
      have hpower : |n * 2 ^ s - q| ≤ |q| - 2 ^ 23 * 2 ^ s := by
        rcases le_or_gt 0 q with hsign | hsign
        · have hle := hmultiple (2 ^ 23)
          rw [abs_of_nonneg hsign] at hlarge ⊢
          rwa [Int.cast_pow, Int.cast_ofNat,
            abs_of_nonpos (sub_nonpos.mpr hlarge), neg_sub] at hle
        · have hle := hmultiple (-2 ^ 23)
          rw [abs_of_neg hsign] at hlarge ⊢
          rw [Int.cast_neg, Int.cast_pow, Int.cast_ofNat,
            abs_of_nonneg (by linarith : 0 ≤ -2 ^ 23 * 2 ^ s - q)] at hle
          linarith
      have hapart := abs_sub_abs_le_abs_sub q r
      rw [abs_sub_comm q] at hapart
      linarith

end Starfield.Binary32
