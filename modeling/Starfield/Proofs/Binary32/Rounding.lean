import Starfield.Proofs.Binary32.Nearest
import Mathlib

/-!
# Rounding

The model of binary32 rounds a significand whose dropped bits are summed up in two
residual bits.  This file proves that what it rounds to is a nearest number, in the
form in which numbers are compared and stored.
-/

namespace Starfield.Binary32

open Float.Model (Format UnpackedFloat totalExponent)
open Float.Model.UnpackedFloat

/-! ## Values -/

def signed : Sign → ℚ → ℚ
  | .positive, q => q
  | .negative, q => -q

/-- The rational number that a finite unpacked number stands for; zero stands in
for the others. -/
def value : UnpackedFloat → ℚ
  | .finite s m e _ => signed s (m * 2 ^ e)
  | _ => 0

@[simp]
theorem value_zero (s : Sign) : value (.zero s) = 0 :=
  rfl

@[simp]
theorem value_finite (s : Sign) (m : ℕ) (e : ℤ) (hm : 0 < m) :
    value (.finite s m e hm) = signed s (m * 2 ^ e) :=
  rfl

/-- The form of results: the significand has all its 24 bits, or the exponent is
the least one. -/
def Canonical : UnpackedFloat → Prop
  | .zero _ => True
  | .finite _ m e _ => m < 2 ^ 24 ∧ -149 ≤ e ∧ (2 ^ 23 ≤ m ∨ e = -149)
  | _ => False

theorem Nearest.signed {q v : ℚ} (h : Nearest q v) (s : Sign) :
    Nearest (signed s q) (signed s v) := by
  cases s with
  | positive => exact h
  | negative => exact h.neg

theorem targetExponent_eq (t : ℤ) :
    Format.binary32.targetExponent t = max (t - 24) (-149) :=
  rfl

/-! ## Residual bits -/

/-- The significand with its first dropped bit. -/
def kept (em : ExtendedMantissa) : ℚ :=
  em.mantissa + if em.roundBit then 1 / 2 else 0

/-- The number is the significand with its first dropped bit, and the second
residual bit tells whether there is more. -/
structure Represents (em : ExtendedMantissa) (y : ℚ) : Prop where
  kept_le : kept em ≤ y
  lt : y < kept em + 1 / 2
  sticky : em.stickyBit = true ↔ kept em < y

variable {em : ExtendedMantissa} {y : ℚ}

theorem represents_exact (m : ℕ) :
    Represents (.ofMantissaAndAccuracy m .exact) m := by
  constructor <;> simp [kept, ExtendedMantissa.ofMantissaAndAccuracy]

theorem kept_shiftRightOne (em : ExtendedMantissa) :
    kept em.shiftRightOne = em.mantissa / 2 := by
  have hm : ((em.mantissa % 2 : ℕ) : ℚ) + 2 * (em.mantissa / 2 : ℕ) =
      em.mantissa := by
    exact_mod_cast Nat.mod_add_div em.mantissa 2
  rcases Nat.mod_two_eq_zero_or_one em.mantissa with hbit | hbit <;>
    simp only [kept, ExtendedMantissa.shiftRightOne, hbit] at hm ⊢ <;>
    norm_num at hm ⊢ <;> linarith

/-- A shift moves the last bit into the residual bits and loses nothing. -/
theorem Represents.shiftRightOne (h : Represents em y) :
    Represents em.shiftRightOne (y / 2) := by
  have hle := h.kept_le
  have hlt := h.lt
  have hsticky := h.sticky
  cases hbit : em.roundBit <;>
    simp only [kept, hbit, if_true, Bool.false_eq_true, if_false] at hle hlt hsticky
  · refine ⟨?_, ?_, ?_⟩
    · rw [kept_shiftRightOne]
      linarith
    · rw [kept_shiftRightOne]
      linarith
    · rw [kept_shiftRightOne, ExtendedMantissa.shiftRightOne, hbit, Bool.false_or,
        hsticky]
      constructor <;> intro <;> linarith
  · refine ⟨?_, ?_, ?_⟩
    · rw [kept_shiftRightOne]
      linarith
    · rw [kept_shiftRightOne]
      linarith
    · rw [kept_shiftRightOne, ExtendedMantissa.shiftRightOne, hbit, Bool.true_or]
      exact iff_of_true rfl (by linarith)

theorem Represents.shiftRight (h : Represents em y) (k : ℕ) :
    Represents (em >>> k) (y / 2 ^ k) := by
  induction k with
  | zero =>
      rw [pow_zero, div_one]
      exact h
  | succ k ih =>
      rw [pow_succ, ← div_div]
      exact ih.shiftRightOne

/-- The rounded significand is a nearest integer. -/
theorem Represents.abs_roundedMantissa_sub_le (h : Represents em y) :
    |em.roundedMantissa - y| ≤ 1 / 2 := by
  obtain ⟨m, roundBit, stickyBit⟩ := em
  obtain ⟨hle, hlt, hsticky⟩ := h
  rw [abs_le]
  cases roundBit <;> cases stickyBit <;>
    simp only [kept, ExtendedMantissa.roundedMantissa, ExtendedMantissa.accuracy,
      Accuracy.roundToNearestEven, if_true, Bool.false_eq_true, if_false, false_iff,
      not_lt, true_iff, Nat.cast_add, Nat.cast_one] at hle hlt hsticky ⊢
  case true.false =>
    have hparity : ((m % 2 : ℕ) : ℚ) ≤ 1 := by
      exact_mod_cast Nat.le_of_lt_succ (Nat.mod_lt m two_pos)
    have hnonneg : (0 : ℚ) ≤ (m % 2 : ℕ) := Nat.cast_nonneg _
    constructor <;> linarith
  all_goals constructor <;> linarith

/-! ## Rounding a significand -/

variable {m : ℕ} {e : ℤ} {accuracy : Accuracy}

theorem mantissa_ofMantissaAndAccuracy (m : ℕ) (accuracy : Accuracy) :
    (ExtendedMantissa.ofMantissaAndAccuracy m accuracy).mantissa = m := by
  rcases accuracy with _ | _ | _ | _ <;> rfl

/-- What becomes of a rounded significand: one that has reached 25 bits is shifted
once more. -/
def carried (s : Sign) (n : ℕ) (e : ℤ) : UnpackedFloat :=
  let (em, e') := shiftToTargetExponent Format.binary32 n e .exact
  if h : em.mantissa = 0 then .zero s
  else .finite s em.mantissa e' (Nat.pos_of_ne_zero h)

theorem roundWithAccuracy_eq_carried (s : Sign) (m : ℕ) (e : ℤ)
    (accuracy : Accuracy) :
    let k := (Format.binary32.targetExponent (totalExponent m e) - e).toNat
    roundWithAccuracy Format.binary32 s m e accuracy =
      carried s (ExtendedMantissa.ofMantissaAndAccuracy m accuracy >>>
        k).roundedMantissa (e + k) :=
  rfl

theorem carried_of_lt (s : Sign) {n : ℕ} (hn : n < 2 ^ 24) (he : -149 ≤ e) :
    carried s n e =
      if h : n = 0 then .zero s else .finite s n e (Nat.pos_of_ne_zero h) := by
  have hbits : n.log2 < 24 := by
    rcases eq_or_ne n 0 with rfl | hne
    · decide
    · exact (Nat.log2_lt hne).mpr hn
  have hshift :
      (Format.binary32.targetExponent (totalExponent n e) - e).toNat = 0 := by
    rw [targetExponent_eq, totalExponent]
    omega
  rw [carried, shiftToTargetExponent, shiftToExponent, hshift, Nat.cast_zero,
    add_zero]
  rfl

theorem carried_two_pow (s : Sign) (he : -149 ≤ e) :
    carried s (2 ^ 24) e = .finite s (2 ^ 23) (e + 1) (by decide) := by
  have hshift : (Format.binary32.targetExponent (totalExponent (2 ^ 24) e) -
      e).toNat = 1 := by
    rw [targetExponent_eq, totalExponent, Nat.log2_two_pow]
    omega
  rw [carried, shiftToTargetExponent, shiftToExponent, hshift]
  rfl

/-- The last shift loses nothing and leaves the form of results. -/
theorem carried_spec (s : Sign) {n : ℕ} (hn : n ≤ 2 ^ 24) (he : -149 ≤ e)
    (hlarge : -149 < e → 2 ^ 23 ≤ n) :
    Canonical (carried s n e) ∧ value (carried s n e) = signed s (n * 2 ^ e) := by
  rcases hn.lt_or_eq with hlt | rfl
  · rw [carried_of_lt s hlt he]
    split
    · rename_i hzero
      subst hzero
      refine ⟨trivial, ?_⟩
      cases s <;> simp [value, signed]
    · exact ⟨⟨hlt, he, by omega⟩, rfl⟩
  · rw [carried_two_pow s he]
    refine ⟨⟨by decide, by omega, .inl le_rfl⟩, ?_⟩
    rw [value, zpow_add_one₀ two_ne_zero]
    congr 1
    push_cast
    ring

theorem Represents.mantissa_le (h : Represents em y) : em.mantissa ≤ y := by
  refine le_trans ?_ h.kept_le
  rw [kept]
  split <;> linarith

theorem Represents.lt_mantissa_add_one (h : Represents em y) :
    y < em.mantissa + 1 := by
  refine h.lt.trans_le ?_
  rw [kept]
  split <;> linarith

/-- The significand that the first shift leaves has 24 bits, all of them unless the
exponent is the least one. -/
theorem Represents.scaled
    (h : Represents (.ofMantissaAndAccuracy m accuracy) y) {k : ℕ}
    (hk : Format.binary32.targetExponent (totalExponent m e) = e + k) :
    y / 2 ^ k < 2 ^ 24 ∧ (-149 < e + k → 2 ^ 23 ≤ y / 2 ^ k) := by
  have hle := h.mantissa_le
  have hlt := h.lt_mantissa_add_one
  rw [mantissa_ofMantissaAndAccuracy] at hle hlt
  rw [targetExponent_eq, totalExponent] at hk
  have hpos : (0 : ℚ) < 2 ^ k := by positivity
  constructor
  · rw [div_lt_iff₀ hpos, ← pow_add]
    have hm : m + 1 ≤ 2 ^ (24 + k) :=
      (Nat.lt_log2_self).trans_le (Nat.pow_le_pow_right two_pos (by omega))
    exact hlt.trans_le (by exact_mod_cast hm)
  · intro hlarge
    rw [le_div_iff₀ hpos, ← pow_add]
    have hbits : m.log2 = 23 + k := by omega
    have hm : 2 ^ (23 + k) ≤ m := by
      rw [← hbits]
      refine Nat.log2_self_le ?_
      rintro rfl
      rw [Nat.log2_zero] at hbits
      omega
    exact le_trans (by exact_mod_cast hm) hle

/-- A nearest integer of a significand of 24 bits has at most one more, and makes a
nearest number. -/
theorem nearest_of_abs_sub_le {n : ℕ} {z : ℚ} (hn : |n - z| ≤ 1 / 2)
    (hlt : z < 2 ^ 24) (he : -149 ≤ e) (hlarge : -149 < e → 2 ^ 23 ≤ z) :
    n ≤ 2 ^ 24 ∧ (-149 < e → 2 ^ 23 ≤ n) ∧ Nearest (z * 2 ^ e) (n * 2 ^ e) := by
  have hpos := two_zpow_pos e
  have hbounds := abs_le.mp hn
  have hle : n ≤ 2 ^ 24 := by
    have hlt' : (n : ℚ) < (2 ^ 24 + 1 : ℕ) := by
      push_cast
      linarith
    exact Nat.lt_succ_iff.mp (Nat.cast_lt.mp hlt')
  have hge : -149 < e → 2 ^ 23 ≤ n := fun h => by
    have hlt' : ((2 ^ 23 : ℕ) : ℚ) < (n + 1 : ℕ) := by
      push_cast
      linarith [hlarge h]
    exact Nat.lt_succ_iff.mp (Nat.cast_lt.mp hlt')
  refine ⟨hle, hge, ?_⟩
  have hnearest := @nearest_multiple (z * 2 ^ e) n e (by simpa using hle) he
  rw [Int.cast_natCast, ← sub_mul, abs_mul, abs_mul, abs_of_pos hpos] at hnearest
  refine hnearest ?_ fun h => ?_
  · linarith [mul_le_mul_of_nonneg_right hn hpos.le]
  · exact mul_le_mul_of_nonneg_right ((hlarge h).trans (le_abs_self z)) hpos.le

/-- Rounding gives a nearest number, in the form of results. -/
theorem Represents.rounded (h : Represents (.ofMantissaAndAccuracy m accuracy) y)
    (he : e ≤ Format.binary32.targetExponent (totalExponent m e)) (s : Sign) :
    Canonical (roundWithAccuracy Format.binary32 s m e accuracy) ∧
      Nearest (signed s (y * 2 ^ e))
        (value (roundWithAccuracy Format.binary32 s m e accuracy)) := by
  obtain ⟨k, hk⟩ := Int.exists_add_of_le he
  have hshift :
      (Format.binary32.targetExponent (totalExponent m e) - e).toNat = k := by
    omega
  have hleast : -149 ≤ e + k := by
    rw [← hk]
    exact le_max_right _ _
  have hexact : y / 2 ^ k * 2 ^ (e + k) = y * 2 ^ e := by
    rw [two_zpow_add]
    field_simp
  obtain ⟨hlt, hlarge⟩ := h.scaled hk
  obtain ⟨hn, hn', hnearest⟩ := nearest_of_abs_sub_le
    (h.shiftRight k).abs_roundedMantissa_sub_le hlt hleast hlarge
  rw [hexact] at hnearest
  rw [roundWithAccuracy_eq_carried, hshift]
  obtain ⟨hcanonical, hvalue⟩ := carried_spec s hn hleast hn'
  rw [hvalue]
  exact ⟨hcanonical, hnearest.signed s⟩

/-! ## Rounding integers -/

theorem decreaseExponent_eq (m : ℕ) (e t : ℤ) :
    decreaseExponent m e t = (m <<< (e - t).toNat, e - (e - t).toNat) :=
  rfl

/-- The significand grows by as much as the power of two shrinks. -/
theorem shiftLeft_mul_two_zpow (m : ℕ) (e : ℤ) (k : ℕ) :
    ((m <<< k : ℕ) : ℚ) * 2 ^ (e - k) = m * 2 ^ e := by
  have hpower := two_zpow_add (e - k) k
  rw [sub_add_cancel] at hpower
  rw [Nat.shiftLeft_eq, hpower]
  push_cast
  ring

theorem totalExponent_shiftLeft (hm : m ≠ 0) (e : ℤ) (k : ℕ) :
    totalExponent (m <<< k) (e - k) = totalExponent m e := by
  have hbits : (m <<< k).log2 = m.log2 + k := by
    have hpos : 0 < 2 ^ k := Nat.two_pow_pos k
    rw [Nat.shiftLeft_eq, Nat.log2_eq_iff (Nat.mul_ne_zero hm hpos.ne'),
      Nat.add_right_comm, Nat.pow_add, Nat.pow_add]
    exact ⟨Nat.mul_le_mul_right _ (Nat.log2_self_le hm),
      Nat.mul_lt_mul_of_pos_right Nat.lt_log2_self hpos⟩
  rw [totalExponent, totalExponent, hbits]
  push_cast
  ring

theorem round_spec (s : Sign) (hm : m ≠ 0) (e : ℤ) :
    Canonical (UnpackedFloat.round Format.binary32 s m e) ∧
      Nearest (signed s (m * 2 ^ e))
        (value (UnpackedFloat.round Format.binary32 s m e)) := by
  let k := (e - Format.binary32.targetExponent (totalExponent m e)).toNat
  have hround : UnpackedFloat.round Format.binary32 s m e =
      roundWithAccuracy Format.binary32 s (m <<< k) (e - k) .exact :=
    rfl
  have htarget := totalExponent_shiftLeft hm e k
  have hle : e - k ≤
      Format.binary32.targetExponent (totalExponent (m <<< k) (e - k)) := by
    rw [htarget]
    omega
  have hrounded := (represents_exact (m <<< k)).rounded hle s
  rwa [shiftLeft_mul_two_zpow, ← hround] at hrounded

theorem normalize_spec (n e : ℤ) (zeroSign : Sign) :
    Canonical (UnpackedFloat.normalize Format.binary32 n e zeroSign) ∧
      Nearest (n * 2 ^ e)
        (value (UnpackedFloat.normalize Format.binary32 n e zeroSign)) := by
  rw [UnpackedFloat.normalize]
  split
  · rename_i hcompare
    have hneg : n < 0 := Int.compare_eq_lt.mp hcompare
    have hround := round_spec .negative (m := (-n).toNat) (by omega) e
    have hcast : (((-n).toNat : ℕ) : ℚ) = -n := by
      exact_mod_cast Int.toNat_of_nonneg (by omega)
    rwa [signed, hcast, neg_mul, neg_neg] at hround
  · rename_i hcompare
    have hzero : n = 0 := Int.compare_eq_eq.mp hcompare
    rw [hzero, Int.cast_zero, zero_mul]
    exact ⟨trivial, nearest_self fits_zero⟩
  · rename_i hcompare
    have hpos : 0 < n := Int.compare_eq_gt.mp hcompare
    have hround := round_spec .positive (m := n.toNat) (by omega) e
    have hcast : ((n.toNat : ℕ) : ℚ) = n := by
      exact_mod_cast Int.toNat_of_nonneg hpos.le
    rwa [signed, hcast] at hround

/-! ## Rounding quotients -/

/-- A rest is told by how its double compares with one. -/
theorem represents_inexact (whole : ℕ) {rest : ℚ} (hpos : 0 < rest)
    (hlt : rest < 1) {o : Ordering} (ho : o.Compares (2 * rest) 1) :
    Represents (.ofMantissaAndAccuracy whole (.inexact o)) (whole + rest) := by
  cases o with
  | lt =>
      have hbelow : 2 * rest < 1 := ho
      constructor <;>
        simp [kept, ExtendedMantissa.ofMantissaAndAccuracy] <;> linarith
  | eq =>
      have heq : 2 * rest = 1 := ho
      constructor <;>
        simp [kept, ExtendedMantissa.ofMantissaAndAccuracy] <;> linarith
  | gt =>
      have habove : 1 < 2 * rest := ho
      constructor <;>
        simp [kept, ExtendedMantissa.ofMantissaAndAccuracy] <;> linarith

/-- The whole part of a quotient with what is said about the rest. -/
theorem represents_quotient (n : ℕ) {d : ℕ} (hd : 0 < d) :
    Represents (.ofMantissaAndAccuracy (n / d) (accuracyOfFraction (n % d) d))
      (n / d) := by
  have hpos : (0 : ℚ) < d := Nat.cast_pos.mpr hd
  have hdivision : (n : ℚ) / d = (n / d : ℕ) + (n % d : ℕ) / d := by
    have hn : ((n % d : ℕ) : ℚ) + d * (n / d : ℕ) = n := by
      exact_mod_cast Nat.mod_add_div n d
    field_simp
    linarith
  have hrest : ((n % d : ℕ) : ℚ) < d := Nat.cast_lt.mpr (Nat.mod_lt n hd)
  rw [hdivision, accuracyOfFraction]
  generalize n / d = whole
  generalize n % d = rest at hrest
  split
  · rename_i hzero
    rw [hzero, Nat.cast_zero, zero_div, add_zero]
    exact represents_exact whole
  · have hcompares : (compare (2 * rest) d).Compares (2 * ((rest : ℚ) / d)) 1 := by
      have htwice : ((2 * rest : ℕ) : ℚ) / d = 2 * (rest / d) := by
        push_cast
        ring
      rw [← htwice]
      cases hcompare : compare (2 * rest) d with
      | lt =>
          have hlt := Nat.compare_eq_lt.mp hcompare
          exact (div_lt_one hpos).mpr (Nat.cast_lt.mpr hlt)
      | eq =>
          rw [Nat.compare_eq_eq.mp hcompare]
          exact div_self hpos.ne'
      | gt =>
          have hgt := Nat.compare_eq_gt.mp hcompare
          exact (one_lt_div hpos).mpr (Nat.cast_lt.mpr hgt)
    exact represents_inexact whole
      (div_pos (Nat.cast_pos.mpr (by omega)) hpos) ((div_lt_one hpos).mpr hrest)
      hcompares

end Starfield.Binary32
