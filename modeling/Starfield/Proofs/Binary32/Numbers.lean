import Starfield.Proofs.Binary32.Arithmetic

/-!
# Numbers

A finite number of binary32 stands for a rational number.  Operations on finite
numbers give nearest results as long as these are not too large, and comparisons are
those of the rational numbers.
-/

namespace Starfield.Binary32

open Float.Model (Format UnpackedFloat totalExponent)
open Float.Model.UnpackedFloat

variable {u : UnpackedFloat}

/-! ## Stored numbers -/

/-- The exponent of a number that can be stored is not too large. -/
def Storable : UnpackedFloat → Prop
  | .finite _ _ e _ => e ≤ 104
  | _ => True

theorem toNat_append_one (m : BitVec 23) : (1#1 ++ m).toNat = 2 ^ 23 + m.toNat := by
  rw [BitVec.toNat_append, ← Nat.shiftLeft_add_eq_or_of_lt m.isLt]
  rfl

/-- A finite number is stored in the form of results. -/
theorem canonical_unpack {b : BitVec Format.binary32.numBits}
    (h : (unpack Format.binary32 b).isFinite = true) :
    Canonical (unpack Format.binary32 b) ∧ Storable (unpack Format.binary32 b) := by
  revert h
  fun_cases unpack Format.binary32 b with
  | case1 => exact nofun
  | case2 => exact nofun
  | case3 => exact fun _ => ⟨trivial, trivial⟩
  | case4 mantissa exponent e sign s _ hzero _ =>
      intro _
      have hmantissa : mantissa.toNat < 2 ^ 23 := mantissa.isLt
      have he : e + 1 = -149 := by
        change (exponent.toNat : ℤ) - 150 + 1 = -149
        rw [hzero]
        rfl
      rw [he]
      exact ⟨⟨by omega, le_rfl, .inr rfl⟩, show (-149 : ℤ) ≤ 104 by decide⟩
  | case5 mantissa exponent e sign s hinfinity hzero =>
      intro _
      have hmantissa : mantissa.toNat < 2 ^ 23 := mantissa.isLt
      have hlt : exponent.toNat < 255 := by
        have hne : exponent.toNat ≠ 255 := fun h =>
          hinfinity (BitVec.eq_of_toNat_eq h)
        have hlt : exponent.toNat < 256 := exponent.isLt
        omega
      have hpos : exponent.toNat ≠ 0 := fun h => hzero (BitVec.eq_of_toNat_eq h)
      have he : e = (exponent.toNat : ℤ) - 150 := rfl
      have hbits := toNat_append_one mantissa
      exact ⟨⟨by omega, by omega, .inl (by omega)⟩, show e ≤ 104 by omega⟩

theorem unpack_normal (s : Sign) {exponent : BitVec 8} (hinfinity : exponent ≠ -1#8)
    (hzero : exponent ≠ 0#8) (m : BitVec 23) :
    unpack Format.binary32 (packComponents Format.binary32 s exponent m) =
      .finite s (2 ^ 23 + m.toNat) (exponent.toNat - 150) (by omega) := by
  simp only [unpack, unpackExponent_packComponents, unpackMantissa_packComponents,
    unpackSign_packComponents, Sign.ofBitVec_toBitVec, if_neg hinfinity,
    if_neg hzero, toNat_append_one]
  rfl

theorem unpack_subnormal (s : Sign) {m : BitVec 23} (hm : 0 < m.toNat) :
    unpack Format.binary32 (packComponents Format.binary32 s 0 m) =
      .finite s m.toNat (-149) hm := by
  have hzero : (0 : BitVec 8) = 0#8 := rfl
  have hne : m ≠ 0#23 := by
    rintro rfl
    exact absurd hm (by decide)
  simp only [unpack, unpackExponent_packComponents, unpackMantissa_packComponents,
    unpackSign_packComponents, Sign.ofBitVec_toBitVec]
  rw [if_neg (by decide), if_pos hzero, dif_neg hne]
  rfl

theorem unpack_pack_normal (s : Sign) {m : ℕ} {e : ℤ} (hm : 0 < m)
    (hlow : 2 ^ 23 ≤ m) (hbits : m < 2 ^ 24) (he : -149 ≤ e) (hfit : e ≤ 104) :
    unpack Format.binary32 (pack Format.binary32 (.finite s m e hm)) =
      .finite s m e hm := by
  obtain ⟨biased, hbiased⟩ : ∃ biased : ℕ, (biased : ℤ) = e + 150 :=
    ⟨(e + 150).toNat, Int.toNat_of_nonneg (by omega)⟩
  have hexponent : (e + (Format.binary32.exponentBias : ℤ) +
      Format.binary32.mantissaBitsWithoutImplicit).toNat = biased := by
    change (e + 127 + 23).toNat = biased
    omega
  have hlog : m.log2 + 1 = Format.binary32.mantissaBits := by
    rw [(Nat.log2_eq_iff hm.ne').mpr ⟨hlow, hbits⟩]
    rfl
  have hfield : (BitVec.ofNat 8 biased).toNat = biased :=
    Nat.mod_eq_of_lt (by omega)
  have hmantissa : (BitVec.ofNat 23 m).toNat = m - 2 ^ 23 := by
    rw [BitVec.toNat_ofNat]
    omega
  have hne (n : BitVec 8) (hn : n.toNat ≠ biased) : BitVec.ofNat 8 biased ≠ n := by
    rintro rfl
    exact hn hfield
  rw [pack]
  dsimp only
  rw [hexponent, if_neg (by omega), if_pos hlog,
    unpack_normal s (hne _ (show 255 ≠ biased by omega))
      (hne _ (show 0 ≠ biased by omega))]
  congr 1 <;> omega

theorem unpack_pack_subnormal (s : Sign) {m : ℕ} (hm : 0 < m) (hlow : m < 2 ^ 23) :
    unpack Format.binary32 (pack Format.binary32 (.finite s m (-149) hm)) =
      .finite s m (-149) hm := by
  have hlog : m.log2 + 1 ≠ Format.binary32.mantissaBits := by
    have hlt : m.log2 < 23 := (Nat.log2_lt hm.ne').mpr hlow
    change m.log2 + 1 ≠ 24
    omega
  have hmantissa : (BitVec.ofNat 23 m).toNat = m :=
    Nat.mod_eq_of_lt (by omega)
  rw [pack]
  dsimp only
  rw [if_neg (by decide), if_neg hlog]
  refine (unpack_subnormal s (hmantissa.symm ▸ hm)).trans ?_
  congr 1

/-- What is stored in the form of results is found again. -/
theorem unpack_pack (hu : Canonical u) (hfit : Storable u) :
    unpack Format.binary32 (pack Format.binary32 u) = u := by
  cases u with
  | infinity s => exact hu.elim
  | notANumber => exact hu.elim
  | zero s => exact unpack_packedZero
  | finite s m e hm =>
      obtain ⟨hbits, he, hform⟩ := hu
      rcases le_or_gt (2 ^ 23) m with hlow | hlow
      · exact unpack_pack_normal s hm hlow hbits he hfit
      · obtain rfl := hform.resolve_left (by omega)
        exact unpack_pack_subnormal s hm hlow

/-! ## Numbers -/

def toRat (x : Float32) : ℚ :=
  value x.toModel.unpack

/-- A number is finite and nearest to an exact result. -/
structure RoundsTo (x : Float32) (q : ℚ) : Prop where
  finite : x.isFinite = true
  nearest : Nearest q (toRat x)

def largest : ℚ :=
  (2 ^ 24 - 1) * 2 ^ (104 : ℤ)

/-- Results from here on are not rounded to the largest number any more. -/
def overflow : ℚ :=
  (2 ^ 24 - 1 / 2) * 2 ^ (104 : ℤ)

theorem largest_lt_overflow : largest < overflow :=
  mul_lt_mul_of_pos_right (by norm_num) (two_zpow_pos 104)

variable {x y a b : Float32} {q : ℚ}

theorem canonical_of_isFinite (h : x.isFinite = true) :
    Canonical x.toModel.unpack ∧ Storable x.toModel.unpack :=
  canonical_unpack h

theorem unpack_ofModel (hu : Canonical u) (hfit : Storable u) :
    (Float32.ofModel (.pack u)).toModel.unpack = u :=
  unpack_pack hu hfit

theorem isFinite_ofModel (hu : Canonical u) (hfit : Storable u) :
    (Float32.ofModel (.pack u)).isFinite = true := by
  change (Float32.ofModel (.pack u)).toModel.unpack.isFinite = true
  rw [unpack_ofModel hu hfit]
  cases u with
  | infinity s => exact hu.elim
  | notANumber => exact hu.elim
  | zero s => rfl
  | finite s m e hm => rfl

theorem toRat_ofModel (hu : Canonical u) (hfit : Storable u) :
    toRat (.ofModel (.pack u)) = value u :=
  congrArg value (unpack_ofModel hu hfit)

theorem fits_toRat (h : x.isFinite = true) : Fits (toRat x) :=
  (canonical_of_isFinite h).1.fits

/-- What is not larger than the largest number can be stored. -/
theorem storable_iff (hu : Canonical u) : Storable u ↔ |value u| ≤ largest := by
  cases u with
  | infinity s => exact hu.elim
  | notANumber => exact hu.elim
  | zero s =>
      rw [value_zero, abs_zero]
      exact iff_of_true trivial (by rw [largest]; positivity)
  | finite s m e hm =>
      obtain ⟨hbits, he, hform⟩ := hu
      have hpos := two_zpow_pos e
      have hnonneg : (0 : ℚ) ≤ m * 2 ^ e := mul_nonneg m.cast_nonneg hpos.le
      rw [value_finite, abs_signed, abs_of_nonneg hnonneg, largest]
      constructor
      · intro hfit
        change e ≤ 104 at hfit
        have hm' : (m : ℚ) ≤ 2 ^ 24 - 1 := by
          rw [le_sub_iff_add_le]
          exact_mod_cast hbits
        exact mul_le_mul hm' (two_zpow_le hfit) hpos.le (by norm_num)
      · intro hle
        change e ≤ 104
        by_contra hlarge
        have hlt := @mul_two_zpow_lt (2 ^ 24 - 1) m 104 e (by decide)
          (hform.resolve_right (by omega)) (by omega)
        rw [Nat.cast_sub (by decide), Nat.cast_pow, Nat.cast_ofNat,
          Nat.cast_one] at hlt
        exact absurd hle (not_le.mpr hlt)

theorem abs_toRat_le (h : x.isFinite = true) : |toRat x| ≤ largest :=
  let ⟨hcanonical, hstorable⟩ := canonical_of_isFinite h
  (storable_iff hcanonical).mp hstorable

/-! ## Operations -/

/-- A nearest number that is not too large is stored as it is. -/
theorem rounds_ofModel (hu : Canonical u) (hnearest : Nearest q (value u))
    (hq : |q| < overflow) :
    RoundsTo (.ofModel (.pack u)) q := by
  have hfit : Storable u :=
    (storable_iff hu).mpr (hnearest.abs_le_last (by norm_num) hq)
  refine ⟨isFinite_ofModel hu hfit, ?_⟩
  rwa [toRat_ofModel hu hfit]

section

variable (hx : x.isFinite = true) (hy : y.isFinite = true)
include hx hy

theorem rounds_add (hq : |toRat x + toRat y| < overflow) :
    RoundsTo (x + y) (toRat x + toRat y) :=
  let ⟨hcanonical, hnearest⟩ :=
    add_spec (canonical_of_isFinite hx).1 (canonical_of_isFinite hy).1
  rounds_ofModel hcanonical hnearest hq

theorem rounds_sub (hq : |toRat x - toRat y| < overflow) :
    RoundsTo (x - y) (toRat x - toRat y) :=
  let ⟨hcanonical, hnearest⟩ :=
    sub_spec (canonical_of_isFinite hx).1 (canonical_of_isFinite hy).1
  rounds_ofModel hcanonical hnearest hq

theorem rounds_div (hzero : toRat y ≠ 0)
    (hq : |toRat x / toRat y| < overflow) :
    RoundsTo (x / y) (toRat x / toRat y) :=
  let ⟨hcanonical, hnearest⟩ :=
    div_spec (canonical_of_isFinite hx).1 (canonical_of_isFinite hy).1 hzero
  rounds_ofModel hcanonical hnearest hq

theorem lt_iff : x < y ↔ toRat x < toRat y := by
  rw [toRat, toRat,
    ← (canonical_of_isFinite hx).1.lt_iff (canonical_of_isFinite hy).1]
  exact decide_eq_true_iff

theorem le_iff : x ≤ y ↔ toRat x ≤ toRat y := by
  rw [toRat, toRat,
    ← (canonical_of_isFinite hx).1.le_iff (canonical_of_isFinite hy).1]
  exact decide_eq_true_iff

end

theorem Storable.neg (h : Storable u) : Storable u.neg := by
  cases u <;> exact h

theorem Storable.abs (h : Storable u) : Storable u.abs := by
  cases u <;> exact h

theorem isFinite_neg (h : x.isFinite = true) : (-x).isFinite = true :=
  let ⟨hcanonical, hstorable⟩ := canonical_of_isFinite h
  isFinite_ofModel hcanonical.neg hstorable.neg

theorem toRat_neg (h : x.isFinite = true) : toRat (-x) = -toRat x :=
  let ⟨hcanonical, hstorable⟩ := canonical_of_isFinite h
  (toRat_ofModel hcanonical.neg hstorable.neg).trans (value_neg _)

theorem isFinite_abs (h : x.isFinite = true) : x.abs.isFinite = true :=
  let ⟨hcanonical, hstorable⟩ := canonical_of_isFinite h
  isFinite_ofModel hcanonical.abs hstorable.abs

theorem toRat_abs (h : x.isFinite = true) : toRat x.abs = |toRat x| :=
  let ⟨hcanonical, hstorable⟩ := canonical_of_isFinite h
  (toRat_ofModel hcanonical.abs hstorable.abs).trans (value_abs _)

/-- What lies between finite numbers is finite. -/
theorem isFinite_of_le_of_le (ha : a.isFinite = true) (hb : b.isFinite = true)
    (hax : a ≤ x) (hxb : x ≤ b) : x.isFinite = true := by
  change x.toModel.unpack.isFinite = true
  change a.toModel.unpack.isFinite = true at ha
  change b.toModel.unpack.isFinite = true at hb
  replace hax : a.toModel.unpack.le x.toModel.unpack = true :=
    decide_eq_true_iff.mp hax
  replace hxb : x.toModel.unpack.le b.toModel.unpack = true :=
    decide_eq_true_iff.mp hxb
  generalize a.toModel.unpack = a at ha hax
  generalize b.toModel.unpack = b at hb hxb
  generalize x.toModel.unpack = x at hax hxb
  cases x with
  | zero s => rfl
  | finite s m e hm => rfl
  | notANumber => cases a <;> cases hax
  | infinity s =>
      cases s with
      | positive =>
          cases b with
          | infinity s => cases hb
          | notANumber => cases hb
          | zero s => cases hxb
          | finite s m e hm => cases s <;> cases hxb
      | negative =>
          cases a with
          | infinity s => cases ha
          | notANumber => cases ha
          | zero s => cases hax
          | finite s m e hm => cases s <;> cases hax

theorem unpack_zero : (0 : Float32).toModel.unpack = .zero .positive :=
  rfl

theorem isFinite_zero : (0 : Float32).isFinite = true :=
  congrArg UnpackedFloat.isFinite unpack_zero

theorem toRat_zero : toRat 0 = 0 :=
  congrArg value unpack_zero

theorem toRat_two : toRat 2 = 2 := by
  have hunpack : (2 : Float32).toModel.unpack =
      .finite .positive (2 ^ 23) (-22) (by decide) := rfl
  rw [toRat, hunpack, value_finite, signed]
  norm_num

theorem toRat_ten : toRat 10 = 10 := by
  have hunpack : (10 : Float32).toModel.unpack =
      .finite .positive (10 * 2 ^ 20) (-20) (by decide) := rfl
  rw [toRat, hunpack, value_finite, signed]
  norm_num

/-- Half of a finite number is finite and nearest to its half. -/
theorem rounds_half (h : x.isFinite = true) : RoundsTo (x / 2) (toRat x / 2) := by
  have hle := abs_toRat_le h
  have hlt : |toRat x / toRat 2| < overflow := by
    rw [toRat_two, abs_div, abs_two]
    linarith [largest_lt_overflow, abs_nonneg (toRat x)]
  have hround := rounds_div h rfl (by rw [toRat_two]; exact two_ne_zero) hlt
  rwa [toRat_two] at hround

end Starfield.Binary32
