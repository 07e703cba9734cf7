import Starfield.Geometry.Cube
import Starfield.Proofs.Binary32.Numbers

/-!
# Cubes and rounding

The cube of a child has a centre and a size that are rounded, and a point goes to
the child on whose side of the rounded centre it lies.  So a point need not lie in
the cube that it is led to.  This file says by how much it may be off, and when
nothing is rounded and it is not off at all.
-/

namespace Starfield

open Binary32

/-! ## Axes -/

inductive Axis where
  | x
  | y
  | z
deriving DecidableEq

def Point.along : Axis → Point → Float32
  | .x, p => p.x
  | .y, p => p.y
  | .z, p => p.z

def Octant.along : Axis → Octant → Bool
  | .x, o => o.x
  | .y, o => o.y
  | .z, o => o.z

namespace Cube

variable {cube : Cube} {p : Point} {o : Octant} {axis : Axis}

theorem along_octantOf (cube : Cube) (p : Point) (axis : Axis) :
    (cube.octantOf p).along axis =
      decide (p.along axis < cube.center.along axis) := by
  cases axis <;> rfl

@[simp]
theorem half_child (cube : Cube) (o : Octant) :
    (cube.child o).half = cube.half / 2 :=
  rfl

theorem along_center_child (cube : Cube) (o : Octant) (axis : Axis) :
    (cube.child o).center.along axis =
      if o.along axis then cube.center.along axis - cube.half / 2
      else cube.center.along axis + cube.half / 2 := by
  cases axis <;> rfl

theorem contains_iff (cube : Cube) (p : Point) :
    cube.contains p = true ↔
      ∀ axis, (p.along axis - cube.center.along axis).abs ≤ cube.half := by
  rw [contains, Bool.and_eq_true, Bool.and_eq_true, decide_eq_true_iff,
    decide_eq_true_iff, decide_eq_true_iff, and_assoc]
  constructor
  · rintro ⟨hx, hy, hz⟩ (_ | _ | _)
    · exact hx
    · exact hy
    · exact hz
  · exact fun h => ⟨h .x, h .y, h .z⟩

/-! ## Distances -/

structure Finite (cube : Cube) : Prop where
  center : ∀ axis, (cube.center.along axis).isFinite = true
  half : cube.half.isFinite = true

/-- A point is beyond the faces of a cube by so much at most. -/
def Near (slack : ℚ) (cube : Cube) (p : Point) : Prop :=
  ∀ axis, |toRat (p.along axis) - toRat (cube.center.along axis)| ≤
    toRat cube.half + slack

/-- Where the centre of a child would be if sums were exact. -/
def middle (cube : Cube) (o : Octant) (axis : Axis) : ℚ :=
  if o.along axis then
    toRat (cube.center.along axis) - toRat (cube.child o).half
  else toRat (cube.center.along axis) + toRat (cube.child o).half

theorem Near.mono {slack slack' : ℚ} (h : cube.Near slack p) (hle : slack ≤ slack') :
    cube.Near slack' p :=
  fun axis => (h axis).trans (by linarith)

/-- A point is off from the cube of its octant by what it was off before and by the
errors made in rounding the size and the centre. -/
theorem Near.child {slack centerError halfError : ℚ} (h : cube.Near slack p)
    (hslack : 0 ≤ slack) (hcube : cube.Finite)
    (hp : ∀ axis, (p.along axis).isFinite = true)
    (hhalf : |toRat cube.half - 2 * toRat (cube.half / 2)| ≤ halfError)
    (hcenter : ∀ axis, |toRat ((cube.child (cube.octantOf p)).center.along axis) -
      cube.middle (cube.octantOf p) axis| ≤ centerError) :
    (cube.child (cube.octantOf p)).Near (slack + centerError + halfError) p := by
  intro axis
  have hnear := abs_le.mp (h axis)
  have herror := abs_le.mp (hcenter axis)
  have hsize := abs_le.mp hhalf
  have hside : (cube.octantOf p).along axis = true ↔
      toRat (p.along axis) < toRat (cube.center.along axis) := by
    rw [along_octantOf, decide_eq_true_iff]
    exact lt_iff (hp axis) (hcube.center axis)
  rw [middle, half_child] at herror
  rw [half_child, abs_le]
  split at herror
  · rename_i hbelow
    have hlt := hside.mp hbelow
    constructor <;> linarith
  · rename_i habove
    have hge := not_lt.mp (mt hside.mpr habove)
    constructor <;> linarith

/-- What lies in a cube is found to lie in it: the distance from the centre does
not get beyond the half when it is rounded. -/
theorem Near.contains (h : cube.Near 0 p) (hcube : cube.Finite)
    (hp : ∀ axis, (p.along axis).isFinite = true) : cube.contains p = true := by
  rw [contains_iff]
  intro axis
  have hle := h axis
  rw [add_zero] at hle
  have hhalf := (le_abs_self _).trans (abs_toRat_le hcube.half)
  have hround := rounds_sub (hp axis) (hcube.center axis)
    (hle.trans_lt (hhalf.trans_lt largest_lt_overflow))
  rw [le_iff (isFinite_abs hround.finite) hcube.half, toRat_abs hround.finite]
  exact hround.nearest.abs_le_of_abs_le (fits_toRat hcube.half) hle

/-! ## Children -/

namespace Finite

variable (hcube : cube.Finite)
include hcube

theorem rounds_half (o : Octant) :
    RoundsTo (cube.child o).half (toRat cube.half / 2) :=
  Binary32.rounds_half hcube.half

theorem rounds_center (hlt : |cube.middle o axis| < overflow) :
    RoundsTo ((cube.child o).center.along axis) (cube.middle o axis) := by
  have hhalf := (hcube.rounds_half o).finite
  rw [middle] at hlt ⊢
  rw [along_center_child]
  split at hlt
  · rename_i hbelow
    rw [if_pos hbelow, if_pos hbelow]
    exact rounds_sub (hcube.center axis) hhalf hlt
  · rename_i habove
    rw [if_neg habove, if_neg habove]
    exact rounds_add (hcube.center axis) hhalf hlt

theorem child (hlt : ∀ axis, |cube.middle o axis| < overflow) :
    (cube.child o).Finite where
  center axis := (hcube.rounds_center (hlt axis)).finite
  half := (hcube.rounds_half o).finite

end Finite

/-! ## Cubes that are not rounded -/

/-- A cube as it is so many levels below one of the given size when nothing is
rounded: the centre is a multiple of the half. -/
structure OnGrid (m : ℕ) (e : ℤ) (depth : ℕ) (cube : Cube) : Prop where
  finite : cube.Finite
  half : toRat cube.half = m * 2 ^ (e - depth)
  center : ∀ axis, ∃ n : ℤ, |n| < 2 ^ depth ∧
    toRat (cube.center.along axis) = n * (m * 2 ^ (e - depth))

/-- The half of a cube is twice that of its children. -/
theorem mul_two_zpow_sub (m : ℕ) (e : ℤ) (depth : ℕ) :
    (m : ℚ) * 2 ^ (e - depth) = 2 * (m * 2 ^ (e - (depth + 1 : ℕ))) := by
  have hexponent : e - depth = e - (depth + 1 : ℕ) + 1 := by
    push_cast
    ring
  rw [hexponent, zpow_add_one₀ two_ne_zero]
  ring

/-- Numbers of the form of the centres fit if the significand is short enough. -/
theorem fits_grid {m depth : ℕ} {n e : ℤ} (hn : |n| < 2 ^ depth)
    (hm : m * (2 ^ depth - 1) < 2 ^ 24) (he : depth - 149 ≤ e) :
    Fits (n * (m * 2 ^ (e - depth))) := by
  have hbits : |n * m| ≤ 2 ^ 24 := by
    have hpow : ((2 ^ depth - 1 : ℕ) : ℤ) = 2 ^ depth - 1 := by
      rw [Nat.cast_sub Nat.one_le_two_pow]
      push_cast
      rfl
    calc |n * m| = |n| * m := by rw [abs_mul, Nat.abs_cast]
      _ ≤ (2 ^ depth - 1 : ℕ) * m := by
          rw [hpow]
          exact mul_le_mul_of_nonneg_right (by omega) m.cast_nonneg
      _ ≤ 2 ^ 24 := by
          rw [mul_comm]
          exact_mod_cast hm.le
  have hfits := @fits_mul (n * m) (e - depth) hbits (by omega)
  rwa [Int.cast_mul, Int.cast_natCast, mul_assoc] at hfits

/-- A number of that form is less than the whole cube is large. -/
theorem abs_grid_lt {m depth : ℕ} {n e : ℤ} (hn : |n| < 2 ^ depth) (hm : 0 < m) :
    |(n : ℚ) * (m * 2 ^ (e - depth))| < m * 2 ^ e := by
  have hpos : (0 : ℚ) < m * 2 ^ (e - depth) :=
    mul_pos (Nat.cast_pos.mpr hm) (two_zpow_pos _)
  have hn' : (|n| : ℚ) < 2 ^ depth := by exact_mod_cast hn
  have hwhole : (m : ℚ) * 2 ^ e = 2 ^ depth * (m * 2 ^ (e - depth)) := by
    have hpower := two_zpow_add (e - depth) depth
    rw [sub_add_cancel] at hpower
    rw [hpower]
    ring
  rw [abs_mul, abs_of_pos hpos, hwhole]
  exact mul_lt_mul_of_pos_right hn' hpos

namespace OnGrid

variable {m depth : ℕ} {e : ℤ} (h : OnGrid m e depth cube)
include h

theorem half_div_two : toRat cube.half / 2 = m * 2 ^ (e - (depth + 1 : ℕ)) := by
  rw [h.half, mul_two_zpow_sub]
  ring

variable (hbits : m * (2 ^ (depth + 1) - 1) < 2 ^ 24)
  (he : (depth + 1 : ℕ) - 149 ≤ e)
include hbits he

theorem half_child (o : Octant) :
    toRat (cube.child o).half = toRat cube.half / 2 := by
  refine (h.finite.rounds_half o).nearest.eq_of_fits ?_
  have hone : |(1 : ℤ)| < 2 ^ (depth + 1) := by
    rw [abs_one]
    exact one_lt_pow₀ one_lt_two (Nat.succ_ne_zero depth)
  have hfits := fits_grid hone hbits he
  rwa [Int.cast_one, one_mul, ← h.half_div_two] at hfits

theorem exists_middle (o : Octant) (axis : Axis) :
    ∃ n : ℤ, |n| < 2 ^ (depth + 1) ∧
      cube.middle o axis = n * (m * 2 ^ (e - (depth + 1 : ℕ))) := by
  obtain ⟨n, hn, hcenter⟩ := h.center axis
  rw [mul_two_zpow_sub] at hcenter
  rw [abs_lt] at hn
  have hpow : (2 : ℤ) ^ (depth + 1) = 2 ^ depth * 2 := pow_succ 2 depth
  rw [middle, h.half_child hbits he, h.half_div_two, hcenter]
  split
  · refine ⟨2 * n - 1, abs_lt.mpr ⟨by omega, by omega⟩, ?_⟩
    push_cast
    ring
  · refine ⟨2 * n + 1, abs_lt.mpr ⟨by omega, by omega⟩, ?_⟩
    push_cast
    ring

variable (hm : 0 < m) (hlargest : (m : ℚ) * 2 ^ e ≤ largest)
include hm hlargest

theorem abs_middle_lt (o : Octant) (axis : Axis) :
    |cube.middle o axis| < overflow := by
  obtain ⟨n, hn, hmiddle⟩ := h.exists_middle hbits he o axis
  rw [hmiddle]
  exact ((abs_grid_lt hn hm).trans_le hlargest).trans largest_lt_overflow

theorem center_child (o : Octant) (axis : Axis) :
    toRat ((cube.child o).center.along axis) = cube.middle o axis := by
  obtain ⟨n, hn, hmiddle⟩ := h.exists_middle hbits he o axis
  refine (h.finite.rounds_center
    (h.abs_middle_lt hbits he hm hlargest o axis)).nearest.eq_of_fits ?_
  rw [hmiddle]
  exact fits_grid hn hbits he

/-- As long as the centres fit, neither they nor the halves are rounded. -/
theorem child (o : Octant) : OnGrid m e (depth + 1) (cube.child o) where
  finite := h.finite.child (h.abs_middle_lt hbits he hm hlargest o)
  half := (h.half_child hbits he o).trans h.half_div_two
  center axis := by
    rw [h.center_child hbits he hm hlargest]
    exact h.exists_middle hbits he o axis

/-- So a point in the cube is in the one of its octant. -/
theorem near_child (hnear : cube.Near 0 p)
    (hp : ∀ axis, (p.along axis).isFinite = true) :
    (cube.child (cube.octantOf p)).Near 0 p := by
  have hhalf : |toRat cube.half - 2 * toRat (cube.half / 2)| ≤ 0 := by
    have hchild := h.half_child hbits he (cube.octantOf p)
    rw [Cube.half_child] at hchild
    rw [hchild, mul_div_cancel₀ _ two_ne_zero, sub_self, abs_zero]
  have hcenter (axis : Axis) :
      |toRat ((cube.child (cube.octantOf p)).center.along axis) -
        cube.middle (cube.octantOf p) axis| ≤ 0 := by
    rw [h.center_child hbits he hm hlargest, sub_self, abs_zero]
  have hchild := hnear.child le_rfl h.finite hp hhalf hcenter
  rwa [add_zero, add_zero] at hchild

end OnGrid

/-! ## Cubes that are rounded -/

/-- What the half is at most so many levels below a cube of less than `2 ^ 24` units;
it is followed until half a unit is out of reach. -/
def halfBound (s : ℤ) (depth : ℕ) : ℚ :=
  (2 ^ 24 - 1) * 2 ^ (s - min depth 25)

/-- How far the centre is off at most along an axis: by the halves on the way, until
it is one unit away from the face. -/
def centerBound (s : ℤ) (depth : ℕ) : ℚ :=
  (2 ^ 24 - 2 ^ (24 - depth)) * 2 ^ s

/-- A cube as it is so many levels below one of less than `2 ^ 24` units. -/
structure Bounded (s : ℤ) (depth : ℕ) (cube : Cube) : Prop where
  finite : cube.Finite
  half_nonneg : 0 ≤ toRat cube.half
  half_le : toRat cube.half ≤ halfBound s depth
  center_le : ∀ axis, |toRat (cube.center.along axis)| ≤ centerBound s depth

variable {s : ℤ} {depth : ℕ}

theorem fits_halfBound (hs : -124 ≤ s) (depth : ℕ) : Fits (halfBound s depth) :=
  fits_last (by omega)

theorem halfBound_le (s : ℤ) (depth : ℕ) : halfBound s depth ≤ (2 ^ 24 - 1) * 2 ^ s :=
  mul_le_mul_of_nonneg_left (two_zpow_le (by omega)) (by norm_num)

theorem half_le_halfBound_succ {q : ℚ} (hq : 0 ≤ q) (h : q ≤ halfBound s depth) :
    q / 2 ≤ halfBound s (depth + 1) := by
  rw [halfBound] at *
  rcases lt_or_ge depth 25 with hlt | hge
  · have hexponent : s - min depth 25 = s - min (depth + 1) 25 + 1 := by omega
    rw [hexponent, zpow_add_one₀ two_ne_zero] at h
    linarith
  · have hexponent : s - min depth 25 = s - min (depth + 1) 25 := by omega
    rw [hexponent] at h
    linarith

theorem fits_centerBound (hs : -149 ≤ s) (depth : ℕ) :
    Fits (centerBound s depth) := by
  have hpow : (2 : ℤ) ^ (24 - depth) ≤ 2 ^ 24 :=
    pow_le_pow_right₀ one_le_two (Nat.sub_le 24 depth)
  have hpos : (0 : ℤ) < 2 ^ (24 - depth) := by positivity
  have hfits : Fits ((2 ^ 24 - 2 ^ (24 - depth) : ℤ) * 2 ^ s) :=
    fits_mul (abs_le.mpr ⟨by omega, by omega⟩) hs
  rwa [Int.cast_sub, Int.cast_pow, Int.cast_pow, Int.cast_ofNat] at hfits

theorem centerBound_le (s : ℤ) (depth : ℕ) :
    centerBound s depth ≤ (2 ^ 24 - 1) * 2 ^ s := by
  have hpow : (1 : ℚ) ≤ 2 ^ (24 - depth) := one_le_pow₀ one_le_two
  exact mul_le_mul_of_nonneg_right (by linarith) (two_zpow_pos s).le

/-- The half of a child does not take the centre beyond the next bound, or it is less
than half a unit. -/
theorem centerBound_add_halfBound (s : ℤ) (depth : ℕ) :
    centerBound s depth + halfBound s (depth + 1) ≤ centerBound s (depth + 1) ∨
      centerBound s (depth + 1) = (2 ^ 24 - 1) * 2 ^ s ∧
      centerBound s depth + halfBound s (depth + 1) <
        (2 ^ 24 - 1 / 2) * 2 ^ s := by
  have hpos := two_zpow_pos s
  rcases lt_or_ge depth 24 with hlt | hge
  · left
    obtain ⟨k, hk⟩ : ∃ k, k + (depth + 1) = 24 := ⟨24 - (depth + 1), by omega⟩
    have hpower := two_zpow_add (s - (depth + 1 : ℕ)) (depth + 1)
    rw [sub_add_cancel] at hpower
    have hmin : min (depth + 1) 25 = depth + 1 := by omega
    have hsub : 24 - depth = k + 1 := by omega
    have hsub' : 24 - (depth + 1) = k := by omega
    have hproduct : (2 : ℚ) ^ k * (2 ^ (depth + 1) * 2 ^ (s - (depth + 1 : ℕ))) =
        2 ^ 24 * 2 ^ (s - (depth + 1 : ℕ)) := by
      rw [← mul_assoc, ← pow_add, hk]
    rw [centerBound, centerBound, halfBound, hmin, hsub, hsub', hpower, pow_succ 2 k]
    linarith [two_zpow_pos (s - (depth + 1 : ℕ))]
  · right
    have hsub : 24 - depth = 0 := by omega
    have hsub' : 24 - (depth + 1) = 0 := by omega
    have hmin : min (depth + 1) 25 = 25 := by omega
    have hpower := two_zpow_add (s - 25) 25
    rw [Nat.cast_ofNat, sub_add_cancel] at hpower
    rw [centerBound, centerBound, halfBound, hmin, hsub, hsub', pow_zero]
    refine ⟨rfl, ?_⟩
    rw [Nat.cast_ofNat, hpower]
    linarith [two_zpow_pos (s - 25)]

namespace Bounded

variable (h : Bounded s depth cube) (hs : -124 ≤ s)
include h

theorem half_child_nonneg (o : Octant) : 0 ≤ toRat (cube.child o).half :=
  (h.finite.rounds_half o).nearest.ge_of_ge fits_zero
    (div_nonneg h.half_nonneg two_pos.le)

include hs

theorem half_child_le (o : Octant) :
    toRat (cube.child o).half ≤ halfBound s (depth + 1) :=
  (h.finite.rounds_half o).nearest.le_of_le (fits_halfBound hs _)
    (half_le_halfBound_succ h.half_nonneg h.half_le)

/-- Halving is off by half of the next smaller unit. -/
theorem abs_half_sub_le (o : Octant) :
    |toRat cube.half - 2 * toRat (cube.child o).half| ≤ 2 ^ s / 2 := by
  have hsmaller : (2 : ℚ) ^ s = 2 * 2 ^ (s - 1) := by
    rw [← zpow_one_add₀ two_ne_zero, add_sub_cancel]
  have hsize : |toRat cube.half / 2| ≤ 2 ^ 24 * 2 ^ (s - 1) := by
    rw [abs_of_nonneg (div_nonneg h.half_nonneg two_pos.le)]
    linarith [h.half_le, halfBound_le s depth, two_zpow_pos (s - 1)]
  have herror :=
    (h.finite.rounds_half o).nearest.abs_sub_le_half (by omega) hsize
  rw [abs_le] at herror ⊢
  constructor <;> linarith

theorem abs_middle_le (o : Octant) (axis : Axis) :
    |cube.middle o axis| ≤ centerBound s depth + halfBound s (depth + 1) := by
  have hhalf := abs_of_nonneg (h.half_child_nonneg o)
  refine le_trans ?_ (add_le_add (h.center_le axis) (h.half_child_le hs o))
  rw [middle]
  split
  · exact (abs_sub _ _).trans_eq (congrArg _ hhalf)
  · exact (abs_add_le _ _).trans_eq (congrArg _ hhalf)

theorem abs_middle_lt (o : Octant) (axis : Axis) :
    |cube.middle o axis| < (2 ^ 24 - 1 / 2) * 2 ^ s := by
  have hle := h.abs_middle_le hs o axis
  rcases centerBound_add_halfBound s depth with hsum | ⟨_, hsum⟩
  · linarith [centerBound_le s (depth + 1), two_zpow_pos s]
  · exact hle.trans_lt hsum

variable (hs' : s ≤ 104)
include hs'

theorem rounds_center (o : Octant) (axis : Axis) :
    RoundsTo ((cube.child o).center.along axis) (cube.middle o axis) := by
  refine h.finite.rounds_center ((h.abs_middle_lt hs o axis).trans_le ?_)
  exact mul_le_mul_of_nonneg_left (two_zpow_le hs') (by norm_num)

theorem abs_center_sub_le (o : Octant) (axis : Axis) :
    |toRat ((cube.child o).center.along axis) - cube.middle o axis| ≤
      2 ^ s / 2 := by
  refine (h.rounds_center hs hs' o axis).nearest.abs_sub_le_half (by omega) ?_
  linarith [h.abs_middle_lt hs o axis, two_zpow_pos s]

/-- A rounded centre does not get beyond the next bound either: the bound is kept, or
it is the last number before the face. -/
theorem child (o : Octant) : Bounded s (depth + 1) (cube.child o) where
  finite :=
    { center axis := (h.rounds_center hs hs' o axis).finite
      half := (h.finite.rounds_half o).finite }
  half_nonneg := h.half_child_nonneg o
  half_le := h.half_child_le hs o
  center_le axis := by
    have hnearest := (h.rounds_center hs hs' o axis).nearest
    rcases centerBound_add_halfBound s depth with hsum | ⟨hlast, _⟩
    · exact hnearest.abs_le_of_abs_le (fits_centerBound (by omega) _)
        ((h.abs_middle_le hs o axis).trans hsum)
    · rw [hlast]
      exact hnearest.abs_le_last (by omega) (h.abs_middle_lt hs o axis)

/-- On each level a point may get off by one unit more. -/
theorem near_child (hnear : cube.Near (depth * 2 ^ s) p)
    (hp : ∀ axis, (p.along axis).isFinite = true) :
    (cube.child (cube.octantOf p)).Near ((depth + 1 : ℕ) * 2 ^ s) p := by
  have hslack : 0 ≤ depth * (2 : ℚ) ^ s :=
    mul_nonneg depth.cast_nonneg (two_zpow_pos s).le
  have hchild := hnear.child hslack h.finite hp
    (h.abs_half_sub_le hs (cube.octantOf p))
    (h.abs_center_sub_le hs hs' (cube.octantOf p))
  refine hchild.mono ?_
  push_cast
  linarith

end Bounded

end Cube

end Starfield
