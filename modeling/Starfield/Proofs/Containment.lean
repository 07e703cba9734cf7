import Starfield.Proofs.Cubes
import Starfield.Proofs.Routes
import Starfield.Proofs.Shape

/-!
# Stars and the cubes of their leaves

A star is stored in the leaf that its octants lead to.  Where no cube on the way is
rounded, the star lies in the cube of its leaf.  Otherwise it may lie outside, but
not by more than one unit of the size of the domain for each level.
-/

namespace Starfield

open Binary32

variable {reach : Float32} {p : Point} {star : Star}

/-! ## The domain -/

/-- A point whose coordinates do not exceed the reach. -/
def Point.Within (reach : Float32) (p : Point) : Prop :=
  ∀ axis, -reach ≤ p.along axis ∧ p.along axis ≤ reach

/-- The reach has so few bits that the cubes down to a depth are not rounded. -/
def ShortReach (reach : Float32) (depth : ℕ) : Prop :=
  ∃ (m : ℕ) (e : ℤ), toRat reach = m * 2 ^ e ∧
    m * (2 ^ depth - 1) < 2 ^ 24 ∧ depth - 149 ≤ e

theorem Cube.along_center_domain (reach : Float32) (axis : Axis) :
    (Cube.domain reach).center.along axis = 0 := by
  cases axis <;> rfl

theorem Point.Within.isFinite (h : p.Within reach) (hreach : reach.isFinite = true)
    (axis : Axis) : (p.along axis).isFinite = true :=
  isFinite_of_le_of_le (isFinite_neg hreach) hreach (h axis).1 (h axis).2

theorem Point.Within.near (h : p.Within reach) (hreach : reach.isFinite = true) :
    (Cube.domain reach).Near 0 p := by
  intro axis
  have hfinite := h.isFinite hreach axis
  obtain ⟨hge, hle⟩ := h axis
  rw [le_iff (isFinite_neg hreach) hfinite, toRat_neg hreach] at hge
  rw [le_iff hfinite hreach] at hle
  rw [Cube.along_center_domain, toRat_zero, sub_zero, add_zero]
  exact abs_le.mpr ⟨hge, hle⟩

namespace Cube

theorem finite_domain (hreach : reach.isFinite = true) : (domain reach).Finite where
  center axis := by
    rw [along_center_domain]
    exact isFinite_zero
  half := hreach

theorem onGrid_domain (hreach : reach.isFinite = true) {m : ℕ} {e : ℤ}
    (h : toRat reach = m * 2 ^ e) : OnGrid m e 0 (domain reach) where
  finite := finite_domain hreach
  half := by
    rw [Nat.cast_zero, sub_zero]
    exact h
  center axis := by
    refine ⟨0, by norm_num, ?_⟩
    rw [along_center_domain, toRat_zero, Int.cast_zero, zero_mul]

theorem bounded_domain (hreach : reach.isFinite = true) (hpos : 0 < toRat reach)
    {s : ℤ} (h : toRat reach < 2 ^ 24 * 2 ^ s) : Bounded s 0 (domain reach) where
  finite := finite_domain hreach
  half_nonneg := hpos.le
  half_le := by
    have hle := (fits_toRat hreach).le_last h
    rwa [← sub_zero s] at hle
  center_le axis := by
    rw [along_center_domain, toRat_zero, abs_zero, centerBound, Nat.sub_zero,
      sub_self, zero_mul]

end Cube

/-! ## Ways down -/

namespace Place

variable {place : Place}

/-- What every step on the way of a star preserves holds where the way ends. -/
theorem descend_route_induction {P : Place → Prop} (star : Star)
    (hstep : ∀ place, P place → P (place.child (place.cube.octantOf star.point)))
    (levels : ℕ) (h : P place) : P (place.descend (place.route levels star)) := by
  induction levels generalizing place with
  | zero => exact h
  | succ levels ih => exact ih (hstep place h)

theorem length_route (levels : ℕ) (place : Place) (star : Star) :
    (place.route levels star).length = levels := by
  induction levels generalizing place with
  | zero => rfl
  | succ levels ih => exact congrArg (· + 1) (ih _)

theorem depth_descend_route (levels : ℕ) (reach : Float32) (star : Star) :
    ((domain reach).descend ((domain reach).route levels star)).depth = levels := by
  rw [depth_descend, length_route]
  exact Nat.zero_add levels

/-- Where no cube on the way is rounded, the last one contains the star. -/
theorem contains_descend_route (hreach : reach.isFinite = true)
    (hpos : 0 < toRat reach) (hstar : star.point.Within reach) (levels : ℕ)
    (hshort : ShortReach reach levels) :
    ((domain reach).descend
      ((domain reach).route levels star)).cube.contains star.point = true := by
  obtain ⟨m, e, hvalue, hbits, he⟩ := hshort
  have hm : 0 < m := by
    rw [hvalue] at hpos
    exact Nat.cast_pos.mp (pos_of_mul_pos_left hpos (two_zpow_pos e).le)
  have hlargest : (m : ℚ) * 2 ^ e ≤ largest := by
    rw [← hvalue]
    exact (le_abs_self _).trans (abs_toRat_le hreach)
  have hfinite := hstar.isFinite hreach
  -- Where the centres of the children fit, those of their parents do as well.
  have hway := @descend_route_induction (domain reach)
    (fun place => m * (2 ^ place.depth - 1) < 2 ^ 24 → place.depth - 149 ≤ e →
      place.cube.OnGrid m e place.depth ∧ place.cube.Near 0 star.point) star
    (fun place h hbits he => ?_) levels
    (fun _ _ => ⟨Cube.onGrid_domain hreach hvalue, hstar.near hreach⟩)
  · rw [depth_descend_route] at hway
    obtain ⟨hgrid, hnear⟩ := hway hbits he
    exact hnear.contains hgrid.finite hfinite
  · rw [depth_child] at hbits he ⊢
    have hpow : 2 ^ place.depth ≤ 2 ^ (place.depth + 1) :=
      Nat.pow_le_pow_right two_pos (Nat.le_succ _)
    obtain ⟨hgrid, hnear⟩ := h
      (lt_of_le_of_lt (Nat.mul_le_mul_left m (Nat.sub_le_sub_right hpow 1)) hbits)
      (by omega)
    exact ⟨hgrid.child hbits he hm hlargest _,
      hgrid.near_child hbits he hm hlargest hnear hfinite⟩

theorem near_descend_route_of_le (hreach : reach.isFinite = true)
    (hpos : 0 < toRat reach) (hstar : star.point.Within reach) (levels : ℕ) {s : ℤ}
    (hs : -124 ≤ s) (hs' : s ≤ 104) (hunit : toRat reach < 2 ^ 24 * 2 ^ s) :
    ((domain reach).descend
      ((domain reach).route levels star)).cube.Near (levels * 2 ^ s) star.point := by
  have hway := @descend_route_induction (domain reach)
    (fun place => place.cube.Bounded s place.depth ∧
      place.cube.Near (place.depth * 2 ^ s) star.point) star
    (fun place ⟨hbounded, hnear⟩ => ?_) levels
    ⟨Cube.bounded_domain hreach hpos hunit, ?_⟩
  · rw [depth_descend_route] at hway
    exact hway.2
  · rw [depth_child]
    exact ⟨hbounded.child hs hs' _,
      hbounded.near_child hs hs' hnear (hstar.isFinite hreach)⟩
  · have hdepth : ((domain reach).depth : ℚ) = 0 := Nat.cast_zero
    rw [hdepth, zero_mul]
    exact hstar.near hreach

/-- In any case a star is beyond the faces by one unit for each level at most. -/
theorem near_descend_route (hreach : reach.isFinite = true)
    (hpos : 0 < toRat reach) (hstar : star.point.Within reach) (levels : ℕ) {s : ℤ}
    (hs : -124 ≤ s) (hunit : toRat reach < 2 ^ 24 * 2 ^ s) :
    ((domain reach).descend
      ((domain reach).route levels star)).cube.Near (levels * 2 ^ s) star.point := by
  rcases le_or_gt s 104 with hs' | hs'
  · exact near_descend_route_of_le hreach hpos hstar levels hs hs' hunit
  · have hlargest : toRat reach < 2 ^ 24 * 2 ^ (104 : ℤ) := by
      have hle := (le_abs_self _).trans (abs_toRat_le hreach)
      rw [largest] at hle
      linarith [two_zpow_pos 104]
    have hnear := near_descend_route_of_le hreach hpos hstar levels (by norm_num)
      le_rfl hlargest
    exact hnear.mono (mul_le_mul_of_nonneg_left (two_zpow_le hs'.le)
      levels.cast_nonneg)

/-- How the cube of a place encloses a point: altogether when nothing is rounded, and
otherwise within what rounding may cost. -/
structure Encloses (reach : Float32) (place : Place) (p : Point) : Prop where
  contains : ShortReach reach place.depth → place.cube.contains p = true
  near : ∀ s : ℤ, -124 ≤ s → toRat reach < 2 ^ 24 * 2 ^ s →
    place.cube.Near (place.depth * 2 ^ s) p

/-- A star is enclosed wherever its octants lead. -/
theorem encloses_descend_route (hreach : reach.isFinite = true)
    (hpos : 0 < toRat reach) (hstar : star.point.Within reach) (levels : ℕ) :
    Encloses reach ((domain reach).descend ((domain reach).route levels star))
      star.point := by
  constructor
  · rw [depth_descend_route]
    exact contains_descend_route hreach hpos hstar levels
  · rw [depth_descend_route]
    intro s hs hunit
    exact near_descend_route hreach hpos hstar levels hs hunit

end Place

theorem reach_of_validate {settings : Settings} (h : settings.validate = .ok ()) :
    settings.reach.isFinite = true ∧ 0 < toRat settings.reach := by
  rw [Settings.validate] at h
  split at h
  · cases h
  · rename_i hreach
    rw [Bool.not_eq_true', Bool.not_eq_false, Bool.and_eq_true,
      decide_eq_true_iff] at hreach
    obtain ⟨hpos, hfinite⟩ := hreach
    rw [lt_iff isFinite_zero hfinite, toRat_zero] at hpos
    exact ⟨hfinite, hpos⟩

/-! ## Leaves -/

namespace Node

variable {settings : Settings} {layout : Layout} {place : Place}
  {stars : List Star} {node : Node} {path : List Octant} {entry : Entry}

/-- A star in a leaf is one of those of the subtree, and it has gone all the way
down to the leaf. -/
theorem IsBatch.of_mem_leaf (h : IsBatch settings layout place stars node)
    (hentry : entry ∈ node.listing path place) (hleaf : entry.isLeaf = true)
    (hstar : star ∈ entry.cell.stars) :
    star ∈ stars ∧
      ∃ levels, entry.place = place.descend (place.route levels star) := by
  induction h generalizing path with
  | leaf hfits =>
      rw [listing, List.mem_singleton] at hentry
      subst hentry
      exact ⟨List.mem_toArray.mp hstar, 0, rfl⟩
  | @inner place stars children _ _ ih =>
      rw [listing, List.mem_cons, List.mem_flatMap] at hentry
      rcases hentry with rfl | ⟨o, _, ho⟩
      · cases hleaf
      · obtain ⟨hmem, levels, hplace⟩ := ih o ho
        rw [starsOf, List.mem_filter, decide_eq_true_iff] at hmem
        obtain ⟨hmem, rfl⟩ := hmem
        exact ⟨hmem, levels + 1, hplace⟩

/-- Every star of a subtree is in one of the leaves. -/
theorem IsBatch.exists_leaf (h : IsBatch settings layout place stars node)
    (hstar : star ∈ stars) (path : List Octant) :
    ∃ entry ∈ node.listing path place,
      entry.isLeaf = true ∧ star ∈ entry.cell.stars := by
  induction h generalizing path with
  | leaf hfits =>
      exact ⟨_, List.mem_singleton_self _, rfl, List.mem_toArray.mpr hstar⟩
  | @inner place stars children _ _ ih =>
      obtain ⟨entry, hentry, hleaf⟩ := ih (place.cube.octantOf star.point)
        (List.mem_filter.mpr ⟨hstar, decide_eq_true rfl⟩)
        (path ++ [place.cube.octantOf star.point])
      refine ⟨entry, List.mem_cons_of_mem _ ?_, hleaf⟩
      exact List.mem_flatMap.mpr ⟨_, Octant.mem_all _, hentry⟩

end Node

namespace Tree

variable {settings : Settings} {layout : Layout} {tree : Tree} {stars : List Star}

theorem Holds.of_mem_leaf (h : tree.Holds stars) {entry : Entry}
    (hentry : entry ∈ tree.listing) (hleaf : entry.isLeaf = true)
    (hstar : star ∈ entry.cell.stars) :
    ∃ levels, entry.place = tree.domain.descend (tree.domain.route levels star) := by
  obtain ⟨o, _, ho⟩ := List.mem_flatMap.mp hentry
  obtain ⟨hmem, levels, hplace⟩ := (h o).of_mem_leaf ho hleaf hstar
  rw [Node.starsOf, List.mem_filter, decide_eq_true_iff] at hmem
  obtain ⟨_, rfl⟩ := hmem
  exact ⟨levels + 1, hplace⟩

theorem Holds.exists_leaf (h : tree.Holds stars) (hstar : star ∈ stars) :
    ∃ entry ∈ tree.listing, entry.isLeaf = true ∧ star ∈ entry.cell.stars := by
  let target := tree.domain.cube.octantOf star.point
  obtain ⟨entry, hentry, hleaf⟩ := (h target).exists_leaf
    (List.mem_filter.mpr ⟨hstar, decide_eq_true rfl⟩) [target]
  exact ⟨entry, List.mem_flatMap.mpr ⟨target, Octant.mem_all _, hentry⟩, hleaf⟩

/-- A star that has been taken is in a leaf, and the cube of a leaf that it is in
encloses it. -/
theorem encloses_feed (hcreate : Tree.create settings layout = .ok tree)
    (stars : List Star) (hstar : star ∈ (tree.feed stars).2)
    (hwithin : star.point.Within settings.reach) :
    (∃ entry ∈ (tree.feed stars).1.listing,
        entry.isLeaf = true ∧ star ∈ entry.cell.stars) ∧
      ∀ entry ∈ (tree.feed stars).1.listing, entry.isLeaf = true →
        star ∈ entry.cell.stars →
        entry.place.Encloses settings.reach star.point := by
  have hholds := holds_of_create hcreate
  obtain ⟨rfl, hvalid⟩ := create_eq_ok hcreate
  obtain ⟨hsettings, _, hfed⟩ := hholds.feed stars
  rw [List.nil_append] at hfed
  obtain ⟨hreach, hpos⟩ := reach_of_validate hvalid.settings
  have hdomain : (Tree.feed { settings, layout } stars).1.domain =
      .domain settings.reach :=
    congrArg (fun s : Settings => Place.domain s.reach) hsettings
  refine ⟨hfed.exists_leaf hstar, fun entry hentry hleaf hmem => ?_⟩
  obtain ⟨levels, hplace⟩ := hfed.of_mem_leaf hentry hleaf hmem
  rw [hplace, hdomain]
  exact Place.encloses_descend_route hreach hpos hwithin levels

/-- With the default reach nothing is rounded on the first 21 levels. -/
theorem shortReach_ten {depth : ℕ} (h : depth ≤ 21) : ShortReach 10 depth := by
  refine ⟨5, 1, ?_, ?_, by omega⟩
  · rw [toRat_ten]
    norm_num
  · have hpow : 2 ^ depth ≤ 2 ^ 21 := Nat.pow_le_pow_right two_pos h
    omega

/-- Two stars of one octant, in leaves below it. -/
def diagonalTree : Tree :=
  (Tree.feed { settings := { starsPerCell := 1 }, layout := {} }
    [diagonalStar ⟨0x3f800000⟩, diagonalStar ⟨0x41100000⟩]).1

theorem encloses_diagonalTree :
    (∃ entry ∈ diagonalTree.listing, entry.isLeaf = true ∧
        diagonalStar ⟨0x41100000⟩ ∈ entry.cell.stars) ∧
      ∀ entry ∈ diagonalTree.listing, entry.isLeaf = true →
        diagonalStar ⟨0x41100000⟩ ∈ entry.cell.stars →
        entry.place.cube.contains (diagonalStar ⟨0x41100000⟩).point = true ∧
        entry.place.cube.Near (entry.place.depth * 2 ^ (-20 : ℤ))
          (diagonalStar ⟨0x41100000⟩).point := by
  have hwithin : (diagonalStar ⟨0x41100000⟩).point.Within 10 := by
    rintro (_ | _ | _) <;> decide +kernel
  have hdepth : (diagonalTree.listing.all fun entry =>
      entry.place.depth ≤ 21) = true := by
    decide +kernel
  have htaken : diagonalStar ⟨0x41100000⟩ ∈ (Tree.feed
      { settings := { starsPerCell := 1 }, layout := {} }
      [diagonalStar ⟨0x3f800000⟩, diagonalStar ⟨0x41100000⟩]).2 := by
    decide +kernel
  obtain ⟨hexists, hencloses⟩ := @encloses_feed (diagonalStar ⟨0x41100000⟩)
    { starsPerCell := 1 } {} _ rfl _ htaken hwithin
  refine ⟨hexists, fun entry hentry hleaf hstar => ?_⟩
  obtain ⟨hcontains, hnear⟩ := hencloses entry hentry hleaf hstar
  constructor
  · exact hcontains (shortReach_ten
      (of_decide_eq_true (List.all_eq_true.mp hdepth entry hentry)))
  · refine hnear (-20) (by decide) ?_
    change toRat 10 < _
    rw [toRat_ten]
    norm_num

/-- With a reach of a tenth the centres are rounded from the second level on.  A star
at half the reach is led away from its cube there. -/
def tenthSettings : Settings :=
  { reach := .ofBits 0x3dcccccd, starsPerCell := 1 }

theorem not_forall_contains :
    ¬ ∀ (settings : Settings) (layout : Layout) (tree : Tree) (stars : List Star)
      (star : Star), Tree.create settings layout = .ok tree →
      star ∈ (tree.feed stars).2 → star.point.Within settings.reach →
      ∀ entry ∈ (tree.feed stars).1.listing, entry.isLeaf = true →
        star ∈ entry.cell.stars → entry.place.cube.contains star.point = true := by
  intro h
  have hwithin : (diagonalStar ⟨0x3d4ccccd⟩).point.Within tenthSettings.reach := by
    rintro (_ | _ | _) <;> decide +kernel
  have htaken : diagonalStar ⟨0x3d4ccccd⟩ ∈ (Tree.feed
      { settings := tenthSettings, layout := {} }
      [diagonalStar ⟨0x3d4ccccd⟩, diagonalStar ⟨0x3c23d70a⟩]).2 := by
    decide +kernel
  have houtside : ((Tree.feed { settings := tenthSettings, layout := {} }
      [diagonalStar ⟨0x3d4ccccd⟩, diagonalStar ⟨0x3c23d70a⟩]).1.listing.any
      fun entry => entry.isLeaf &&
        decide (diagonalStar ⟨0x3d4ccccd⟩ ∈ entry.cell.stars) &&
        !entry.place.cube.contains (diagonalStar ⟨0x3d4ccccd⟩).point) = true := by
    decide +kernel
  obtain ⟨entry, hentry, hoff⟩ := List.any_eq_true.mp houtside
  rw [Bool.and_eq_true, Bool.and_eq_true, decide_eq_true_iff,
    Bool.not_eq_true'] at hoff
  obtain ⟨⟨hleaf, hstar⟩, hoff⟩ := hoff
  have hcontains :=
    h tenthSettings {} _ _ _ rfl htaken hwithin entry hentry hleaf hstar
  rw [hoff] at hcontains
  cases hcontains

end Tree

end Starfield
