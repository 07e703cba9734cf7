import Starfield.Proofs.Archive.Records

/-!
# Stars in columns

A cell keeps its stars in three flat arrays, one for each attribute, and finds a
star in them by cutting out a part of each.  Cutting out a part that is not
there, or dividing by a width of zero, would be a fault of the program.  Here
every operation on columns says by its result whether that happens, and it is
proved that it never does when the columns are those of whole stars.
-/

namespace Starfield

/-- The values between two places of an array, if it has them all. -/
def slice? {α : Type} (values : List α) (start stop : Nat) : Option (List α) :=
  if start ≤ stop ∧ stop ≤ values.length then
    some ((values.take stop).drop start)
  else none

/-- The point of a star, which is read from its first three values. -/
def Star.point? (star : Star) : Option Point :=
  (slice? star 0 3).map Star.point

structure Columns where
  positions : List Value := []
  colors : List Value := []
  motions : List Value := []

namespace Columns

/-- The number of stars, which is found by a division. -/
def size? (layout : Layout) (columns : Columns) : Option Nat :=
  if layout.position = 0 then none
  else some (columns.positions.length / layout.position)

def point? (layout : Layout) (columns : Columns) (number : Nat) :
    Option Point :=
  (slice? columns.positions (number * layout.position)
    (number * layout.position + 3)).map Star.point

/-- The points of all stars, read from arrays of one position each. -/
def points? (layout : Layout) (columns : Columns) : Option (List Point) := do
  let size ← columns.size? layout
  (rows layout.position size columns.positions).mapM Star.point?

def row? (layout : Layout) (columns : Columns) (number : Nat) : Option Star := do
  let position ← slice? columns.positions (number * layout.position)
    ((number + 1) * layout.position)
  let color ← slice? columns.colors (number * layout.color)
    ((number + 1) * layout.color)
  let motion ← slice? columns.motions (number * layout.motion)
    ((number + 1) * layout.motion)
  return position ++ color ++ motion

def push? (layout : Layout) (columns : Columns) (star : Star) :
    Option Columns := do
  let position ← slice? star 0 layout.position
  let rest ← slice? star layout.position star.length
  let color ← slice? rest 0 layout.color
  let motion ← slice? rest layout.color rest.length
  return {
    positions := columns.positions ++ position
    colors := columns.colors ++ color
    motions := columns.motions ++ motion }

/-- The columns of a sample that has just its seed.  The point is written over
the first three of the zeros. -/
def seed? (layout : Layout) (center : Point) : Option Columns := do
  let zeros := List.replicate layout.position Value.zero
  let _ ← slice? zeros 0 3
  return {
    positions := center.values ++ zeros.drop 3
    colors := List.replicate layout.color .zero
    motions := List.replicate layout.motion .zero }

/-- The columns of a sample after a star has been offered to it. -/
def admit? (layout : Layout) (capacity : Nat) (cube : Cube) (columns : Columns)
    (star : Star) : Option Columns := do
  let size ← columns.size? layout
  if capacity ≤ size then return columns
  else
    let candidate ← star.point?
    let near ←
      if size = 0 then some false
      else (columns.point? layout (size - 1)).map fun last =>
        decide (last.distance candidate ≤ cube.half / 2)
    if near then return columns else columns.push? layout star

def ofStars (layout : Layout) (stars : List Star) : Columns :=
  { positions := stars.flatMap layout.positionOf
    colors := stars.flatMap layout.colorOf
    motions := stars.flatMap layout.motionOf }

end Columns

/-! ## Parts that are there -/

section

variable {α β : Type} {f : β → List α} {width : Nat} {xs : List β}

theorem slice?_of_le {values : List α} {start stop : Nat} (hstart : start ≤ stop)
    (hstop : stop ≤ values.length) :
    slice? values start stop = some ((values.take stop).drop start) :=
  if_pos ⟨hstart, hstop⟩

/-- The first values of a row are cut out of all rows together. -/
theorem slice?_flatMap (h : ∀ x ∈ xs, (f x).length = width) {number stop : Nat}
    (hnumber : number < xs.length) (hstop : stop ≤ width) :
    slice? (xs.flatMap f) (number * width) (number * width + stop) =
      some ((f xs[number]).take stop) := by
  have hbefore : ((xs.take number).flatMap f).length = number * width := by
    rw [length_flatMap_of_forall fun x hx => h x (List.mem_of_mem_take hx),
      List.length_take, Nat.min_eq_left (Nat.le_of_lt hnumber)]
  have hhere : (f xs[number]).length = width := h _ (List.getElem_mem hnumber)
  have hsplit : xs.flatMap f = (xs.take number).flatMap f ++
      (f xs[number] ++ (xs.drop (number + 1)).flatMap f) := by
    rw [← List.flatMap_cons, ← List.drop_eq_getElem_cons hnumber,
      ← List.flatMap_append, List.take_append_drop]
  rw [slice?_of_le (Nat.le_add_right _ _), hsplit]
  · rw [← hbefore, List.take_length_add_append, List.drop_left,
      List.take_append_of_le_length (by omega)]
  · rw [hsplit, List.length_append, List.length_append, hbefore, hhere]
    omega

end

/-! ## The columns of whole stars -/

theorem Star.point_take (star : Star) {n : Nat} (h : 3 ≤ n) :
    Star.point (star.take n) = star.point := by
  obtain ⟨n, rfl⟩ := Nat.exists_eq_add_of_le' h
  match star with
  | [] | [_] | [_, _] => rfl
  | _ :: _ :: _ :: _ => rfl

theorem Star.point?_of_length {star : Star} (h : 3 ≤ star.length) :
    star.point? = some star.point := by
  rw [point?, slice?_of_le (Nat.zero_le _) h, Option.map_some, List.drop_zero,
    point_take star (Nat.le_refl 3)]

namespace Columns

variable {layout : Layout} {stars : List Star} {star : Star}

section

variable (hlayout : 3 ≤ layout.position)
  (hstars : ∀ star ∈ stars, star.length = layout.width)

include hstars in
theorem length_ofStars :
    (ofStars layout stars).positions.length = stars.length * layout.position ∧
      (ofStars layout stars).colors.length = stars.length * layout.color ∧
      (ofStars layout stars).motions.length =
        stars.length * layout.motion :=
  ⟨length_flatMap_of_forall fun star hstar =>
      Layout.length_positionOf (hstars star hstar),
    length_flatMap_of_forall fun star hstar =>
      Layout.length_colorOf (hstars star hstar),
    length_flatMap_of_forall fun star hstar =>
      Layout.length_motionOf (hstars star hstar)⟩

include hstars in
theorem length_positions_div (hposition : 0 < layout.position) :
    (ofStars layout stars).positions.length / layout.position =
      stars.length := by
  rw [(length_ofStars hstars).1, Nat.mul_div_cancel _ hposition]

include hlayout hstars in
theorem size?_ofStars : (ofStars layout stars).size? layout =
    some stars.length := by
  have hpos : 0 < layout.position := by omega
  rw [size?, if_neg (Nat.ne_of_gt hpos), length_positions_div hstars hpos]

include hlayout hstars in
theorem point?_ofStars {number : Nat} (hnumber : number < stars.length) :
    (ofStars layout stars).point? layout number =
      some stars[number].point := by
  rw [point?, ofStars, slice?_flatMap (fun star hstar =>
    Layout.length_positionOf (hstars star hstar)) hnumber hlayout,
    Option.map_some, Layout.positionOf, Star.point_take _ (Nat.le_refl 3),
    Star.point_take _ hlayout]

include hstars in
theorem row?_ofStars {number : Nat} (hnumber : number < stars.length) :
    (ofStars layout stars).row? layout number = some stars[number] := by
  have hstar := hstars _ (List.getElem_mem hnumber)
  have hposition := slice?_flatMap (fun star hstar =>
    Layout.length_positionOf (hstars star hstar)) hnumber (Nat.le_refl _)
  have hcolor := slice?_flatMap (fun star hstar =>
    Layout.length_colorOf (hstars star hstar)) hnumber (Nat.le_refl _)
  have hmotion := slice?_flatMap (fun star hstar =>
    Layout.length_motionOf (hstars star hstar)) hnumber (Nat.le_refl _)
  rw [List.take_of_length_le (Nat.le_of_eq (Layout.length_positionOf hstar))]
    at hposition
  rw [List.take_of_length_le (Nat.le_of_eq (Layout.length_colorOf hstar))]
    at hcolor
  rw [List.take_of_length_le (Nat.le_of_eq (Layout.length_motionOf hstar))]
    at hmotion
  rw [row?, ofStars, Nat.succ_mul, Nat.succ_mul, Nat.succ_mul, hposition, hcolor,
    hmotion]
  exact congrArg some
    (layout.positionOf_append_colorOf_append_motionOf stars[number])

include hlayout hstars in
theorem points?_ofStars : (ofStars layout stars).points? layout =
    some (stars.map Star.point) := by
  have hrows := rows_flatMap_append (fun star hstar =>
    Layout.length_positionOf (hstars star hstar)) []
  rw [List.append_nil] at hrows
  rw [points?, size?_ofStars hlayout hstars, Option.bind_eq_bind,
    Option.bind_some, ofStars, hrows]
  clear hrows
  induction stars with
  | nil => rfl
  | cons star stars ih =>
      rw [List.forall_mem_cons] at hstars
      have hpoint : Star.point? (layout.positionOf star) = some star.point := by
        rw [Star.point?_of_length, Layout.positionOf,
          Star.point_take _ hlayout]
        rw [Layout.length_positionOf hstars.1]
        exact hlayout
      rw [List.map_cons, List.mapM_cons, hpoint, ih hstars.2]
      rfl

end

theorem push?_ofStars (hstar : star.length = layout.width) :
    (ofStars layout stars).push? layout star =
      some (ofStars layout (stars ++ [star])) := by
  rw [Layout.width] at hstar
  have hrest : slice? star layout.position star.length =
      some (star.drop layout.position) := by
    rw [slice?_of_le (by omega) (Nat.le_refl _), List.take_length]
  have hmotion : slice? (star.drop layout.position) layout.color
      (star.drop layout.position).length = some (layout.motionOf star) := by
    rw [slice?_of_le (by rw [List.length_drop]; omega) (Nat.le_refl _),
      List.take_length, List.drop_drop]
    rfl
  rw [push?, slice?_of_le (Nat.zero_le _) (by omega), hrest]
  simp only [Option.bind_eq_bind, Option.bind_some]
  rw [slice?_of_le (Nat.zero_le _) (by rw [List.length_drop]; omega), hmotion]
  simp only [Option.bind_some, List.drop_zero, ofStars, List.flatMap_append,
    List.flatMap_singleton]
  rfl

/-- A seed has the given point as its position, and zeros behind it. -/
theorem seed?_eq (hlayout : 3 ≤ layout.position) (center : Point) :
    seed? layout center = some (ofStars layout [layout.seed center]) := by
  have hwidth : layout.position + layout.color + layout.motion =
      layout.width := rfl
  have hposition : layout.positionOf (layout.seed center) =
      center.values ++ List.replicate (layout.position - 3) .zero := by
    rw [Layout.positionOf, Layout.seed, List.take_append, Point.length_values,
      List.take_of_length_le (by rw [Point.length_values]; exact hlayout),
      List.take_replicate, Nat.min_eq_left (by omega)]
  have hcolor : layout.colorOf (layout.seed center) =
      List.replicate layout.color .zero := by
    rw [Layout.colorOf, Layout.seed, List.drop_append, Point.length_values,
      List.drop_of_length_le (by rw [Point.length_values]; exact hlayout),
      List.nil_append, List.drop_replicate, List.take_replicate,
      Nat.min_eq_left (by omega)]
  have hmotion : layout.motionOf (layout.seed center) =
      List.replicate layout.motion .zero := by
    rw [Layout.motionOf, Layout.seed, List.drop_append, Point.length_values,
      List.drop_of_length_le (by rw [Point.length_values]; omega),
      List.nil_append, List.drop_replicate]
    congr 1
    omega
  rw [seed?, slice?_of_le (Nat.zero_le _) (by rw [List.length_replicate]; omega),
    ofStars, List.flatMap_singleton, List.flatMap_singleton,
    List.flatMap_singleton, hposition, hcolor, hmotion, ← List.drop_replicate]
  rfl

/-- The star that joined last is found in the columns. -/
theorem point?_last {sample : Array Star} (hlayout : 3 ≤ layout.position)
    (hsample : ∀ star ∈ sample.toList, star.length = layout.width) {last : Star}
    (hlast : sample.back? = some last) :
    0 < sample.size ∧
      (ofStars layout sample.toList).point? layout (sample.size - 1) =
        some last.point := by
  rw [Array.back?_eq_getElem?, Array.getElem?_eq_some_iff] at hlast
  obtain ⟨hnumber, rfl⟩ := hlast
  refine ⟨Nat.zero_lt_of_lt hnumber, ?_⟩
  rw [point?_ofStars hlayout hsample (by rwa [Array.length_toList]),
    Array.getElem_toList]

/-- Offering a star to a sample finds everything that it reads. -/
theorem admit?_ofStars {capacity : Nat} {cube : Cube} {sample : Array Star}
    (hlayout : 3 ≤ layout.position)
    (hsample : ∀ star ∈ sample.toList, star.length = layout.width)
    (hstar : star.length = layout.width) :
    (ofStars layout sample.toList).admit? layout capacity cube star =
      some (ofStars layout (cube.offer capacity sample star).toList) := by
  have hpoint : star.point? = some star.point := by
    refine Star.point?_of_length ?_
    rw [hstar, Layout.width]
    omega
  have hpush := @push?_ofStars layout sample.toList star hstar
  rw [admit?, size?_ofStars hlayout hsample, Cube.offer, Cube.admits]
  simp only [Option.bind_eq_bind, Option.bind_some, Array.length_toList]
  by_cases hroom : capacity ≤ sample.size
  · rw [if_pos hroom, decide_eq_false (Nat.not_lt.mpr hroom)]
    rfl
  rw [if_neg hroom, hpoint, decide_eq_true (Nat.lt_of_not_le hroom),
    Bool.true_and, Option.bind_some, hpush]
  cases hlast : sample.back? with
  | none =>
      have hempty : sample.size = 0 := by
        rw [Array.back?_eq_none_iff] at hlast
        rw [hlast, Array.size_empty]
      rw [if_pos hempty, if_pos rfl, Array.toList_push]
      rfl
  | some last =>
      obtain ⟨hpos, hfound⟩ := point?_last hlayout hsample hlast
      rw [if_neg (Nat.ne_of_gt hpos), hfound, Option.map_some,
        Option.bind_some]
      dsimp only
      simp only [decide_eq_true_eq, Bool.not_eq_true', decide_eq_false_iff_not,
        ite_not]
      split
      · rfl
      · rw [Array.toList_push]

end Columns

end Starfield
