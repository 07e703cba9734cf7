import Starfield.Sampling
import Mathlib.Data.List.Basic

/-!
# Samples as thinned lists

The sample of an inner node is built star by star in an array.  This file states
what it is in terms of the stars alone: the seed, followed by the stars that are
left when the list is thinned from its beginning.
-/

namespace Starfield

/-- Go through the stars in order and keep each one that is not too near to the
one kept last, as long as there is room. -/
def Cube.thin (cube : Cube) (room : Nat) (last : Star) :
    List Star → List Star
  | [] => []
  | star :: stars =>
      if 0 < room ∧ ¬last.point.distance star.point ≤ cube.half / 2 then
        star :: cube.thin (room - 1) star stars
      else cube.thin room last stars

/-- The stars that an inner node keeps of all the stars below it. -/
def Settings.thinned (settings : Settings) (layout : Layout) (place : Place)
    (stars : List Star) : List Star :=
  let seed := layout.seed place.cube.center
  if settings.keepsSample place.depth then
    seed :: place.cube.thin (settings.starsPerCell - 1) seed stars
  else []

namespace Cube

theorem offer_eq (cube : Cube) (capacity : Nat) {sample : Array Star}
    {last : Star} (hlast : sample.back? = some last) (star : Star) :
    cube.offer capacity sample star =
      if sample.size < capacity ∧
          ¬last.point.distance star.point ≤ cube.half / 2 then
        sample.push star
      else sample := by
  simp only [offer, admits, hlast, Bool.and_eq_true, decide_eq_true_eq,
    Bool.not_eq_true', decide_eq_false_iff_not]

/-- Offering stars in order adds those that thinning keeps. -/
theorem toList_foldl_offer (cube : Cube) (capacity : Nat) (stars : List Star)
    {sample : Array Star} {last : Star} {room : Nat}
    (hlast : sample.back? = some last) (hroom : capacity - sample.size = room) :
    (stars.foldl (cube.offer capacity) sample).toList =
      sample.toList ++ cube.thin room last stars := by
  induction stars generalizing sample last room with
  | nil => simp [thin]
  | cons star stars ih =>
      rw [List.foldl_cons, offer_eq cube capacity hlast, thin]
      have hcondition : sample.size < capacity ↔ 0 < room := by omega
      simp only [hcondition]
      split
      · have hpush : capacity - (sample.push star).size = room - 1 := by
          rw [Array.size_push]
          omega
        rw [ih Array.back?_push hpush, Array.toList_push, List.append_assoc]
        rfl
      · exact ih hlast hroom

end Cube

namespace Settings

variable {settings : Settings}

theorem toList_sample (layout : Layout) (place : Place)
    (stars : Array Star) :
    (settings.sample layout place stars).toList =
      settings.thinned layout place stars.toList := by
  rw [sample, thinned]
  split
  · rw [← Array.foldl_toList]
    exact place.cube.toList_foldl_offer settings.starsPerCell stars.toList rfl
      rfl
  · rfl

theorem sample_eq (layout : Layout) (place : Place) (stars : Array Star) :
    settings.sample layout place stars =
      (settings.thinned layout place stars.toList).toArray := by
  rw [← toList_sample, Array.toArray_toList]

/-- Offering one more star to a sample comes to thinning one star more. -/
theorem toList_offer (layout : Layout) (place : Place) {stars : List Star}
    {kept : Array Star}
    (hkept : kept.toList = settings.thinned layout place stars) (star : Star) :
    (if settings.keepsSample place.depth then
        place.cube.offer settings.starsPerCell kept star
      else kept).toList =
      settings.thinned layout place (stars ++ [star]) := by
  have hsample : kept = settings.sample layout place stars.toArray := by
    rw [sample_eq, ← hkept, Array.toArray_toList]
  have hnext := @toList_sample settings layout place (stars ++ [star]).toArray
  rw [← hnext, hsample]
  simp only [Settings.sample]
  split
  · simp [List.foldl_append]
  · rfl

end Settings

/-- A seed has at least the three values of its position. -/
theorem Layout.length_seed_pos (layout : Layout) (center : Point) :
    0 < (layout.seed center).length := by
  rw [seed, List.length_append, Point.length_values]
  omega

end Starfield
