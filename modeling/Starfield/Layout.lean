import Starfield.Star

/-!
# Star layouts

A layout fixes how many values of a star describe its position, its colour and
its motion.  It is the same for every star of a tree, so it also fixes where
the attributes of a star begin and how wide a star is.
-/

namespace Starfield

structure Layout where
  position : Nat := 3
  color : Nat := 2
  motion : Nat := 3
deriving DecidableEq, Inhabited

inductive Detail where
  | positions
  | colors
  | motion
deriving DecidableEq, Inhabited

/-- Colours are left out only when positions alone are asked for. -/
def Detail.hasColor : Detail → Bool
  | .positions => false
  | .colors => true
  | .motion => true

/-- Motion is part of the fullest chunks only. -/
def Detail.hasMotion : Detail → Bool
  | .positions => false
  | .colors => false
  | .motion => true

namespace Layout

def width (layout : Layout) : Nat :=
  layout.position + layout.color + layout.motion

def widthFor (layout : Layout) (detail : Detail) : Nat :=
  layout.position + (if detail.hasColor then layout.color else 0) +
    (if detail.hasMotion then layout.motion else 0)

/-- The first values of a star are its position. -/
def positionOf (layout : Layout) (star : Star) : List Value :=
  star.take layout.position

/-- The values after the position are the colour. -/
def colorOf (layout : Layout) (star : Star) : List Value :=
  (star.drop layout.position).take layout.color

/-- Everything after the colour is the motion. -/
def motionOf (layout : Layout) (star : Star) : List Value :=
  star.drop (layout.position + layout.color)

/-- The three attributes of a star, one after the other, are the star. -/
theorem positionOf_append_colorOf_append_motionOf (layout : Layout) (star : Star) :
    layout.positionOf star ++ layout.colorOf star ++ layout.motionOf star = star := by
  simp [positionOf, colorOf, motionOf, ← List.drop_drop]

theorem widthFor_motion (layout : Layout) : layout.widthFor .motion = layout.width := by
  simp [widthFor, width, Detail.hasColor, Detail.hasMotion]

end Layout

end Starfield
