import Starfield.Node
import Starfield.Settings

/-!
# Sampling

An inner node that lies deep enough keeps a sample of the stars below it.  The
sample starts with a seed at the centre of the cube; a star joins it when it
lies more than half of the cube's half edge away from the star that joined
last, as long as the sample is no larger than a leaf may be.
-/

namespace Starfield

/-- The seed of a sample: a star at the given point without colour and
motion. -/
def Layout.seed (layout : Layout) (center : Point) : Star :=
  center.values ++ List.replicate (layout.width - 3) .zero

/-- Whether a star may join a sample: there is room, and the star that joined
last is not too near.  A distance that is no number is never too near. -/
def Cube.admits (cube : Cube) (capacity : Nat) (sample : Array Star) (star : Star) : Bool :=
  sample.size < capacity &&
    match sample.back? with
    | none => true
    | some last => !(last.point.distance star.point ≤ cube.half / 2)

def Cube.offer (cube : Cube) (capacity : Nat) (sample : Array Star) (star : Star) : Array Star :=
  if cube.admits capacity sample star then sample.push star else sample

/-- The sample that an inner node keeps of the given stars, which are offered
in order; above the first depth with samples it stays empty. -/
def Settings.sample (settings : Settings) (layout : Layout) (place : Place)
    (stars : Array Star) : Array Star :=
  if settings.keepsSample place.depth then
    stars.foldl (place.cube.offer settings.starsPerCell) #[layout.seed place.cube.center]
  else #[]

end Starfield
