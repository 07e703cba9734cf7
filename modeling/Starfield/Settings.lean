import Starfield.Compaction
import Starfield.Fault
import Starfield.Layout

/-!
# Settings

The settings of a tree: how far the domain reaches, when cells are split, from
which depth on cells keep a sample, and when a sample is good enough to be
drawn.
-/

namespace Starfield

structure Settings where
  /-- The domain reaches this far along every axis, in both directions. -/
  reach : Float32 := 10
  /-- A leaf holds at most this many stars, and so does a sample. -/
  starsPerCell : Nat := 2000
  /-- Cells at this depth and above keep no sample. -/
  firstSampleDepth : Nat := 4
  /-- Pixels per level of depth below which a sample is drawn. -/
  samplePixels : Float32 := 10
  /-- No cell at this depth is split. -/
  depthLimit : Nat := 32
  /-- From the units of the tree to the units of the view. -/
  worldScale : Float := 1
  compaction : Compaction := {}
deriving DecidableEq

namespace Settings

/-- Settings describe a usable tree when the domain has a finite size and a
leaf can hold a star. -/
def validate (settings : Settings) : Except Fault Unit :=
  if !(0 < settings.reach && settings.reach.isFinite) then
    .error (.misfit (.reach settings.reach))
  else if settings.starsPerCell = 0 then
    .error (.misfit .noStarsPerCell)
  else
    .ok ()

/-- A cell at this depth is drawn as a sample when it covers fewer pixels. -/
def pixelThreshold (settings : Settings) (depth : Nat) : Float32 :=
  settings.samplePixels * depth.toUInt32.toFloat32

def keepsSample (settings : Settings) (depth : Nat) : Bool :=
  settings.firstSampleDepth < depth

end Settings

/-- A layout can carry positions when they have three coordinates. -/
def Layout.validate (layout : Layout) : Except Fault Unit :=
  if layout.position < 3 then .error (.misfit (.positionWidth layout.position)) else .ok ()

end Starfield
