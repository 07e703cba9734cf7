import Starfield.Geometry.Cube

/-!
# Views

The geometry of the view lies outside the library: a view answers two
questions about the corners of a cube.  A view may change while a frame asks
its questions, so what is consulted in general is an oracle, whose answers may
depend on everything asked before.
-/

namespace Starfield

/-- What a view says about a cube, given by its corners. -/
structure View where
  sees : Corners → Bool
  /-- The width and the height of the cube in pixels. -/
  pixels : Corners → Float32 × Float32

/-- A question that was asked, with its answer. -/
inductive Question where
  | sees (corners : Corners) (answer : Bool)
  | pixels (corners : Corners) (width height : Float32)

/-- The view consulted after the given questions, the latest first. -/
abbrev Oracle := List Question → View

def View.oracle (view : View) : Oracle := fun _ => view

end Starfield
