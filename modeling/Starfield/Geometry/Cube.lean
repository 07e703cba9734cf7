import Starfield.Geometry.Octant
import Starfield.Geometry.Point

/-!
# Cubes

Every cell of the tree fills a cube.  The cube of a child follows from the
cube of its parent, so a cell need not remember its own: whoever descends the
tree carries the cube along, together with the depth reached.
-/

namespace Starfield

structure Cube where
  center : Point
  half : Float32
deriving DecidableEq

/-- A point in the units of the view. -/
structure WorldPoint where
  x : Float
  y : Float
  z : Float
deriving DecidableEq

/-- The corners of a cube in the units of the view, one towards each octant. -/
abbrev Corners := Octant → WorldPoint

namespace Cube

/-- The cube that reaches from `-reach` to `reach` along every axis. -/
def domain (reach : Float32) : Cube :=
  ⟨.zero, reach⟩

/-- The octant that a point belongs to.  A point on a dividing plane, and a
coordinate that is no number, count as lying above. -/
def octantOf (cube : Cube) (p : Point) : Octant :=
  ⟨p.x < cube.center.x, p.y < cube.center.y, p.z < cube.center.z⟩

/-- The point `reach` away from the centre along every axis, towards an
octant. -/
def toward (cube : Cube) (reach : Float32) (o : Octant) : Point :=
  { x := if o.x then cube.center.x - reach else cube.center.x + reach
    y := if o.y then cube.center.y - reach else cube.center.y + reach
    z := if o.z then cube.center.z - reach else cube.center.z + reach }

/-- The cube of an octant has half the size and its centre in the middle of the
octant. -/
def child (cube : Cube) (o : Octant) : Cube :=
  let half := cube.half / 2
  ⟨cube.toward half o, half⟩

def corner (cube : Cube) (o : Octant) : Point :=
  cube.toward cube.half o

/-- The corners in double precision, in the units of the view. -/
def worldCorners (cube : Cube) (scale : Float) : Corners := fun o =>
  let p := cube.corner o
  ⟨p.x.toFloat * scale, p.y.toFloat * scale, p.z.toFloat * scale⟩

/-- Whether a point lies in the cube; its faces belong to it. -/
def contains (cube : Cube) (p : Point) : Bool :=
  (p.x - cube.center.x).abs ≤ cube.half &&
    (p.y - cube.center.y).abs ≤ cube.half &&
    (p.z - cube.center.z).abs ≤ cube.half

end Cube

/-- Where a cell sits: the cube it fills and its depth below the domain. -/
structure Place where
  cube : Cube
  depth : Nat
deriving DecidableEq

namespace Place

def domain (reach : Float32) : Place :=
  ⟨.domain reach, 0⟩

def child (place : Place) (o : Octant) : Place :=
  ⟨place.cube.child o, place.depth + 1⟩

def descend (place : Place) (path : List Octant) : Place :=
  path.foldl child place

@[simp]
theorem depth_child (place : Place) (o : Octant) :
    (place.child o).depth = place.depth + 1 := rfl

end Place

end Starfield
