import Starfield.Star

/-!
# Points

Positions are compared and measured in binary32 arithmetic, each operation
rounded on its own and sums taken from left to right.
-/

namespace Starfield

structure Point where
  x : Float32
  y : Float32
  z : Float32
deriving DecidableEq

namespace Point

def zero : Point := ⟨0, 0, 0⟩

def distance (p q : Point) : Float32 :=
  let dx := p.x - q.x
  let dy := p.y - q.y
  let dz := p.z - q.z
  (dx * dx + dy * dy + dz * dz).sqrt

def values (p : Point) : List Value :=
  [.ofNumber p.x, .ofNumber p.y, .ofNumber p.z]

@[simp]
theorem length_values (p : Point) : p.values.length = 3 := rfl

end Point

/-- The point where a star stands: its first three values.  A row that is too
short to have a position stands at the centre. -/
def Star.point : Star → Point
  | x :: y :: z :: _ => ⟨x.number, y.number, z.number⟩
  | _ => .zero

end Starfield
