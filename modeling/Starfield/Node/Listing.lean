import Starfield.Node

/-!
# Listings

A listing names every node of a subtree in pre-order: first the node itself,
then the subtrees of its octants in the order of their numbers.  Descriptions,
counts and dumps of a tree are all read off a listing.
-/

namespace Starfield

/-- One node of a listing: the octants that lead to it, where it sits and what
it holds. -/
structure Entry where
  path : List Octant
  place : Place
  isLeaf : Bool
  cell : Cell

namespace Node

def listing (path : List Octant) (place : Place) : Node → List Entry
  | leaf cell => [⟨path, place, true, cell⟩]
  | inner cell children =>
      ⟨path, place, false, cell⟩ ::
        Octant.all.flatMap fun o => (children o).listing (path ++ [o]) (place.child o)

end Node

end Starfield
