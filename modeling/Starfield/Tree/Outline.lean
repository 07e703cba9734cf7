import Starfield.Tree

/-!
# Outlines

The outline of a tree has one line for each node, in pre-order.  A line is
indented by the depth below the octants and shows the path to the node, its
number of stars and, for an inner node, the size of its sample.
-/

namespace Starfield

def pathText (path : List Octant) : String :=
  "->".intercalate (path.map fun o => toString o.index)

def Entry.line (entry : Entry) : String :=
  let indent := String.ofList (List.replicate (2 * (entry.path.length - 1)) ' ')
  let head := indent ++ "\x7b" ++ pathText entry.path ++ "\x7d : " ++ toString entry.cell.count
  if entry.isLeaf then head ++ " - [Leaf]\n"
  else head ++ " LOD: " ++ toString entry.cell.stars.size ++ " - [Parent]\n"

def Tree.outline (tree : Tree) : String :=
  String.join (tree.listing.map Entry.line)

end Starfield
