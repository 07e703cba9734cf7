import Starfield.Node.Listing

/-!
# The census of a tree

A census holds the figures that describe the shape of a tree.  They can be
kept up to date while the tree grows, or counted afresh from its nodes.
-/

namespace Starfield

structure Census where
  /-- The number of leaves, empty ones included. -/
  leaves : Nat := 0
  inner : Nat := 0
  /-- The deepest level that a star is stored at. -/
  depth : Nat := 0
  splits : Nat := 0
  stars : Nat := 0
deriving DecidableEq, Inhabited

/-- What the insertion of one star did to the shape of a tree. -/
structure Growth where
  depth : Nat
  splits : Nat
deriving DecidableEq

namespace Census

def nodes (census : Census) : Nat := census.leaves + census.inner

/-- The figures of an empty tree: eight empty leaves. -/
def empty : Census := { leaves := 8 }

/-- The figures after one more star has been stored.  Each split turns a leaf
into an inner node and brings eight new leaves. -/
def grow (census : Census) (growth : Growth) : Census :=
  { leaves := census.leaves + 7 * growth.splits
    inner := census.inner + growth.splits
    depth := max census.depth growth.depth
    splits := census.splits + growth.splits
    stars := census.stars + 1 }

/-- The figures with one more node counted.  Stars are not counted here: what
the nodes directly below the domain say about them is taken. -/
def add (census : Census) (entry : Entry) : Census :=
  if entry.isLeaf then
    { census with
      leaves := census.leaves + 1
      depth := if entry.cell.count = 0 then census.depth else max census.depth entry.place.depth }
  else
    { census with inner := census.inner + 1, splits := census.splits + 1 }

def count (listing : List Entry) (octants : Octant → Node) : Census :=
  { listing.foldl add {} with
    stars := Octant.all.foldl (fun n o => n + (octants o).cell.count) 0 }

end Census

end Starfield
