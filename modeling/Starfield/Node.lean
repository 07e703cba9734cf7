import Starfield.Geometry.Cube
import Starfield.Layout

/-!
# Nodes

A node of the tree is a leaf, which holds its stars, or an inner node, which
has a child for each octant and holds a sample of the stars below it.  Either
may be tenant of a slot of the drawing buffer.
-/

namespace Starfield

/-- The slot that a node holds and what was written there: the number of stars
and, for a sample, the number of its values. -/
structure Tenancy where
  slot : Nat
  stars : Nat
  sampled : Nat
deriving DecidableEq

/-- What a node holds itself. -/
structure Cell where
  /-- The number of stars in the whole subtree. -/
  count : Nat := 0
  /-- The stars of a leaf, or the sample of an inner node. -/
  stars : Array Star := #[]
  /-- The slot held, if any. -/
  tenancy : Option Tenancy := none
deriving Inhabited

inductive Node where
  | leaf (cell : Cell)
  | inner (cell : Cell) (children : Octant → Node)

instance : Inhabited Node := ⟨.leaf {}⟩

namespace Cell

def ofStars (stars : Array Star) : Cell :=
  { count := stars.size, stars }

def positions (layout : Layout) (cell : Cell) : List Value :=
  cell.stars.toList.flatMap layout.positionOf

/-- The point of the star with the given number.  It is read where the position
of that star begins among the positions, and goes on into the next ones when a
position has fewer than three values. -/
def point (layout : Layout) (cell : Cell) (number : Nat) : Point :=
  Star.point ((cell.positions layout).drop (layout.position * number))

def colors (layout : Layout) (cell : Cell) : List Value :=
  cell.stars.toList.flatMap layout.colorOf

def motions (layout : Layout) (cell : Cell) : List Value :=
  cell.stars.toList.flatMap layout.motionOf

/-- All values held, attribute by attribute. -/
def values (layout : Layout) (cell : Cell) : List Value :=
  cell.positions layout ++ cell.colors layout ++ cell.motions layout

def valueCount (cell : Cell) : Nat :=
  cell.stars.foldl (fun n star => n + star.length) 0

/-- The cell with one more star in its own store; the count stays. -/
def push (cell : Cell) (star : Star) : Cell :=
  { cell with stars := cell.stars.push star }

/-- The number of stars that the slot of this cell shows. -/
def shown (cell : Cell) : Nat :=
  (cell.tenancy.map Tenancy.stars).getD 0

end Cell

namespace Node

def cell : Node → Cell
  | leaf cell => cell
  | inner cell _ => cell

def isLeaf : Node → Bool
  | leaf _ => true
  | inner _ _ => false

def mapCell (f : Cell → Cell) : Node → Node
  | leaf cell => leaf (f cell)
  | inner cell children => inner (f cell) children

/-- An inner node whose children are given as evaluated fields. -/
def ofOctet (cell : Cell) (children : Octet Node) : Node :=
  inner cell children.get

/-- An inner node whose children are computed once, here. -/
def ofFamily (cell : Cell) (children : Octant → Node) : Node :=
  ofOctet cell (.ofFamily children)

@[simp]
theorem ofFamily_eq (cell : Cell) (children : Octant → Node) :
    ofFamily cell children = inner cell children := by
  simp [ofFamily, ofOctet]

/-- The node as an inner node with eight empty leaves below it. -/
def split (node : Node) : Node :=
  ofFamily node.cell fun _ => leaf {}

/-- The node with no tenancies left in its whole subtree. -/
def clear : Node → Node
  | leaf cell => leaf { cell with tenancy := none }
  | inner cell children =>
      ofFamily { cell with tenancy := none } fun o => (children o).clear

def descend? : Node → List Octant → Option Node
  | node, [] => some node
  | leaf _, _ :: _ => none
  | inner _ children, o :: path => (children o).descend? path

/-- Change the node that a path leads to; a path that leaves the tree changes
nothing. -/
def modify (f : Node → Node) : Node → List Octant → Node
  | node, [] => f node
  | leaf cell, _ :: _ => leaf cell
  | inner cell children, o :: path =>
      ofFamily cell fun p => if p = o then (children p).modify f path else children p

end Node

end Starfield
