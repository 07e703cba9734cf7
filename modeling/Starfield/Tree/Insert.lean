import Starfield.Rows
import Starfield.Sampling
import Starfield.Tree

/-!
# Insertion

A star descends to the leaf of its octants.  Each inner node on the way counts
it and offers it to its sample.  A leaf that is already full is split: its
stars go to eight new leaves, the star follows them, and where they all go the
same way the split repeats one level down.  When the depth limit forbids a
split that is needed, nothing happens at all.
-/

namespace Starfield

/-- The stars that belong to one octant of a cube. -/
def Cube.part (cube : Cube) (stars : Array Star) (o : Octant) : Array Star :=
  stars.filter fun star => cube.octantOf star.point = o

namespace Cell

def joined (star : Star) (cell : Cell) : Cell :=
  { cell.push star with count := cell.count + 1 }

/-- The cell of an inner node after a star has passed it: the star is counted
and offered to the sample. -/
def passed (settings : Settings) (star : Star) (place : Place) (cell : Cell) : Cell :=
  { cell with
    count := cell.count + 1
    stars :=
      if settings.keepsSample place.depth then
        place.cube.offer settings.starsPerCell cell.stars star
      else cell.stars }

/-- The cell of the inner node that a full leaf becomes: a sample takes the
place of its stars. -/
def subdivided (settings : Settings) (layout : Layout) (place : Place) (cell : Cell) : Cell :=
  { cell with stars := settings.sample layout place cell.stars }

/-- The subtree that a leaf becomes when a star joins it, and what happened on
the way.  At most `levels` more levels may be split; there is no result when
that is not enough. -/
def grow? (settings : Settings) (layout : Layout) (star : Star) :
    (levels : Nat) → Place → Cell → Option (Node × Growth)
  | levels, place, cell =>
    if cell.count < settings.starsPerCell then
      some (.leaf (cell.joined star), ⟨place.depth, 0⟩)
    else
      match levels with
      | 0 => none
      | levels + 1 =>
        let target := place.cube.octantOf star.point
        let part (o : Octant) : Cell := .ofStars (place.cube.part cell.stars o)
        ((part target).grow? settings layout star levels (place.child target)).map
          fun (child, growth) =>
            (.ofFamily ((cell.subdivided settings layout place).passed settings star place)
              fun o => if o = target then child else .leaf (part o),
            { growth with splits := growth.splits + 1 })

end Cell

namespace Node

/-- The subtree with one more star, and what happened on the way.  There is no
result when the star would need a split below the depth limit. -/
def insert? (settings : Settings) (layout : Layout) (star : Star) (place : Place) :
    Node → Option (Node × Growth)
  | leaf cell => cell.grow? settings layout star (settings.depthLimit - place.depth) place
  | inner cell children =>
    let target := place.cube.octantOf star.point
    ((children target).insert? settings layout star (place.child target)).map
      fun (child, growth) =>
        (ofFamily (cell.passed settings star place)
          fun o => if o = target then child else children o,
        growth)

end Node

namespace Tree

/-- Take a star into the tree.  A star of the wrong width and a star that would
need a split below the depth limit are refused.  The tree that is there
afterwards is returned in either case, with the reason for a refusal. -/
def receive (tree : Tree) (star : Star) : Tree × Option Fault :=
  if star.length ≠ tree.layout.width then
    (tree, some (.starWidth tree.layout.width star.length))
  else
    let target := tree.domain.cube.octantOf star.point
    match (tree.octants target).insert? tree.settings tree.layout star
        (tree.domain.child target) with
    | none => (tree, some (.depthLimit tree.settings.depthLimit))
    | some (node, growth) =>
        ({ tree.withOctants
              (.ofFamily fun o => if o = target then node else tree.octants o) with
            census := tree.census.grow growth }, none)

def insert (tree : Tree) (star : Star) : Except Fault Tree :=
  match tree.receive star with
  | (tree, none) => .ok tree
  | (_, some fault) => .error fault

/-- Insert stars in order, up to the first one that is refused.  The tree that
was reached is returned in either case, with the reason why the run ended
early. -/
def insertStars (tree : Tree) : List Star → Tree × Option Fault
  | [] => (tree, none)
  | star :: stars =>
    match tree.receive star with
    | (tree, some fault) => (tree, some fault)
    | (tree, none) => tree.insertStars stars

/-- Insert the stars of a flat list of values.  Nothing is inserted when the
list does not consist of whole stars. -/
def insertFlat (tree : Tree) (values : List Value) : Tree × Option Fault :=
  let width := tree.layout.width
  if values.length % width ≠ 0 then
    (tree, some (.starWidth width (values.length % width)))
  else
    tree.insertStars (rows width (values.length / width) values)

end Tree

end Starfield
