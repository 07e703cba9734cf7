import Starfield.Census
import Starfield.Chunk
import Starfield.FrameLog
import Starfield.Settings

/-!
# Trees

A tree holds the nodes of the eight octants of its domain, the slots of the
drawing buffer and the figures about both.  The domain itself is always split
and stores nothing.
-/

namespace Starfield

structure Tree where
  settings : Settings
  layout : Layout
  octants : Octant → Node := fun _ => .leaf {}
  slots : SlotPool := {}
  census : Census := .empty
  log : FrameLog := {}

namespace Tree

/-- The empty tree, if the settings and the layout can describe one.  Its
buffer has no slots yet. -/
def create (settings : Settings) (layout : Layout) : Except Fault Tree := do
  settings.validate
  layout.validate
  return { settings, layout }

/-- Where the octants of the domain hang. -/
def domain (tree : Tree) : Place := .domain tree.settings.reach

/-- The tree with other nodes below the domain, which are computed once,
here. -/
def withOctants (tree : Tree) (octants : Octet Node) : Tree :=
  { tree with octants := octants.get }

/-- Give the buffer a new size: every slot is free and no node holds one. -/
def resizeBuffer (tree : Tree) (capacity : Nat) : Tree :=
  { tree.withOctants (.ofFamily fun o => (tree.octants o).clear) with
    slots := .ofCapacity capacity }

def listing (tree : Tree) : List Entry :=
  Octant.all.flatMap fun o => (tree.octants o).listing [o] (tree.domain.child o)

def recount (tree : Tree) : Census :=
  .count tree.listing tree.octants

def isEmpty (tree : Tree) : Bool := tree.census.stars = 0

def chunkLength (tree : Tree) (detail : Detail) : Nat :=
  tree.layout.widthFor detail * tree.settings.starsPerCell

/-- The chunks of all leaves, empty ones included, in pre-order. -/
def snapshot (tree : Tree) (detail : Detail) : List Value :=
  (tree.listing.filter Entry.isLeaf).flatMap fun entry =>
    entry.cell.chunk tree.layout tree.settings.starsPerCell detail

end Tree

end Starfield
