import Starfield.Chunk
import Starfield.Frame.Update
import Starfield.Frame.View
import Starfield.Settings
import Starfield.SlotPool

/-!
# The walk of a frame

Each frame walks the tree from its octants down and decides which nodes hold a
slot of the drawing buffer:

- a node that cannot be seen is vacated with everything below it;
- a visible leaf with stars is seated, an empty one is vacated;
- a visible inner node whose sample is good enough for the few pixels it covers
  is seated with its sample; when it gets a new slot, everything below it is
  vacated before the slot is written;
- any other visible inner node is vacated, and the walk goes on below it.

A node that is seated already is written again only when it shows something
else than before.  When the frame compacts the buffer, every node that is to be
seated gets a new slot, and slots held before are collected as stale.  A walk
that finds no free slot stops where it is.
-/

namespace Starfield

/-- What stays the same during the walk of one frame. -/
structure Pass where
  settings : Settings
  layout : Layout
  detail : Detail
  oracle : Oracle
  /-- Whether the frame places every node anew. -/
  compacting : Bool

structure Walk where
  slots : SlotPool
  /-- Slots held before the buffer was compacted, latest first. -/
  stale : List Nat := []
  changes : Std.TreeMap Nat Change := ∅
  delta : Int := 0
  /-- The questions asked, latest first. -/
  asked : List Question := []
  /-- Whether a slot was needed when none was free. -/
  exhausted : Bool := false
deriving Inhabited

namespace Walk

def askSees (walk : Walk) (pass : Pass) (corners : Corners) : Bool × Walk :=
  let answer := (pass.oracle walk.asked).sees corners
  (answer, { walk with asked := .sees corners answer :: walk.asked })

/-- Ask how large a cube at the given depth appears, and compare it with the
size below which a sample is drawn. -/
def askSmall (walk : Walk) (pass : Pass) (depth : Nat) (corners : Corners) : Bool × Walk :=
  let (width, height) := (pass.oracle walk.asked).pixels corners
  (width * height < pass.settings.pixelThreshold depth,
    { walk with asked := .pixels corners width height :: walk.asked })

end Walk

namespace Cell

def vacate (compacting : Bool) (cell : Cell) (walk : Walk) : Cell × Walk :=
  match cell.tenancy with
  | none => (cell, walk)
  | some tenancy =>
    let walk :=
      if compacting then { walk with stale := tenancy.slot :: walk.stale }
      else
        { walk with
          slots := walk.slots.release tenancy.slot
          changes := walk.changes.insert tenancy.slot .vacate }
    ({ cell with tenancy := none }, { walk with delta := walk.delta - tenancy.stars })

/-- Write the cell into a slot, where it shows the given number of stars. -/
def write (pass : Pass) (slot stars sampled : Nat) (cell : Cell) (walk : Walk) : Cell × Walk :=
  let chunk := cell.chunk pass.layout pass.settings.starsPerCell pass.detail
  ({ cell with tenancy := some ⟨slot, stars, sampled⟩ },
    { walk with
      changes := walk.changes.insert slot (.fill chunk)
      delta := walk.delta + (stars - cell.shown) })

/-- Find the slot in which the cell is to show the given number of stars.  The
result says which slot has to be written, and whether it is a new one; there is
nothing to write when the slot held shows this already, or when none is free. -/
def claim (pass : Pass) (stars sampled : Nat) (cell : Cell) (walk : Walk) :
    Option (Nat × Bool) × Walk :=
  let acquire (walk : Walk) : Option (Nat × Bool) × Walk :=
    match walk.slots.acquire? with
    | none => (none, { walk with exhausted := true })
    | some (slot, slots) => (some (slot, true), { walk with slots })
  match cell.tenancy with
  | none => acquire walk
  | some tenancy =>
    if pass.compacting then acquire { walk with stale := tenancy.slot :: walk.stale }
    else if tenancy.stars = stars ∧ tenancy.sampled = sampled then (none, walk)
    else (some (tenancy.slot, false), walk)

/-- See to it that the cell holds a slot which shows the given number of
stars.  The last component tells whether the slot is a new one. -/
def seat (pass : Pass) (stars sampled : Nat) (cell : Cell) (walk : Walk) : Cell × Walk × Bool :=
  match cell.claim pass stars sampled walk with
  | (none, walk) => (cell, walk, false)
  | (some (slot, isNew), walk) =>
    let (cell, walk) := cell.write pass slot stars sampled walk
    (cell, walk, isNew)

end Cell

namespace Node

def vacate (compacting : Bool) : Node → Walk → Node × Walk
  | leaf cell, walk =>
    let (cell, walk) := cell.vacate compacting walk
    (leaf cell, walk)
  | inner cell children, walk =>
    let (cell, walk) := cell.vacate compacting walk
    let (children, walk) := Octet.thread (fun o => (children o).vacate compacting) walk
    (ofOctet cell children, walk)

/-- Walk a subtree whose root sits at the given place. -/
def walk (pass : Pass) (place : Place) : Node → Walk → Node × Walk
  | leaf cell, walk =>
    if walk.exhausted then (leaf cell, walk)
    else
      let (seen, walk) := walk.askSees pass (place.cube.worldCorners pass.settings.worldScale)
      if seen && cell.count ≠ 0 then
        let (cell, walk, _) := cell.seat pass cell.count 0 walk
        (leaf cell, walk)
      else
        let (cell, walk) := cell.vacate pass.compacting walk
        (leaf cell, walk)
  | inner cell children, walk =>
    if walk.exhausted then (inner cell children, walk)
    else
      let corners := place.cube.worldCorners pass.settings.worldScale
      let (seen, walk) := walk.askSees pass corners
      if !seen then (inner cell children).vacate pass.compacting walk
      else
        let (small, walk) :=
          if cell.stars.isEmpty then (false, walk) else walk.askSmall pass place.depth corners
        if small then
          let stars := cell.stars.size
          let sampled := cell.valueCount
          match cell.claim pass stars sampled walk with
          | (none, walk) => (inner cell children, walk)
          | (some (slot, false), walk) =>
            let (cell, walk) := cell.write pass slot stars sampled walk
            (inner cell children, walk)
          | (some (slot, true), walk) =>
            let (children, walk) :=
              Octet.thread (fun o => (children o).vacate pass.compacting) walk
            let (cell, walk) := cell.write pass slot stars sampled walk
            (ofOctet cell children, walk)
        else
          let (cell, walk) := cell.vacate pass.compacting walk
          let (children, walk) :=
            Octet.thread (fun o => (children o).walk pass (place.child o)) walk
          (ofOctet cell children, walk)

end Node

end Starfield
