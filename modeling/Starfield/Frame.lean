import Starfield.Frame.Walk
import Starfield.Tree

/-!
# Frames

A frame reclaims the slots given up by the frame before, starts the buffer
afresh when it has become too fragmented, and walks the tree.  On success it
returns the changes of the buffer.  A frame that runs out of slots leaves the
tree half-way; giving the buffer a new size then sets everything right.
-/

namespace Starfield

structure Frame where
  tree : Tree
  asked : List Question
  outcome : Except Fault Update

namespace Tree

/-- The slots at the beginning of a frame, and whether the frame places every
node anew. -/
def frameStart (tree : Tree) : SlotPool × Bool :=
  let slots := tree.slots.reclaim
  if tree.settings.compaction.isDue slots.highWater slots.freeCount slots.capacity then
    (.ofCapacity slots.capacity, true)
  else (slots, false)

/-- Run one frame without recording it. -/
def frame (tree : Tree) (oracle : Oracle) (detail : Detail) : Frame :=
  let (slots, compacting) := tree.frameStart
  let pass : Pass :=
    { settings := tree.settings, layout := tree.layout, detail, oracle, compacting }
  let (octants, walk) :=
    Octet.thread (fun o => (tree.octants o).walk pass (tree.domain.child o)) { slots }
  { tree := { tree.withOctants octants with slots := walk.slots }
    asked := walk.asked.reverse
    outcome :=
      if walk.exhausted then .error (.slotsExhausted walk.slots.capacity)
      else
        .ok {
          changes := walk.stale.foldl (fun changes slot => changes.insertIfNew slot .vacate)
            walk.changes
          delta := walk.delta
          compacted := compacting } }

/-- Run one frame.  A successful frame is recorded when its time in
microseconds is given. -/
def runFrame (tree : Tree) (oracle : Oracle) (detail : Detail) (time : Option Nat) : Frame :=
  let frame := tree.frame oracle detail
  match frame.outcome, time with
  | .ok update, some time =>
    let tree := frame.tree
    { frame with tree := { tree with log := tree.log.record update time tree.slots } }
  | _, _ => frame

end Tree

end Starfield
