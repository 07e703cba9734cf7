import Starfield.Frame.Update
import Starfield.RecentWindow
import Starfield.SlotPool

/-!
# The frame log

The frame log keeps figures about the frames that were recorded: what the last
one changed, how many there were, and how long the most recent ones took.
-/

namespace Starfield

/-- Figures about recorded frames.  Times are in microseconds. -/
structure FrameLog where
  /-- How long the most recent frames took. -/
  times : RecentWindow Nat := {}
  lastTime : Nat := 0
  filled : Nat := 0
  vacated : Nat := 0
  /-- Slots in use after the last frame. -/
  resident : Nat := 0
  highWater : Nat := 0
  frames : Nat := 0
  /-- The number of frames that placed every node anew. -/
  compactions : Nat := 0
deriving Inhabited

def FrameLog.record (log : FrameLog) (update : Update) (time : Nat) (slots : SlotPool) :
    FrameLog :=
  { times := log.times.push time
    lastTime := time
    filled := update.filled.length
    vacated := update.vacated.length
    resident := slots.inUse
    highWater := slots.highWater
    frames := log.frames + 1
    compactions := log.compactions + update.compacted.toNat }

end Starfield
