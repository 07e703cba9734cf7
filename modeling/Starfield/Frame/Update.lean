import Std.Data.TreeMap
import Starfield.Star

/-!
# Updates

What a frame changes in the drawing buffer: at most one change for each slot.
-/

namespace Starfield

inductive Change where
  | fill (chunk : List Value)
  | vacate
deriving DecidableEq

structure Update where
  changes : Std.TreeMap Nat Change := ∅
  /-- How many more stars the buffer shows than before. -/
  delta : Int := 0
  /-- Whether the frame placed every node anew. -/
  compacted : Bool := false
deriving Inhabited

namespace Update

def isEmpty (update : Update) : Bool := update.changes.isEmpty

def filled (update : Update) : List (Nat × List Value) :=
  update.changes.toList.filterMap fun (slot, change) =>
    match change with
    | .fill chunk => some (slot, chunk)
    | .vacate => none

def vacated (update : Update) : List Nat :=
  update.changes.toList.filterMap fun (slot, change) =>
    match change with
    | .fill _ => none
    | .vacate => some slot

end Update

end Starfield
