import Std.Data.TreeSet
import Starfield.Fault

/-!
# The slot pool

The drawing buffer is divided into slots of equal size.  A slot that a cell
gives up is not handed out again at once: it stays pending until the next
frame begins, so that whoever still reads last frame's data is left alone.

```text
  acquire?  <--  free  <--  reclaim
                               ^
  release   -->  pending  -----+
```
-/

namespace Starfield

structure SlotPool where
  /-- Slots that can be handed out, the next one first. -/
  free : List Nat := []
  /-- Slots given up since the last reclaim. -/
  pending : Std.TreeSet Nat := ∅
  capacity : Nat := 0
  /-- One more than the highest slot handed out, lowered again when the top
  slots are reclaimed. -/
  highWater : Nat := 0
  /-- Whether a slot was given up that does not exist or was pending already,
  which the users of a pool must never do. -/
  misused : Bool := false
deriving Inhabited

namespace SlotPool

/-- A pool with every slot free, the lowest first. -/
def ofCapacity (capacity : Nat) : SlotPool :=
  { free := List.range capacity, capacity }

def acquire? (pool : SlotPool) : Option (Nat × SlotPool) :=
  match pool.free with
  | [] => none
  | slot :: free => some (slot, { pool with free, highWater := max pool.highWater (slot + 1) })

/-- Give up a slot.  It stays pending until the next reclaim. -/
def release (pool : SlotPool) (slot : Nat) : SlotPool :=
  { pool with
    pending := pool.pending.insert slot
    misused := pool.misused || pool.capacity ≤ slot || pool.pending.contains slot }

/-- The mark after the given slots, highest first, have been reclaimed: it
comes down as long as the slot just below it is among them. -/
def lowerMark (mark : Nat) (slots : List Nat) : Nat :=
  slots.foldl (fun mark slot => if slot + 1 = mark then slot else mark) mark

/-- Put every pending slot in front of the free ones, the lowest first. -/
def reclaim (pool : SlotPool) : SlotPool :=
  let slots := pool.pending.toList
  { pool with
    free := slots ++ pool.free
    pending := ∅
    highWater := lowerMark pool.highWater slots.reverse }

def freeCount (pool : SlotPool) : Nat := pool.free.length

def pendingCount (pool : SlotPool) : Nat := pool.pending.size

def isPending (pool : SlotPool) (slot : Nat) : Bool := pool.pending.contains slot

/-- The number of slots that are neither free nor pending.  It means nothing when
these are more than there are slots. -/
def inUse (pool : SlotPool) : Nat :=
  pool.capacity - pool.freeCount - pool.pendingCount

theorem acquire?_eq_none_iff (pool : SlotPool) : pool.acquire? = none ↔ pool.free = [] := by
  unfold acquire?
  split <;> simp_all

end SlotPool

end Starfield
