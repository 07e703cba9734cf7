/-!
# Compaction

Slots are handed out from the front of the buffer, but cells give them back in
any order, so the slots in use drift apart.  When the highest slot used lies
far up although most slots are free, the next frame places every cell anew.
The limits are shares of the buffer's capacity, computed with whole numbers.
-/

namespace Starfield

/-- The fraction `numerator / denominator` of a capacity. -/
structure Share where
  numerator : Nat
  denominator : Nat
deriving DecidableEq, Inhabited

/-- A share of a capacity, rounded down; a denominator of zero counts as
one. -/
def Share.of (share : Share) (capacity : Nat) : Nat :=
  capacity * share.numerator / max share.denominator 1

def Share.isProper (share : Share) : Bool :=
  share.denominator ≠ 0 && share.numerator ≤ share.denominator

structure Compaction where
  /-- The high-water mark must lie above this share of the capacity. -/
  highWater : Share := ⟨4, 5⟩
  /-- More slots than this share of the capacity must be free. -/
  free : Share := ⟨5, 6⟩
deriving DecidableEq, Inhabited

namespace Compaction

def never : Compaction := ⟨⟨1, 1⟩, ⟨1, 1⟩⟩

/-- Whether a buffer is fragmented enough; both limits must be exceeded. -/
def isDue (rule : Compaction) (highWater free capacity : Nat) : Bool :=
  rule.highWater.of capacity < highWater && rule.free.of capacity < free

end Compaction

end Starfield
