import Starfield.Node

/-!
# Chunks

A chunk is what a cell writes into its slot.  It has one block for each
attribute, and every block is filled up with zeros to the room that a full
cell needs.  An attribute of a star is therefore found at a place that depends
on the layout and the detail alone, and whatever a slot held before is
overwritten.
-/

namespace Starfield

/-- The values brought to a given number: cut off behind it, or filled up with
zeros. -/
def fit (size : Nat) (values : List Value) : List Value :=
  (values.take size).rightpad size .zero

@[simp]
theorem length_fit (size : Nat) (values : List Value) : (fit size values).length = size := by
  simp only [fit, List.rightpad, List.length_append, List.length_replicate, List.length_take]
  omega

namespace Cell

/-- The chunk of a cell in a tree whose cells hold up to `capacity` stars. -/
def chunk (layout : Layout) (capacity : Nat) (detail : Detail) (cell : Cell) : List Value :=
  fit (layout.position * capacity) (cell.positions layout) ++
    (if detail.hasColor then fit (layout.color * capacity) (cell.colors layout) else []) ++
    (if detail.hasMotion then fit (layout.motion * capacity) (cell.motions layout) else [])

/-- All chunks of one detail have the same length. -/
theorem length_chunk (layout : Layout) (capacity : Nat) (detail : Detail) (cell : Cell) :
    (cell.chunk layout capacity detail).length = layout.widthFor detail * capacity := by
  cases detail <;> simp [chunk, Layout.widthFor, Detail.hasColor, Detail.hasMotion, Nat.add_mul,
    Nat.add_assoc]

end Cell

end Starfield
