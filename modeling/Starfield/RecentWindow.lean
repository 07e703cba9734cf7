/-!
# Windows of recent values

A window remembers the values pushed last.  A push drops the oldest value when
the window is full and then adds the new one.
-/

namespace Starfield

/-- The most recent values, oldest first. -/
structure RecentWindow (α : Type) where
  capacity : Nat := 128
  values : List α := []
deriving Inhabited

namespace RecentWindow

variable {α : Type}

def ofCapacity (capacity : Nat) : RecentWindow α := { capacity }

/-- Add a value, dropping the oldest one when the window is full. -/
def push (window : RecentWindow α) (value : α) : RecentWindow α :=
  let kept := if window.capacity ≤ window.values.length then window.values.tail else window.values
  { window with values := kept ++ [value] }

def size (window : RecentWindow α) : Nat := window.values.length

def sum (window : RecentWindow Nat) : Nat := window.values.foldl (· + ·) 0

/-- The mean of the values held, and zero for an empty window.  The sum and the
count are rounded to binary64 before they are divided. -/
def mean (window : RecentWindow Nat) : Float :=
  if window.values.isEmpty then 0
  else Float.ofNat window.sum / Float.ofNat window.size

end RecentWindow

end Starfield
