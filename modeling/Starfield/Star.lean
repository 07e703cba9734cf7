/-!
# Stars

A star is a row of numbers: its position first, then colour, then motion.  The
numbers are kept as the bit patterns they were given in, and are decoded only
where the tree has to compute with them.  Storing a star and loading it again
therefore changes nothing, not even the payload of a value that is no number.
-/

namespace Starfield

/-- One stored number: the bits of a binary32 value. -/
structure Value where
  bits : UInt32
deriving DecidableEq, Inhabited

def Value.number (value : Value) : Float32 :=
  Float32.ofBits value.bits

def Value.ofNumber (number : Float32) : Value :=
  ⟨number.toBits⟩

/-- Positive zero, which pads chunks and fills the attributes of seeds. -/
def Value.zero : Value := ⟨0⟩

/-- The row of values of one star. -/
abbrev Star := List Value

end Starfield
