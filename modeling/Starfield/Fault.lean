import Starfield.Decimal.Shortest

/-!
# Faults

Everything that can go wrong with a tree, by cause.  The wording lives in the
`message` functions alone, so the rest of the library never handles text to
report a problem.
-/

namespace Starfield

/-- What can be wrong with the settings or the layout of a tree. -/
inductive Misfit where
  | reach (found : Float32)
  | noStarsPerCell
  | positionWidth (found : Nat)
deriving DecidableEq

inductive Corruption where
  | capacity (found : Int)
  | leafFlag (flag depth : Nat)
  | negativeSize (depth : Nat) (stars count : Int)
  | payloadSize (count depth stars width : Nat)
  | starCount (depth claimed stored : Nat)
  | depthLimit (depth limit : Nat)
deriving DecidableEq

/-- What can go wrong below the formats, with the files themselves. -/
inductive StreamFault where
  | ended
  | payloadEnded (depth found expected : Nat)
  | notFound
  | isDirectory
  | notDirectory
  | nameTooLong
  | nulInName
  | notText
  /-- Anything else that the system refuses, in its own words and with its own
  number. -/
  | system (text : String) (number : Nat)
deriving DecidableEq

inductive Fault where
  | slotsExhausted (capacity : Nat)
  | widthMismatch (expected : Nat) (found : Int)
  | corrupt (why : Corruption)
  | starWidth (expected found : Nat)
  | misfit (why : Misfit)
  | depthLimit (depth : Nat)
  | stream (why : StreamFault)
deriving DecidableEq

def Misfit.message : Misfit → String
  | .reach found => s!"max_dist must be positive and finite, got {Decimal.text found}"
  | .noStarsPerCell => "max_stars_per_node must be at least 1"
  | .positionWidth found => s!"pos_size must be at least 3, got {found}"

def Corruption.message : Corruption → String
  | .capacity found => s!"max_stars_per_node must be positive, got {found}"
  | .leafFlag flag depth => s!"invalid leaf flag {flag} at depth {depth}"
  | .negativeSize depth stars count =>
      s!"negative size at depth {depth} (num_stars {stars}, count {count})"
  | .payloadSize count depth stars width =>
      s!"payload of {count} floats at depth {depth} does not fit {stars} stars of width {width}"
  | .starCount depth claimed stored =>
      s!"leaf at depth {depth} claims {claimed} stars but stores {stored}"
  | .depthLimit depth limit => s!"inner node at depth {depth} exceeds depth limit {limit}"

def StreamFault.message : StreamFault → String
  | .ended => "failed to fill whole buffer"
  | .payloadEnded depth found expected =>
      s!"payload at depth {depth} ends after {found} of {expected} bytes"
  | .notFound => "No such file or directory (os error 2)"
  | .isDirectory => "Is a directory (os error 21)"
  | .notDirectory => "Not a directory (os error 20)"
  | .nameTooLong => "File name too long (os error 36)"
  | .nulInName => "file name contained an unexpected NUL byte"
  | .notText => "stream did not contain valid UTF-8"
  | .system text number => s!"{text} (os error {number})"

def Fault.message : Fault → String
  | .slotsExhausted capacity => s!"slot allocator exhausted: all {capacity} slots are in use"
  | .widthMismatch expected found =>
      s!"values per star mismatch: layout has {expected}, file has {found}"
  | .corrupt why => "corrupt octree file: " ++ why.message
  | .starWidth expected found => s!"sample has {found} values, layout expects {expected}"
  | .misfit why => "invalid star layout: " ++ why.message
  | .depthLimit depth => s!"insertion would subdivide past depth {depth}"
  | .stream why => "io error: " ++ why.message

end Starfield
