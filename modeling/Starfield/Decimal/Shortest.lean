/-!
# Shortest decimal text

A binary number is shown with the fewest decimal digits that read back as the
same number; of the candidates with that many digits the nearest one is taken.
The search compares exact fractions over the natural numbers, so nothing is
rounded on the way from the bits to the text.
-/

namespace Starfield.Decimal

/-- The positive number `mantissa * 2 ^ exponent` of a binary format.  `narrow`
says that the next smaller number of the format is only half a step away,
which happens at the powers of two. -/
structure Dyadic where
  mantissa : Nat
  exponent : Int
  narrow : Bool
deriving DecidableEq

structure Scaled where
  digits : Nat
  exponent : Int
deriving DecidableEq

/-- The multiple of `10 ^ exponent` that reads back as `x`, when there is one.
The numbers that read back as `x` reach half a step to either side of it, and
the two ends belong to them exactly when the mantissa is even.  Of two
multiples the nearer one is meant, and the greater one when both are equally
near. -/
def Dyadic.multiple? (x : Dyadic) (exponent : Int) : Option Nat :=
  let unit := Nat.pow 10 (-exponent).toNat <<< (x.exponent - 2).toNat
  let step := Nat.pow 10 exponent.toNat <<< (2 - x.exponent).toNat
  let value := 4 * x.mantissa * unit
  let low := value - (if x.narrow then unit else 2 * unit)
  let high := value + 2 * unit
  let reads (n : Nat) : Bool :=
    if x.mantissa % 2 = 0 then low ≤ n * step && n * step ≤ high
    else low < n * step && n * step < high
  let below := value / step
  match reads below, reads (below + 1) with
  | true, true =>
      if value - below * step < (below + 1) * step - value then some below
      else some (below + 1)
  | true, false => some below
  | false, true => some (below + 1)
  | false, false => none

/-- The shortest decimal that reads back as `x`: the multiple of the greatest
power of ten that has one, looked for from `10 ^ 40` downwards.  Every number
of a 32-bit format has one before the ninety powers are used up. -/
def Dyadic.shortest (x : Dyadic) : Scaled :=
  let exponents := (List.range 90).map fun (i : Nat) => 40 - (i : Int)
  (exponents.findSome? fun exponent =>
    (x.multiple? exponent).map fun digits => ⟨digits, exponent⟩).getD ⟨0, 0⟩

/-- The digits of a scaled number written out in full, never with an
exponent. -/
def Scaled.text (x : Scaled) : String :=
  let digits := Nat.toDigits 10 x.digits
  let places := (-x.exponent).toNat
  if 0 ≤ x.exponent then
    String.ofList (digits ++ List.replicate x.exponent.toNat '0')
  else if places < digits.length then
    String.ofList (digits.take (digits.length - places)) ++ "." ++
      String.ofList (digits.drop (digits.length - places))
  else
    "0." ++ String.ofList (List.replicate (places - digits.length) '0' ++ digits)

/-- The positive number that the exponent and fraction fields of a binary32
pattern stand for. -/
def Dyadic.ofFields (exponent fraction : Nat) : Dyadic :=
  if exponent = 0 then ⟨fraction, -149, false⟩
  else ⟨fraction + 1 <<< 23, (exponent : Int) - 150, fraction = 0 ∧ 1 < exponent⟩

/-- The text of a binary32 number: its shortest decimal, a minus sign before
negative numbers and negative zero, and names for what is no number. -/
def text (x : Float32) : String :=
  let bits := x.toBits.toNat
  let sign := if bits < 1 <<< 31 then "" else "-"
  let exponent := bits >>> 23 % 256
  let fraction := bits % (1 <<< 23)
  if exponent = 255 then
    if fraction = 0 then sign ++ "inf" else "NaN"
  else if exponent = 0 ∧ fraction = 0 then sign ++ "0"
  else sign ++ (Dyadic.ofFields exponent fraction).shortest.text

end Starfield.Decimal
