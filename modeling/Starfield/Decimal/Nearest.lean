/-!
# Decimal text to binary

A decimal fraction stands for the binary64 number nearest to it.  Very large
and very small exponents are settled first, so that the work never depends on
how large the written exponent is.
-/

namespace Starfield.Decimal

/-- The binary64 number nearest to `digits * 10 ^ exponent`, with the sign put
in front afterwards.  Beyond `10 ^ 310` this is infinity and below `10 ^ -330`
it is zero. -/
def nearest (negative : Bool) (digits : Nat) (exponent : Int) : Float :=
  let top := (Nat.toDigits 10 digits).length + exponent
  let magnitude : Float :=
    if digits = 0 then 0
    else if 310 < top then 1 / 0
    else if top < -330 then 0
    else if exponent < 0 then Float.ofScientific digits true exponent.natAbs
    else Float.ofScientific digits false exponent.natAbs
  if negative then -magnitude else magnitude

end Starfield.Decimal
