import Starfield.Decimal.Nearest
import Starfield.Toml.Quoted

/-!
# Numbers

A whole number is written in decimal with an optional sign, or after a prefix
in base sixteen, eight or two, and must fit sixty-four bits with a sign.  A
number with a fraction or an exponent is rounded to binary64 and must not be
too large for it.  An underscore may stand between two digits.
-/

namespace Starfield.Toml

/-- Take a digit, or an underscore with the digit after it. -/
def nextDigit (isDigit : Char → Bool) : Scanner Char
  | '_' :: rest => one isDigit rest
  | text => one isDigit text

/-- Take a run of digits, without the underscores between them. -/
def digits (isDigit : Char → Bool) : Scanner (List Char) := fun text => do
  let (first, rest) ← one isDigit text
  let (more, rest) := many (nextDigit isDigit) rest
  return (first :: more, rest)

def ofDigits (base : Nat) (ds : List Char) : Nat :=
  ds.foldl (fun n c => base * n + (hexValue? c).getD 0) 0

/-- Take a sign, if there is one; the result tells whether it is a minus. -/
def sign : List Char → Bool × List Char
  | '+' :: rest => (false, rest)
  | '-' :: rest => (true, rest)
  | text => (false, text)

/-- Take the digits of a decimal number, which has no leading zeros. -/
def decimalDigits : Scanner (List Char)
  | '0' :: rest => some (['0'], rest)
  | text => digits Char.isDigit text

def fraction : Scanner (List Char)
  | '.' :: rest => digits Char.isDigit rest
  | _ => none

def exponent : Scanner Int := fun text => do
  let (_, rest) ← one (fun c => c = 'e' || c = 'E') text
  let (negative, rest) := sign rest
  let (ds, rest) ← digits Char.isDigit rest
  let n : Int := ofDigits 10 ds
  return (if negative then -n else n, rest)

def real : Scanner Float := fun text => do
  let (negative, rest) := sign text
  let (whole, rest) ← decimalDigits rest
  let (part, rest) := (fraction rest).getD ([], rest)
  let (power, rest) ←
    match exponent rest with
    | some result => some result
    | none => if part.isEmpty then none else some (0, rest)
  let x := Decimal.nearest negative (ofDigits 10 (whole ++ part)) (power - part.length)
  guard (x != 1 / 0)
  return (x, rest)

def special : Scanner Float := fun text => do
  let (negative, rest) := sign text
  let (x, rest) ←
    ((literal "inf".toList rest).map fun ((), rest) => ((1 / 0 : Float), rest)) <|>
      ((literal "nan".toList rest).map fun ((), rest) => ((0 / 0 : Float), rest))
  return (if negative then -x else x, rest)

def prefixed : Scanner Int
  | '0' :: 'x' :: rest => (digits (fun c => (hexValue? c).isSome) rest).map fun (ds, rest) =>
      (ofDigits 16 ds, rest)
  | '0' :: 'o' :: rest => (digits (fun c => '0' ≤ c && c ≤ '7') rest).map fun (ds, rest) =>
      (ofDigits 8 ds, rest)
  | '0' :: 'b' :: rest => (digits (fun c => c = '0' || c = '1') rest).map fun (ds, rest) =>
      (ofDigits 2 ds, rest)
  | _ => none

def integer : Scanner Int := fun text => do
  let (n, rest) ←
    prefixed text <|> do
      let (negative, rest) := sign text
      let (ds, rest) ← decimalDigits rest
      let n : Int := ofDigits 10 ds
      some (if negative then -n else n, rest)
  guard (Int64.minValue.toInt ≤ n ∧ n ≤ Int64.maxValue.toInt)
  return (n, rest)

end Starfield.Toml
