import Starfield.Toml.Number

/-!
# Dates and times

A moment is a date, a time of day, or both with an optional distance from
universal time.  Nothing is ever computed with moments, so a scanner only makes
sure that one is written properly.
-/

namespace Starfield.Toml

/-- Take a number of exactly the stated count of digits, within bounds. -/
def fixed (count low high : Nat) : Scanner Nat := fun text => do
  let ds := text.take count
  guard (ds.length = count ∧ ds.all Char.isDigit)
  let n := ofDigits 10 ds
  guard (low ≤ n ∧ n ≤ high)
  return (n, text.drop count)

def daysIn (year month : Nat) : Nat :=
  if month = 2 then
    if year % 4 = 0 ∧ (year % 100 ≠ 0 ∨ year % 400 = 0) then 29 else 28
  else if month = 4 ∨ month = 6 ∨ month = 9 ∨ month = 11 then 30
  else 31

def date : Scanner Unit := fun text => do
  let (year, rest) ← fixed 4 0 9999 text
  let ((), rest) ← literal ['-'] rest
  let (month, rest) ← fixed 2 1 12 rest
  let ((), rest) ← literal ['-'] rest
  let (_, rest) ← fixed 2 1 (daysIn year month) rest
  return ((), rest)

def time : Scanner Unit := fun text => do
  let (_, rest) ← fixed 2 0 23 text
  let ((), rest) ← literal [':'] rest
  let (_, rest) ← fixed 2 0 59 rest
  let ((), rest) ← literal [':'] rest
  let (_, rest) ← fixed 2 0 60 rest
  match rest with
  | '.' :: c :: tail =>
    if c.isDigit then return ((), tail.dropWhile Char.isDigit) else return ((), rest)
  | _ => return ((), rest)

def zone : Scanner Unit
  | 'Z' :: rest => some ((), rest)
  | 'z' :: rest => some ((), rest)
  | text => do
    let (_, rest) ← one (fun c => c = '+' || c = '-') text
    let (_, rest) ← fixed 2 0 23 rest
    let ((), rest) ← literal [':'] rest
    let (_, rest) ← fixed 2 0 59 rest
    return ((), rest)

/-- Take the time that follows a date, with its distance from universal
time. -/
def timeOfDate : Scanner Unit := fun text => do
  let (_, rest) ← one (fun c => c = 'T' || c = 't' || c = ' ') text
  let ((), rest) ← time rest
  return ((zone rest).getD ((), rest))

def moment : Scanner Unit := fun text =>
  match date text with
  | some ((), rest) => some ((timeOfDate rest).getD ((), rest))
  | none => time text

end Starfield.Toml
