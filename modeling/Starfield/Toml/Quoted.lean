import Starfield.Toml.Scan

/-!
# Quoted text

Text stands between quotation marks, where escapes are replaced, or between
apostrophes, where every character stands for itself.  Three marks in a row
open a block that may span lines; up to two marks of its kind may stand
directly before the three that close it.
-/

namespace Starfield.Toml

def hexValue? (c : Char) : Option Nat :=
  if '0' ≤ c ∧ c ≤ '9' then some (c.toNat - '0'.toNat)
  else if 'a' ≤ c ∧ c ≤ 'f' then some (c.toNat - 'a'.toNat + 10)
  else if 'A' ≤ c ∧ c ≤ 'F' then some (c.toNat - 'A'.toNat + 10)
  else none

/-- Take a character given by the stated number of hexadecimal digits. -/
def codePoint (digits : Nat) : Scanner (List Char) := fun text => do
  let values ← (text.take digits).mapM hexValue?
  guard (values.length = digits)
  let n := values.foldl (fun n value => 16 * n + value) 0
  guard n.isValidChar
  return ([Char.ofNat n], text.drop digits)

/-- Take what follows the backslash of an escape. -/
def escape : Scanner (List Char)
  | 'b' :: rest => some (['\x08'], rest)
  | 't' :: rest => some (['\t'], rest)
  | 'n' :: rest => some (['\n'], rest)
  | 'f' :: rest => some (['\x0c'], rest)
  | 'r' :: rest => some (['\r'], rest)
  | '\x22' :: rest => some (['\x22'], rest)
  | '\x5c' :: rest => some (['\x5c'], rest)
  | 'u' :: rest => codePoint 4 rest
  | 'U' :: rest => codePoint 8 rest
  | _ => none

/-- Take a character of a quoted line, other than the mark that ends it. -/
def plain (mark : Char) : Scanner (List Char) := fun text =>
  (one (fun c => isPrintable c && c ≠ mark) text).map fun (c, rest) => ([c], rest)

def escaped : Scanner (List Char)
  | '\x5c' :: rest => escape rest
  | text => plain '\x22' text

/-- Take the parts of a line up to its closing mark. -/
def line (mark : Char) (part : Scanner (List Char)) : Scanner String := fun text => do
  let (parts, rest) := many part text
  let ((), rest) ← literal [mark] rest
  return (String.ofList parts.flatten, rest)

/-- Take a quoted line, such as may serve as a key. -/
def quotedLine : Scanner String
  | '\x22' :: rest => line '\x22' escaped rest
  | '\x27' :: rest => line '\x27' (plain '\x27') rest
  | _ => none

/-- Take the end of a line within a block. -/
def blockBreak : Scanner (List Char) := fun text =>
  (newline text).map fun ((), rest) => (['\n'], rest)

/-- Take one or two marks that do not close a block. -/
def loneMarks (mark : Char) : Scanner (List Char) := fun text =>
  let marks := text.takeWhile (· = mark)
  if marks.length = 1 ∨ marks.length = 2 then some (marks, text.drop marks.length) else none

/-- Take the end of a block: three marks, after up to two that belong to the
text. -/
def blockEnd (mark : Char) : Scanner (List Char) := fun text =>
  let marks := (text.takeWhile (· = mark)).take 5
  if marks.length < 3 then none else some (marks.drop 3, text.drop marks.length)

/-- Take a backslash at the end of a line with all blank space that follows. -/
def lineJoin : Scanner (List Char)
  | '\x5c' :: rest => do
    let ((), rest) ← newline (skipBlanks rest)
    let space : Scanner Unit := fun text =>
      ((one isBlank text).map fun (_, rest) => ((), rest)) <|> newline text
    return ([], (many space rest).2)
  | _ => none

/-- Take the parts of a block, whose first line end does not count, up to its
closing marks. -/
def block (mark : Char) (part : Scanner (List Char)) : Scanner String := fun text => do
  let text := ((newline text).map Prod.snd).getD text
  let (parts, rest) := many part text
  let (marks, rest) ← blockEnd mark rest
  return (String.ofList (parts.flatten ++ marks), rest)

def quotedBlock : Scanner String
  | '\x22' :: '\x22' :: '\x22' :: rest =>
    block '\x22'
      (fun text => loneMarks '\x22' text <|> blockBreak text <|> lineJoin text <|> escaped text) rest
  | '\x27' :: '\x27' :: '\x27' :: rest =>
    block '\x27'
      (fun text => loneMarks '\x27' text <|> blockBreak text <|> plain '\x27' text) rest
  | _ => none

def quoted : Scanner String := fun text =>
  match text with
  | '\x22' :: '\x22' :: '\x22' :: _ => quotedBlock text
  | '\x27' :: '\x27' :: '\x27' :: _ => quotedBlock text
  | _ => quotedLine text

end Starfield.Toml
