/-!
# Scanning

A scanner takes something from the front of a text and returns it with the
rest, or refuses the text.  Repetition stops where the repeated scanner refuses
or takes nothing, so it always comes to an end.
-/

namespace Starfield.Toml

/-- Takes something from the front of a text. -/
abbrev Scanner (α : Type) := List Char → Option (α × List Char)

def many {α : Type} (item : Scanner α) (text : List Char) : List α × List Char :=
  match item text with
  | none => ([], text)
  | some (a, rest) =>
    if rest.length < text.length then
      let (more, rest) := many item rest
      (a :: more, rest)
    else ([], text)
termination_by text.length

def one (accepts : Char → Bool) : Scanner Char
  | c :: rest => if accepts c then some (c, rest) else none
  | [] => none

def literal : List Char → Scanner Unit
  | [], text => some ((), text)
  | c :: cs, d :: text => if c = d then literal cs text else none
  | _ :: _, [] => none

def isBlank (c : Char) : Bool := c = ' ' || c = '\t'

def skipBlanks (text : List Char) : List Char := text.dropWhile isBlank

def isPrintable (c : Char) : Bool :=
  c = '\t' || (0x20 ≤ c.toNat && c.toNat ≠ 0x7f)

/-- Take the end of a line: a line feed, with or without a carriage return
before it. -/
def newline : Scanner Unit
  | '\n' :: rest => some ((), rest)
  | '\r' :: '\n' :: rest => some ((), rest)
  | _ => none

def skipComment : List Char → List Char
  | '#' :: rest => rest.dropWhile isPrintable
  | text => text

/-- Take what may follow at the end of a line: blanks, a comment, and then the
end of the line or of the text. -/
def lineEnd : Scanner Unit := fun text =>
  match skipComment (skipBlanks text) with
  | [] => some ((), [])
  | rest => newline rest

/-- One piece of what may stand between the items of an array: a blank, the end
of a line, or a comment with the end of its line. -/
def gap : Scanner Unit
  | '#' :: rest => newline (rest.dropWhile isPrintable)
  | text => ((one isBlank text).map fun (_, rest) => ((), rest)) <|> newline text

def skipGaps (text : List Char) : List Char := (many gap text).2

end Starfield.Toml
