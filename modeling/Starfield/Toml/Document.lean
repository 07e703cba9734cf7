import Starfield.Toml.Moment
import Starfield.Toml.Value

/-!
# Documents

A document consists of lines that set keys and of headers that open tables.
Reading one has two parts: the text is scanned into statements, and the
statements are carried out one after the other.
-/

namespace Starfield.Toml

/-- Arrays and inline tables may be nested this deep, and no dotted key may
have more parts. -/
def nestingLimit : Nat := 79

/-- A dotted key: the tables it goes through and its last part. -/
structure Key where
  path : List String
  last : String

def keyPart : Scanner String := fun text => do
  let text := skipBlanks text
  let (part, rest) ←
    quotedLine text <|> do
      let bare := text.takeWhile fun c => c.isAlphanum || c = '_' || c = '-'
      guard !bare.isEmpty
      some (String.ofList bare, text.drop bare.length)
  return (part, skipBlanks rest)

def key : Scanner Key := fun text => do
  let (first, rest) ← keyPart text
  let (more, rest) := many (fun text => do
    let ((), rest) ← literal ['.'] text
    keyPart rest) rest
  guard (more.length < nestingLimit)
  return (⟨(first :: more).dropLast, more.getLastD first⟩, rest)

def arrayOf (value : Scanner Value) : Scanner Value := fun text => do
  let item : Scanner Value := fun text => do
    let (value, rest) ← value (skipGaps text)
    return (value, skipGaps rest)
  let (items, rest) ←
    match item text with
    | none => some ([], skipGaps text)
    | some (first, rest) =>
      let (more, rest) := many (fun text => do
        let ((), rest) ← literal [','] text
        item rest) rest
      let rest := ((literal [','] rest).map Prod.snd).getD rest
      some (first :: more, skipGaps rest)
  let ((), rest) ← literal [']'] rest
  return (.array items, rest)

def pair (value : Scanner Value) : Scanner (Key × Value) := fun text => do
  let (key, rest) ← key text
  let ((), rest) ← literal ['='] rest
  let (value, rest) ← value (skipBlanks rest)
  return ((key, value), skipBlanks rest)

def tableOf (value : Scanner Value) : Scanner Value := fun text => do
  let (pairs, rest) ←
    match pair value text with
    | none => some ([], skipBlanks text)
    | some (first, rest) =>
      let (more, rest) := many (fun text => do
        let ((), rest) ← literal [','] text
        pair value rest) rest
      some (first :: more, rest)
  let ((), rest) ← literal ['}'] rest
  let entries ← pairs.foldlM (fun (entries : Entries) (key, value) =>
    entries.assign key.path key.last value) []
  return (.table .inlined entries, rest)

def value : (levels : Nat) → Scanner Value
  | levels, text =>
    match text with
    | [] => none
    | c :: rest =>
      if c = '\x22' ∨ c = '\x27' then (quoted text).map fun (s, rest) => (.text s, rest)
      else if c = '[' then
        match levels with
        | 0 => none
        | levels + 1 => arrayOf (value levels) rest
      else if c = '{' then
        match levels with
        | 0 => none
        | levels + 1 => tableOf (value levels) rest
      else
        ((literal "true".toList text).map fun ((), rest) => (.boolean true, rest)) <|>
        ((literal "false".toList text).map fun ((), rest) => (.boolean false, rest)) <|>
        ((moment text).map fun ((), rest) => (.moment, rest)) <|>
        ((real text).map fun (x, rest) => (.real x, rest)) <|>
        ((special text).map fun (x, rest) => (.real x, rest)) <|>
        ((integer text).map fun (n, rest) => (.integer n, rest))

inductive Statement where
  | blank
  | set (key : Key) (value : Value)
  | table (key : Key)
  | row (key : Key)

def statement : Scanner Statement := fun text => do
  let (statement, rest) ←
    match skipBlanks text with
    | '[' :: '[' :: rest => do
      let (key, rest) ← key rest
      let ((), rest) ← literal [']', ']'] rest
      some (Statement.row key, rest)
    | '[' :: rest => do
      let (key, rest) ← key rest
      let ((), rest) ← literal [']'] rest
      some (Statement.table key, rest)
    | text =>
      match pair (value nestingLimit) text with
      | some ((key, value), rest) => some (Statement.set key value, rest)
      | none => some (Statement.blank, text)
  let ((), rest) ← lineEnd rest
  return (statement, rest)

/-- A document being read: the header last seen, and the entries so far. -/
structure Draft where
  header : List String := []
  entries : Entries := []

/-- Carry out a statement; it is refused when it sets or opens something
twice. -/
def Draft.apply (draft : Draft) : Statement → Option Draft
  | .blank => some draft
  | .set key value =>
    (draft.entries.within draft.header fun inner => inner.assign key.path key.last value).map
      fun entries => { draft with entries }
  | .table key =>
    (draft.entries.openTable key.path key.last).map fun entries =>
      ⟨key.path ++ [key.last], entries⟩
  | .row key =>
    (draft.entries.openRow key.path key.last).map fun entries =>
      ⟨key.path ++ [key.last], entries⟩

/-- The entries of a document, if the text is one.  A byte order mark at its
beginning does not count. -/
def read? (text : String) : Option Entries := do
  let text :=
    match text.toList with
    | '\ufeff' :: rest => rest
    | text => text
  let (statements, rest) := many statement text
  guard rest.isEmpty
  let draft ← statements.foldlM Draft.apply {}
  return draft.entries

end Starfield.Toml
