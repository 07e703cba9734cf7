/-!
# Values and tables

A document is a table of values.  A table remembers how it came into being,
because that decides what may still be added to it: a table can be written in
one place, opened by its header, opened on the way to a header below it, or
opened by dotted keys.
-/

namespace Starfield.Toml

/-- How a table came into being. -/
inductive Origin where
  /-- written in one place, between braces -/
  | inlined
  /-- opened by dotted keys -/
  | dotted
  /-- opened on the way to the header of a table below it -/
  | implied
  /-- opened by its own header -/
  | header
deriving DecidableEq

/-- A value of a document.  Moments are told apart from other values but not
kept. -/
inductive Value where
  | text (content : String)
  | integer (n : Int)
  | real (x : Float)
  | boolean (b : Bool)
  | moment
  | array (items : List Value)
  | table (origin : Origin) (entries : List (String × Value))
  | tables (rows : List (List (String × Value)))
deriving Inhabited

/-- The entries of a table, in the order in which they were opened. -/
abbrev Entries := List (String × Value)

namespace Entries

/-- Change what stands at a key; the change may be refused. -/
def alter (key : String) (change : Option Value → Option Value) : Entries → Option Entries
  | [] => (change none).map fun value => [(key, value)]
  | (k, value) :: rest =>
    if k = key then (change (some value)).map fun value => (k, value) :: rest
    else (alter key change rest).map ((k, value) :: ·)

def set (key : String) (value : Value) (entries : Entries) : Option Entries :=
  entries.alter key fun
    | none => some value
    | some _ => none

/-- Change the table that a path leads to.  Tables that are missing on the way
are opened with the given origin; a table is entered only if `enters` allows
it, and of a list of tables the last one is entered. -/
def reach (opened : Origin) (enters : Origin → Bool)
    (change : Origin → Entries → Option Entries) :
    List String → Origin → Entries → Option Entries
  | [], origin, entries => change origin entries
  | key :: path, _, entries =>
    entries.alter key fun
      | none => (reach opened enters change path opened []).map (.table opened)
      | some (.table origin inner) =>
        if enters origin then
          (reach opened enters change path origin inner).map (.table origin)
        else none
      | some (.tables rows) =>
        match rows.getLast? with
        | none => none
        | some row =>
          (reach opened enters change path .header row).map fun row =>
            .tables (rows.dropLast ++ [row])
      | some _ => none

/-- Set a dotted key.  Its tables must have been opened by dotted keys, too. -/
def assign (path : List String) (key : String) (value : Value) (entries : Entries) :
    Option Entries :=
  entries.reach .dotted (fun origin => origin = .dotted ∨ origin = .implied)
    (fun origin inner =>
      if path.isEmpty ∨ origin = .dotted then inner.set key value else none)
    path .header

def within (path : List String) (change : Entries → Option Entries) (entries : Entries) :
    Option Entries :=
  entries.reach .implied (fun origin => origin ≠ .inlined) (fun _ inner => change inner)
    path .header

/-- Open a table by its header.  It must be new, or opened so far only on the
way to another header. -/
def openTable (path : List String) (key : String) (entries : Entries) : Option Entries :=
  entries.within path fun inner =>
    inner.alter key fun
      | none => some (.table .header [])
      | some (.table .implied inner) => some (.table .header inner)
      | some _ => none

def openRow (path : List String) (key : String) (entries : Entries) : Option Entries :=
  entries.within path fun inner =>
    inner.alter key fun
      | none => some (.tables [[]])
      | some (.tables rows) => some (.tables (rows ++ [[]]))
      | some _ => none

end Entries

end Starfield.Toml
