import Starfield.Job
import Starfield.Tree.Outline

/-!
# The command line

A command line names one of the jobs and gives its switches.  A switch has a
long name and some have a letter as well; letters may be joined behind one
dash, and a value may be a word of its own or be attached.  No switch may be
given twice to the same command.
-/

namespace Starfield

inductive Takes where
  | nothing
  | name
  | count
deriving DecidableEq

structure Switch where
  name : String
  letter : Option Char := none
  takes : Takes := .nothing
deriving DecidableEq

/-- The switches given to a command, by name, with their values. -/
abbrev Given := List (String × String)

/-- Why a command line does not lead to a job. -/
inductive Refusal where
  | help
  | usage
deriving DecidableEq

/-- The number that a word states, if it is a whole number of at most
thirty-two bits; a sign is allowed. -/
def count? (word : String) : Option Nat := do
  let (negative, digits) :=
    match word.toList with
    | '+' :: digits => (false, digits)
    | '-' :: digits => (true, digits)
    | digits => (false, digits)
  guard (!digits.isEmpty && digits.all Char.isDigit)
  let n := digits.foldl (fun n c => 10 * n + (c.toNat - '0'.toNat)) 0
  guard (n < 1 <<< 32 ∧ (negative → n = 0))
  return n

def Takes.accepts : Takes → String → Bool
  | .nothing, word => word = ""
  | .name, word => word ≠ ""
  | .count, word => (count? word).isSome

/-- Whether a word can follow a switch as its value rather than being a switch
itself. -/
def isPlain (word : String) : Bool := !word.startsWith "-" || word = "-"

namespace Switch

def note (switch : Switch) (value : String) (given : Given) : Except Refusal Given :=
  if (given.lookup switch.name).isSome ∨ !switch.takes.accepts value then .error .usage
  else .ok ((switch.name, value) :: given)

/-- Read the letters behind a dash.  The result may be a switch whose value is
still to come. -/
def readLetters (switches : List Switch) :
    List Char → Given → Except Refusal (Given × Option Switch)
  | [], given => .ok (given, none)
  | c :: rest, given =>
    match switches.find? fun switch => switch.letter = some c with
    | none => .error (if c = 'h' then .help else .usage)
    | some switch =>
      if switch.takes = .nothing then do
        readLetters switches rest (← switch.note "" given)
      else
        match rest with
        | [] => .ok (given, some switch)
        | '=' :: value => (switch.note (String.ofList value) given).map (·, none)
        | value => (switch.note (String.ofList value) given).map (·, none)

/-- Read a long name with the value attached to it, if there is one.  The
result may be a switch whose value is still to come. -/
def readName (switches : List Switch) (word : List Char) (given : Given) :
    Except Refusal (Given × Option Switch) :=
  let name := String.ofList (word.takeWhile (· ≠ '='))
  let attached : Option String :=
    match word.dropWhile (· ≠ '=') with
    | [] => none
    | _ :: value => some (String.ofList value)
  match switches.find? fun switch => switch.name = name with
  | none => .error (if name = "help" ∧ attached = none then .help else .usage)
  | some switch =>
    match switch.takes, attached with
    | .nothing, none => (switch.note "" given).map (·, none)
    | .nothing, some _ => .error .usage
    | _, some value => (switch.note value given).map (·, none)
    | _, none => .ok (given, some switch)

/-- Read the switches at the front of the words.  The result holds the words
from the first one on that is no switch; after a double dash there may be no
more words. -/
def readWords (switches : List Switch) : List String → Given → Except Refusal (Given × List String)
  | [], given => .ok (given, [])
  | word :: rest, given =>
    match word.toList with
    | ['-', '-'] => if rest.isEmpty then .ok (given, []) else .error .usage
    | '-' :: c :: cs =>
      match
        if c = '-' then readName switches cs given else readLetters switches (c :: cs) given with
      | .error refusal => .error refusal
      | .ok (given, none) => readWords switches rest given
      | .ok (given, some switch) =>
        match rest with
        | [] => .error .usage
        | value :: rest =>
          if isPlain value then
            match switch.note value given with
            | .error refusal => .error refusal
            | .ok given => readWords switches rest given
          else .error .usage
    | _ => .ok (given, word :: rest)

end Switch

inductive Command where
  | build (order : BuildOrder)
  | inspect (input : String) (plan : Option String) (outline : Bool)
deriving DecidableEq

namespace Command

/-- The switch that asks for more messages; every command has it. -/
def verbose : Switch := { name := "verbose", letter := 'v' }

def input : Switch := { name := "input", letter := 'i', takes := .name }

def output : Switch := { name := "output", letter := 'o', takes := .name }

def config : Switch := { name := "config", letter := 'c', takes := .name }

/-- The switch that overrides how many stars a cell may hold. -/
def maxStars : Switch := { name := "max-stars", takes := .count }

def tree : Switch := { name := "tree" }

/-- Read the switches of a command, which takes nothing else. -/
def readSwitches (switches : List Switch) (words : List String) : Except Refusal Given := do
  let (given, rest) ← Switch.readWords (verbose :: switches) words []
  if rest.isEmpty then return given else throw .usage

def required (switch : Switch) (given : Given) : Except Refusal String :=
  match given.lookup switch.name with
  | none => .error .usage
  | some value => .ok value

def read (words : List String) : Except Refusal Command := do
  let (_, rest) ← Switch.readWords [verbose] words []
  match rest with
  | "build" :: words =>
    let given ← readSwitches [input, output, config, maxStars] words
    return .build {
      input := ← required input given
      output := ← required output given
      plan := given.lookup config.name
      starsPerCell := given.lookup maxStars.name >>= count? }
  | "inspect" :: words =>
    let given ← readSwitches [input, config, tree] words
    return .inspect (← required input given) (given.lookup config.name)
      (given.lookup tree.name).isSome
  | ["help"] => throw .help
  | ["help", topic] =>
    throw (if topic = "build" ∨ topic = "inspect" ∨ topic = "help" then .help else .usage)
  | _ => throw .usage

def inputs : Command → List String
  | .build order => order.input :: order.plan.toList
  | .inspect input plan _ => input :: plan.toList

end Command

/-- What a run of the program leaves behind. -/
structure Outcome where
  /-- The exit status: 0 for success, 1 for a failed job, 2 for a command line
  that cannot be understood. -/
  status : Nat
  output : String := ""
  complaint : String := ""
  files : Files

def usage : String :=
  "usage: build --input FILE --output FILE [--config FILE] [--max-stars N]\n" ++
    "       inspect --input FILE [--config FILE] [--tree]\n"

/-- The message of a failed job: the outermost text, and then the texts below
it. -/
def Failure.report (failure : Failure) : String :=
  match failure.messages with
  | [] => "Error\n"
  | first :: [] => "Error: " ++ first ++ "\n"
  | first :: more =>
    "Error: " ++ first ++ "\n\nCaused by:\n" ++
      String.join (more.map fun message => "    " ++ message ++ "\n")

def BuildReport.text (report : BuildReport) (output : String) : String :=
  s!"Wrote {report.inserted} stars in {report.census.nodes} nodes " ++
    s!"(depth {report.census.depth}) to {output}\n" ++
    (if report.skipped = 0 then ""
      else s!"Skipped {report.skipped} stars sharing a position with a full leaf\n")

def Tree.summary (tree : Tree) (name : String) : String :=
  s!"{name}\n" ++
    s!"  stars:              {tree.census.stars}\n" ++
    s!"  max stars per node: {tree.settings.starsPerCell}\n" ++
    s!"  leaf nodes:         {tree.census.leaves}\n" ++
    s!"  inner nodes:        {tree.census.inner}\n" ++
    s!"  depth:              {tree.census.depth}\n"

def Command.run (parser : String → Option Plan) (files : Files) : Command → Outcome
  | .build order =>
    match order.run parser files with
    | (.error failure, files) => { status := 1, complaint := failure.report, files }
    | (.ok report, files) => { status := 0, output := report.text order.output, files }
  | .inspect input plan outline =>
    match Starfield.inspect parser files input plan with
    | .error failure => { status := 1, complaint := failure.report, files }
    | .ok tree =>
      { status := 0
        output := tree.summary input ++ (if outline then tree.outline else "")
        files }

def runProgram (files : Files) (words : List String) : Outcome :=
  match Command.read words with
  | .error .help => { status := 0, output := usage, files }
  | .error .usage => { status := 2, complaint := usage, files }
  | .ok command => command.run Plan.ofText? files

end Starfield
