import Starfield.Archive
import Starfield.Catalog
import Starfield.Files
import Starfield.Settings.Plan
import Starfield.Tree.Insert

/-!
# Jobs

There are two jobs: to build a tree from a catalogue and store it, and to
inspect a stored tree.  A job that fails tells what it was doing and what went
wrong; whatever it has done to the files by then stays done.
-/

namespace Starfield

/-- Work on files.  What it has done to them stays done when it fails. -/
abbrev Job (ε α : Type) := ExceptT ε (StateM Files) α

def Job.write (name : String) (bytes : Bytes) : Job StreamFault Unit := fun files =>
  match files.write name bytes with
  | .error why => (.error why, files)
  | .ok files => (.ok (), files)

/-- Store a tree.  The file is created, or emptied, before the bytes are
written. -/
def Tree.save (tree : Tree) (name : String) : Job Fault Unit :=
  ExceptT.adapt .stream do
    Job.write name []
    Job.write name tree.encode

def Tree.load (settings : Settings) (layout : Layout) (files : Files) (name : String) :
    Except Fault Tree := do
  let bytes ← (files.read name).mapError .stream
  Tree.decode settings layout bytes

/-- What a job was doing when something went wrong. -/
inductive Activity where
  | readingPlan (name : String)
  | checkingPlan (name : String)
  | openingCatalog (name : String)
  | checkingCatalog (name : String)
  | readingHeader
  | insertingStar
  | savingTree (name : String)
  | loadingTree (name : String)
deriving DecidableEq

inductive Cause where
  | fault (why : Fault)
  | stream (why : StreamFault)
  | plan (why : PlanFault)
  | catalog (why : CatalogFault)
deriving DecidableEq

/-- Why a job failed: what it was doing, from the outermost activity inwards,
and what went wrong. -/
structure Failure where
  doing : List Activity := []
  cause : Cause
deriving DecidableEq

def Activity.message : Activity → String
  | .readingPlan name => "Failed to read config file: " ++ name
  | .checkingPlan name => "Invalid config: " ++ name
  | .openingCatalog name => "Failed to open star file: " ++ name
  | .checkingCatalog name => "Unsupported star file: " ++ name
  | .readingHeader => "Raw star file is missing its header"
  | .insertingStar => "Failed to insert star"
  | .savingTree name => "Failed to write octree: " ++ name
  | .loadingTree name => "Failed to load octree: " ++ name

/-- The texts of a fault: a fault of the files below is told twice, once as a
fault of the tree and once on its own. -/
def Fault.messages (fault : Fault) : List String :=
  match fault with
  | .stream why => [fault.message, why.message]
  | _ => [fault.message]

def PlanFault.messages : PlanFault → List String
  | .document => ["Failed to parse config TOML"]
  | .share name found =>
    [s!"{name} must be a fraction in [0, 1], got {found.numerator}/{found.denominator}"]
  | .fault why => why.messages

def CatalogFault.messages : CatalogFault → List String
  | .noHeader => [Activity.readingHeader.message, StreamFault.ended.message]
  | .width stated => [s!"Raw star file declares {stated} values per star"]
  | .foreign stated expected =>
    [s!"Raw star file has {stated} values per star, layout expects {expected}"]
  | .cut found expected => [s!"Raw star file ends inside a star ({found} of {expected} bytes)"]

def Cause.messages : Cause → List String
  | .fault why => why.messages
  | .stream why => [why.message]
  | .plan why => why.messages
  | .catalog why => why.messages

/-- The texts of a failure, from the outermost activity to the cause. -/
def Failure.messages (failure : Failure) : List String :=
  failure.doing.map Activity.message ++ failure.cause.messages

namespace Plan

def load (parser : String → Option Plan) (files : Files) (name : String) :
    Except Failure Plan := do
  let bytes ← (files.read name).mapError fun why => ⟨[.readingPlan name], .stream why⟩
  match String.fromUTF8? ⟨bytes.toArray⟩ with
  | none => throw ⟨[.readingPlan name], .stream .notText⟩
  | some text => (Plan.parse parser text).mapError fun why => ⟨[.checkingPlan name], .plan why⟩

/-- The plan stated in a file, or the plan with nothing stated when no file is
named. -/
def loadOrDefault (parser : String → Option Plan) (files : Files) :
    Option String → Except Failure Plan
  | none => .ok {}
  | some name => load parser files name

end Plan

structure BuildOrder where
  input : String
  output : String
  plan : Option String := none
  /-- How many stars a cell may hold, if the plan is to be overridden. -/
  starsPerCell : Option Nat := none
deriving DecidableEq

structure BuildReport where
  inserted : Nat
  /-- The number of stars left out because they would have needed a split below
  the depth limit. -/
  skipped : Nat
  census : Census

/-- Insert stars in order and leave out those that the depth limit refuses,
counting them. -/
def Tree.insertAccepted (tree : Tree) (skipped : Nat) : List Star → Except Failure (Tree × Nat)
  | [] => .ok (tree, skipped)
  | star :: stars =>
    match tree.receive star with
    | (tree, none) => tree.insertAccepted skipped stars
    | (tree, some (.depthLimit _)) => tree.insertAccepted (skipped + 1) stars
    | (_, some fault) => .error ⟨[.insertingStar], .fault fault⟩

def Catalog.load (width : Nat) (files : Files) (name : String) : Except Failure Catalog :=
  match files.lookUp name with
  | .error why => .error ⟨[.openingCatalog name], .stream why⟩
  | .ok .directory => .error ⟨[.checkingCatalog name, .readingHeader], .stream .isDirectory⟩
  | .ok (.file bytes) =>
    (Catalog.start width { bytes }).mapError fun why => ⟨[.checkingCatalog name], .catalog why⟩

/-- Build a tree from a catalogue and store it.  A star that the depth limit
refuses is left out; any other problem ends the job. -/
def BuildOrder.run (parser : String → Option Plan) (order : BuildOrder) :
    Job Failure BuildReport := do
  let plan ← Plan.loadOrDefault parser (← get) order.plan
  let settings :=
    { plan.settings with starsPerCell := order.starsPerCell.getD plan.settings.starsPerCell }
  let catalog ← Catalog.load plan.layout.width (← get) order.input
  let tree ← (Tree.create settings plan.layout).mapError fun why => Failure.mk [] (.fault why)
  let (stars, ended) := catalog.stars
  let (tree, skipped) ← tree.insertAccepted 0 stars
  match ended with
  | some why => throw ⟨[], .catalog why⟩
  | none =>
    (tree.save order.output).adapt fun why => ⟨[.savingTree order.output], .fault why⟩
    return ⟨tree.census.stars, skipped, tree.census⟩

def inspect (parser : String → Option Plan) (files : Files) (input : String)
    (plan : Option String) : Except Failure Tree := do
  let plan ← Plan.loadOrDefault parser files plan
  (Tree.load plan.settings plan.layout files input).mapError fun why =>
    ⟨[.loadingTree input], .fault why⟩

end Starfield
