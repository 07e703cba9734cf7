import Starfield.Settings
import Starfield.Toml.Document

/-!
# Plans

A plan holds the settings and the layout of a tree as a document states them.
The document has a table for each; both tables and every key in them may be
missing, but unknown ones are refused.  A table may also be given as an array,
whose items then stand for the keys in order.
-/

namespace Starfield

structure Plan where
  settings : Settings := {}
  layout : Layout := {}
deriving DecidableEq

inductive PlanFault where
  /-- The text is no document, or the document has other keys or values than a
  plan. -/
  | document
  /-- A share of the buffer is not a fraction between zero and one. -/
  | share (name : String) (found : Share)
  /-- The settings or the layout cannot describe a tree. -/
  | fault (why : Fault)
deriving DecidableEq

namespace Toml

def Value.natBelow? (bound : Nat) : Value → Option Nat
  | .integer n => if 0 ≤ n ∧ n < bound then some n.toNat else none
  | _ => none

def Value.float? : Value → Option Float
  | .integer n => some n.toInt64.toFloat
  | .real x => some x
  | _ => none

/-- A number in single precision.  A whole number is rounded only once. -/
def Value.float32? : Value → Option Float32
  | .integer n => some n.toInt64.toFloat32
  | .real x => some x.toFloat32
  | _ => none

/-- A numerator and a denominator, in an array that may go on after them. -/
def Value.share? : Value → Option Share
  | .array (numerator :: denominator :: _) => do
    return ⟨← numerator.natBelow? (1 <<< 32), ← denominator.natBelow? (1 <<< 32)⟩
  | _ => none

/-- A record with the given keys, each of which sets a part of it. -/
def Value.record? {α : Type} (keys : List (String × (α → Value → Option α))) (start : α) :
    Value → Option α
  | .table _ entries =>
    entries.foldlM (fun record (key, value) => do
      let set ← keys.lookup key
      set record value) start
  | .array items =>
    (keys.zip items).foldlM (fun record ((_, set), value) => set record value) start
  | _ => none

end Toml

def Settings.keys : List (String × (Settings → Toml.Value → Option Settings)) :=
  [("max_dist", fun s value => value.float32?.map fun x => { s with reach := x }),
    ("max_stars_per_node",
      fun s value => (value.natBelow? (1 <<< 32)).map fun n => { s with starsPerCell := n }),
    ("first_lod_depth",
      fun s value => (value.natBelow? (1 <<< 32)).map fun n => { s with firstSampleDepth := n }),
    ("min_total_pixels_lod",
      fun s value => value.float32?.map fun x => { s with samplePixels := x }),
    ("max_depth",
      fun s value => (value.natBelow? (1 <<< 32)).map fun n => { s with depthLimit := n }),
    ("world_scale", fun s value => value.float?.map fun x => { s with worldScale := x }),
    ("rebuild_high_water", fun s value =>
      value.share?.map fun share =>
        { s with compaction := { s.compaction with highWater := share } }),
    ("rebuild_free", fun s value =>
      value.share?.map fun share => { s with compaction := { s.compaction with free := share } })]

def Layout.keys : List (String × (Layout → Toml.Value → Option Layout)) :=
  [("pos_size", fun l value => (value.natBelow? (1 <<< 63)).map fun n => { l with position := n }),
    ("col_size", fun l value => (value.natBelow? (1 <<< 63)).map fun n => { l with color := n }),
    ("vel_size", fun l value => (value.natBelow? (1 <<< 63)).map fun n => { l with motion := n })]

namespace Plan

def keys : List (String × (Plan → Toml.Value → Option Plan)) :=
  [("octree", fun plan value =>
      (value.record? Settings.keys {}).map fun settings => { plan with settings }),
    ("layout", fun plan value =>
      (value.record? Layout.keys {}).map fun layout => { plan with layout })]

/-- The plan that a text states, before its values are checked. -/
def ofText? (text : String) : Option Plan := do
  let entries ← Toml.read? text
  (Toml.Value.table .header entries).record? keys {}

/-- A plan can be used when both shares of the buffer are proper and its
settings and its layout can describe a tree, which is checked in this order. -/
def validate (plan : Plan) : Except PlanFault Unit := do
  let rule := plan.settings.compaction
  if !rule.highWater.isProper then
    throw (.share "rebuild_high_water" rule.highWater)
  if !rule.free.isProper then
    throw (.share "rebuild_free" rule.free)
  plan.settings.validate.mapError .fault
  plan.layout.validate.mapError .fault

/-- The plan that a text states as the parser understands it, once it has been
found to be of use. -/
def parse (parser : String → Option Plan) (text : String) : Except PlanFault Plan :=
  match parser text with
  | none => .error .document
  | some plan => do
    plan.validate
    return plan

end Plan

end Starfield
