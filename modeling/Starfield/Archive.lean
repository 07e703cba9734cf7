import Starfield.Bytes
import Starfield.Rows
import Starfield.Tree

/-!
# Archives

A tree is stored as a header of two words, the width of a star and the number
of stars a cell may hold, followed by the records of its nodes in pre-order.
A record has a byte that marks leaves, the number of stars in the subtree, the
number of values that follow, and the values attribute by attribute.  Nothing
of the drawing buffer is stored.
-/

namespace Starfield

namespace Node

def record (layout : Layout) (node : Node) : Bytes :=
  let values := node.cell.values layout
  (if node.isLeaf then 1 else 0) ::
    (wordBytes node.cell.count.toUInt32 ++ wordBytes values.length.toUInt32 ++ valueBytes values)

/-- The records of a subtree, in pre-order. -/
def encode (layout : Layout) : Node → Bytes
  | leaf cell => (leaf cell).record layout
  | inner cell children =>
    (inner cell children).record layout ++
      Octant.all.flatMap fun o => (children o).encode layout

end Node

def Tree.encode (tree : Tree) : Bytes :=
  wordBytes tree.layout.width.toUInt32 ++ wordBytes tree.settings.starsPerCell.toUInt32 ++
    Octant.all.flatMap fun o => (tree.octants o).encode tree.layout

namespace Archive

def takeNumber (bytes : Bytes) : Except Fault (Int × Bytes) :=
  match takeWord? bytes with
  | none => .error (.stream .ended)
  | some (word, rest) => .ok (signed word, rest)

def takeLeafMark (depth : Nat) : Bytes → Except Fault (Bool × Bytes)
  | [] => .error (.stream .ended)
  | mark :: rest =>
    if mark = 0 then .ok (false, rest)
    else if mark = 1 then .ok (true, rest)
    else .error (.corrupt (.leafFlag mark.toNat depth))

def takeValues (depth count : Nat) (bytes : Bytes) : Except Fault (List Value × Bytes) :=
  let payload := bytes.take (4 * count)
  if payload.length < 4 * count then
    .error (.stream (.payloadEnded depth payload.length (4 * count)))
  else
    .ok ((rows 4 count payload).map fun word => ⟨wordOf word⟩, bytes.drop (4 * count))

/-- The stars whose attributes are stored one after the other. -/
def gather (layout : Layout) (stars : Nat) (values : List Value) : List Star :=
  let positions := rows layout.position stars values
  let rest := values.drop (stars * layout.position)
  let colors := rows layout.color stars rest
  let motions := rows layout.motion stars (rest.drop (stars * layout.color))
  positions.zipWith (· ++ ·) (colors.zipWith (· ++ ·) motions)

/-- Take what a record says about its own node: whether it is a leaf, and its
cell. -/
def takeCell (layout : Layout) (capacity depth : Nat) (bytes : Bytes) :
    Except Fault ((Bool × Cell) × Bytes) := do
  let (isLeaf, bytes) ← takeLeafMark depth bytes
  let (count, bytes) ← takeNumber bytes
  let (size, bytes) ← takeNumber bytes
  if count < 0 ∨ size < 0 then
    throw (.corrupt (.negativeSize depth count size))
  let (count, size) := (count.toNat, size.toNat)
  let stars := size / layout.width
  if size % layout.width ≠ 0 ∨ capacity < stars then
    throw (.corrupt (.payloadSize size depth capacity layout.width))
  if isLeaf ∧ stars ≠ count then
    throw (.corrupt (.starCount depth count stars))
  let (values, bytes) ← takeValues depth size bytes
  return ((isLeaf, { count, stars := (gather layout stars values).toArray }), bytes)

/-- Take the records of a subtree whose root sits at the given depth.  An inner
node is accepted while there are `levels` left below it. -/
def takeNode (settings : Settings) (layout : Layout) :
    (levels depth : Nat) → Bytes → Except Fault (Node × Bytes)
  | levels, depth, bytes => do
    let ((isLeaf, cell), bytes) ← takeCell layout settings.starsPerCell depth bytes
    if isLeaf then return (.leaf cell, bytes)
    match levels with
    | 0 => throw (.corrupt (.depthLimit depth settings.depthLimit))
    | levels + 1 =>
      let (children, bytes) ←
        Octet.thread? (fun _ => takeNode settings layout levels (depth + 1)) bytes
      return (.ofOctet cell children, bytes)

end Archive

/-- The width of a star as it is compared with a header: a number of sixty-four
bits with a sign. -/
def Layout.signedWidth (layout : Layout) : Int :=
  (layout.width : Int).bmod (1 <<< 64)

theorem Layout.signedWidth_of_lt {layout : Layout} (h : layout.width < 1 <<< 63) :
    layout.signedWidth = layout.width := by
  unfold signedWidth
  exact Int.bmod_eq_of_le (by omega) (by omega)

/-- The tree stored at the front of the bytes.  The number of stars a cell may
hold is taken from the bytes, everything else from the given settings. -/
def Tree.decode (settings : Settings) (layout : Layout) (bytes : Bytes) : Except Fault Tree := do
  let (width, bytes) ← Archive.takeNumber bytes
  if width ≠ layout.signedWidth then
    throw (.widthMismatch layout.width width)
  let (capacity, bytes) ← Archive.takeNumber bytes
  if capacity ≤ 0 then
    throw (.corrupt (.capacity capacity))
  let tree ← Tree.create { settings with starsPerCell := capacity.toNat } layout
  let depth := tree.domain.depth + 1
  let (octants, _) ←
    Octet.thread?
      (fun _ => Archive.takeNode tree.settings layout (settings.depthLimit - depth) depth) bytes
  let tree := tree.withOctants octants
  return { tree with census := tree.recount }

end Starfield
