import Starfield.Proofs.Flat.Safety

/-!
# Trees in columns and where they come from

A tree in columns begins with eight empty leaves, or is read from bytes.  The
reader fills the nodes that it is given: the cube of a node is there before its
record is read, and the children of an inner node get theirs when they are made.
The values of a record are cut into columns as they are.  What comes of this is
the tree that is read in rows, with its stars in columns and with the cubes that
the paths lead to.
-/

namespace Starfield

/-- What comes of reading: a result, a fault, or neither of them when something
is not there that the program counts on. -/
abbrev Reading := Except (Option Fault)

namespace Reading

variable {α β : Type}

def ofExcept (result : Except Fault α) : Reading α := result.mapError some

def ofOption : Option α → Reading α
  | none => .error none
  | some value => .ok value

section

variable {γ δ : Type} {r : β → δ} {rest : α → Except Fault β}

/-- Reading goes on after a step as it would go on without missing parts, up to
a translation of the result. -/
theorem bind_eq {rest' : α → Reading δ}
    (h : ∀ value, rest' value = ofExcept ((rest value).map r))
    (result : Except Fault α) :
    ofExcept result >>= rest' = ofExcept ((result >>= rest).map r) := by
  cases result with
  | error => rfl
  | ok value => exact h value

/-- The same when what the step gives is translated as well. -/
theorem bind_map_eq {g : α → γ} {rest' : γ → Reading δ}
    (h : ∀ value, rest' (g value) = ofExcept ((rest value).map r))
    (result : Except Fault α) :
    ofExcept (result.map g) >>= rest' = ofExcept ((result >>= rest).map r) := by
  cases result with
  | error => rfl
  | ok value => exact h value

/-- Reading goes on after a check that is made in both ways and ends in the same
fault. -/
theorem check_eq {p : Prop} [Decidable p] {fails fallback : Except Fault α}
    {fails' fallback' : Reading β} {r : α → β}
    (hfails : fails' = ofExcept (fails.map r))
    (h : ¬p → fallback' = ofExcept (fallback.map r)) :
    (if p then fails' else fallback') =
      ofExcept ((if p then fails else fallback).map r) := by
  split
  · exact hfails
  · exact h ‹_›

end

end Reading

namespace Columns

/-- The columns of so many stars, cut out of values attribute by attribute. -/
def cut? (layout : Layout) (stars : Nat) (values : List Value) :
    Option Columns := do
  let colors := stars * layout.position
  let motions := colors + stars * layout.color
  return {
    positions := ← slice? values 0 colors
    colors := ← slice? values colors motions
    motions := ← slice? values motions values.length }

end Columns

def Census.withStars (census : Census) (stars : Nat) : Census :=
  { census with stars }

namespace FlatCell

/-- Read what a record says about its own node. -/
def read (layout : Layout) (capacity depth : Nat) (cell : FlatCell)
    (bytes : Bytes) : Reading ((Bool × FlatCell) × Bytes) := do
  let (isLeaf, bytes) ← .ofExcept (Archive.takeLeafMark depth bytes)
  let (count, bytes) ← .ofExcept (Archive.takeNumber bytes)
  let (size, bytes) ← .ofExcept (Archive.takeNumber bytes)
  if count < 0 ∨ size < 0 then
    throw (some (.corrupt (.negativeSize depth count size)))
  let (count, size) := (count.toNat, size.toNat)
  if layout.width = 0 then
    throw none
  let stars := size / layout.width
  if size % layout.width ≠ 0 ∨ capacity < stars then
    throw (some (.corrupt (.payloadSize size depth capacity layout.width)))
  if isLeaf ∧ stars ≠ count then
    throw (some (.corrupt (.starCount depth count stars)))
  let (values, bytes) ← .ofExcept (Archive.takeValues depth size bytes)
  let columns ← .ofOption (Columns.cut? layout stars values)
  return ((isLeaf, { cell with count, columns }), bytes)

end FlatCell

namespace FlatNode

def cell : FlatNode → FlatCell
  | leaf cell => cell
  | inner cell _ => cell

/-- Read the records of a subtree into an empty node at the given depth. -/
def read (settings : Settings) (layout : Layout) :
    (levels depth : Nat) → FlatCell → Bytes → Reading (FlatNode × Bytes)
  | levels, depth, cell, bytes => do
    let ((isLeaf, cell), bytes) ←
      cell.read layout settings.starsPerCell depth bytes
    if isLeaf then return (.leaf cell, bytes)
    match levels with
    | 0 => throw (some (.corrupt (.depthLimit depth settings.depthLimit)))
    | levels + 1 =>
      let (children, bytes) ←
        Octet.thread?
          (fun o => read settings layout levels (depth + 1)
            { cube := cell.cube.child o }) bytes
      return (.inner cell children.get, bytes)

/-- The figures with the nodes of a subtree counted, but not its stars. -/
def tally : (depth : Nat) → FlatNode → Census → Census
  | depth, leaf cell, census =>
    { census with
      leaves := census.leaves + 1
      depth :=
        if 0 < cell.count then max census.depth depth else census.depth }
  | depth, inner _ children, census =>
    Octant.all.foldl (fun census o => (children o).tally (depth + 1) census)
      { census with inner := census.inner + 1, splits := census.splits + 1 }

end FlatNode

namespace FlatTree

def create (settings : Settings) (layout : Layout) : Except Fault FlatTree := do
  settings.validate
  layout.validate
  let cube := (Place.domain settings.reach).cube
  return {
    settings
    layout
    cube
    octants := fun o => .leaf { cube := cube.child o }
    slots := {}
    census := .empty
    log := {} }

/-- The figures with the nodes below an octant counted, and the stars that the
octant says it has. -/
def tallyOctant (tree : FlatTree) (census : Census) (o : Octant) : Census :=
  let census := (tree.octants o).tally 1 census
  census.withStars (census.stars + (tree.octants o).cell.count)

def recount (tree : FlatTree) : Census :=
  Octant.all.foldl tree.tallyOctant {}

def decode (settings : Settings) (layout : Layout) (bytes : Bytes) :
    Reading FlatTree := do
  let (width, bytes) ← .ofExcept (Archive.takeNumber bytes)
  if width ≠ layout.signedWidth then
    throw (some (.widthMismatch layout.width width))
  let (capacity, bytes) ← .ofExcept (Archive.takeNumber bytes)
  if capacity ≤ 0 then
    throw (some (.corrupt (.capacity capacity)))
  let tree ← .ofExcept
    (create { settings with starsPerCell := capacity.toNat } layout)
  let (octants, _) ←
    Octet.thread?
      (fun o => FlatNode.read tree.settings layout (settings.depthLimit - 1) 1
        (tree.octants o).cell) bytes
  let tree := { tree with octants := octants.get }
  return { tree with census := tree.recount }

end FlatTree

/-! ## Columns -/

theorem slice?_append {α : Type} {before here : List α} (behind : List α)
    {start stop : Nat} (hstart : start = before.length)
    (hstop : stop = before.length + here.length) :
    slice? (before ++ here ++ behind) start stop = some here := by
  subst start stop
  rw [slice?_of_le (Nat.le_add_right _ _), ← List.length_append, List.take_left,
    List.drop_left]
  rw [List.length_append, List.length_append]
  exact Nat.le_add_right _ _

/-- Values that are as many as whole stars need are cut into the columns of the
stars that are gathered from them. -/
theorem Columns.cut?_eq {layout : Layout} {stars : Nat} {values : List Value}
    (hvalues : values.length = stars * layout.width) :
    cut? layout stars values =
      some (ofStars layout (Archive.gather layout stars values)) := by
  obtain ⟨hscatter, hsize, hwhole⟩ := Archive.scatter_gather hvalues
  let columns := ofStars layout (Archive.gather layout stars values)
  obtain ⟨hpositions, hcolors, -⟩ := length_ofStars hwhole
  rw [hsize] at hpositions hcolors
  have hall : columns.positions ++ columns.colors ++ columns.motions =
      values := hscatter
  have hmiddle : slice? values (stars * layout.position)
      (stars * layout.position + stars * layout.color) =
        some columns.colors := by
    rw [← hall]
    exact slice?_append _ hpositions.symm (by rw [hpositions, hcolors])
  have hfront : slice? values 0 (stars * layout.position) =
      some columns.positions := by
    rw [← hall, List.append_assoc]
    exact @slice?_append _ [] _ _ _ _ rfl
      (hpositions.symm.trans (Nat.zero_add _).symm)
  have hback : slice? values
      (stars * layout.position + stars * layout.color) values.length =
        some columns.motions := by
    rw [← hall, ← List.append_nil (_ ++ _ ++ _)]
    refine slice?_append _ ?_ ?_
    · rw [List.length_append, hpositions, hcolors]
    · rw [List.append_nil, List.length_append]
  rw [cut?, hfront, hmiddle, hback]
  rfl

/-! ## Nodes -/

/-- When each step of a threaded family gives what another one gives, translated,
so does the family. -/
theorem Octet.thread?_map {σ β γ : Type} (g : Octant → β → γ)
    {f : Octant → σ → Except Fault (β × σ)}
    {f' : Octant → σ → Reading (γ × σ)}
    (h : ∀ o s, f' o s = Reading.ofExcept ((f o s).map (Prod.map (g o) id)))
    (s : σ) :
    thread? f' s =
      Reading.ofExcept ((thread? f s).map
        (Prod.map (fun family => ofFamily fun o => g o (family.get o)) id)) := by
  simp only [thread?, h]
  iterate 8 refine Reading.bind_map_eq (fun _ => ?_) _
  rfl

section

variable {settings : Settings} {layout : Layout} {depth : Nat}

theorem FlatCell.read_eq (hwidth : 0 < layout.width) (capacity : Nat)
    (cube : Cube) (bytes : Bytes) :
    FlatCell.read layout capacity depth { cube } bytes =
      Reading.ofExcept ((Archive.takeCell layout capacity depth bytes).map
        (Prod.map (Prod.map id (Cell.flat layout cube)) id)) := by
  rw [read, Archive.takeCell]
  refine Reading.bind_eq ?_ _
  rintro ⟨isLeaf, bytes⟩
  refine Reading.bind_eq ?_ _
  rintro ⟨count, bytes⟩
  refine Reading.bind_eq ?_ _
  rintro ⟨size, bytes⟩
  refine Reading.check_eq rfl fun _ => ?_
  rw [if_neg (Nat.ne_of_gt hwidth)]
  refine Reading.check_eq rfl fun hsize => ?_
  refine Reading.check_eq rfl fun _ => ?_
  cases htaken : Archive.takeValues depth size.toNat bytes with
  | error => rfl
  | ok taken =>
      have hlength := (Archive.takeValues_eq_ok_iff.mp htaken).1
      have hwhole : size.toNat % layout.width = 0 :=
        Decidable.not_not.mp (not_or.mp hsize).1
      have hcut := Columns.cut?_eq (hlength.trans
        (Nat.div_mul_cancel (Nat.dvd_of_mod_eq_zero hwhole)).symm)
      change Reading.ofOption (Columns.cut? layout _ taken.1) >>= _ = _
      rw [hcut]
      rfl

/-- Reading a subtree in columns comes to the subtree that is read in rows. -/
theorem FlatNode.read_eq (hwidth : 0 < layout.width) (levels : Nat)
    (cube : Cube) (bytes : Bytes) :
    FlatNode.read settings layout levels depth { cube } bytes =
      Reading.ofExcept ((Archive.takeNode settings layout levels depth
        bytes).map (Prod.map (Node.flat layout cube) id)) := by
  induction levels generalizing depth cube bytes with
  | zero =>
      rw [read, Archive.takeNode, FlatCell.read_eq hwidth]
      refine Reading.bind_map_eq ?_ _
      rintro ⟨⟨isLeaf, cell⟩, bytes⟩
      cases isLeaf <;> rfl
  | succ levels ih =>
      rw [read, Archive.takeNode, FlatCell.read_eq hwidth]
      refine Reading.bind_map_eq ?_ _
      rintro ⟨⟨isLeaf, cell⟩, bytes⟩
      cases isLeaf with
      | true => rfl
      | false =>
          have hchildren : Octet.thread? (fun o => read settings layout levels
              (depth + 1) { cube := cube.child o }) bytes = _ :=
            Octet.thread?_map (fun o => Node.flat layout (cube.child o))
              (fun o bytes => ih (cube.child o) bytes) bytes
          refine (congrArg (· >>= _) hchildren).trans ?_
          refine Reading.bind_map_eq ?_ _
          rintro ⟨children, bytes⟩
          simp only [Prod.map, id, Octet.get_ofFamily]
          rfl

/-! ## Figures -/

/-- Stars are counted apart from everything else. -/
theorem Census.foldl_add_withStars (entries : List Entry) (census : Census)
    (stars : Nat) :
    entries.foldl add (census.withStars stars) =
      (entries.foldl add census).withStars stars := by
  induction entries generalizing census with
  | nil => rfl
  | cons entry entries ih =>
      have hadd : (census.withStars stars).add entry =
          (census.add entry).withStars stars := by
        cases hleaf : entry.isLeaf <;> simp only [add, hleaf] <;> rfl
      rw [List.foldl_cons, hadd, ih, List.foldl_cons]

theorem Census.stars_foldl_add (entries : List Entry) (census : Census) :
    (entries.foldl add census).stars = census.stars := by
  have hstars : entries.foldl add census =
      (entries.foldl add census).withStars census.stars :=
    foldl_add_withStars entries census census.stars
  rw [hstars]
  rfl

theorem FlatNode.cell_flat (node : Node) (cube : Cube) :
    (node.flat layout cube).cell = node.cell.flat layout cube := by
  cases node <;> rfl

theorem FlatNode.tally_flat (node : Node) (path : List Octant) (place : Place)
    (census : Census) :
    (node.flat layout place.cube).tally place.depth census =
      (node.listing path place).foldl Census.add census := by
  induction node generalizing path place census with
  | leaf cell =>
      rw [Node.flat, tally, Node.listing, List.foldl_cons, List.foldl_nil,
        Census.add, Cell.count_flat]
      simp only [if_true, Nat.pos_iff_ne_zero, ite_not]
  | inner cell children ih =>
      rw [Node.listing, List.foldl_cons, List.foldl_flatMap]
      simp only [← ih]
      rfl

end

namespace Tree

theorem recount_flat (tree : Tree) : tree.flat.recount = tree.recount := by
  let listing (o : Octant) : List Entry :=
    (tree.octants o).listing [o] (tree.domain.child o)
  let count (stars : Nat) (o : Octant) : Nat :=
    stars + (tree.octants o).cell.count
  have htally : ∀ o census, (tree.flat.octants o).tally 1 census =
      (listing o).foldl Census.add census := fun o census =>
    FlatNode.tally_flat (tree.octants o) [o] (tree.domain.child o) census
  have hcount : ∀ o, (tree.flat.octants o).cell.count =
      (tree.octants o).cell.count := fun o =>
    congrArg FlatCell.count
      (FlatNode.cell_flat (tree.octants o) (tree.domain.cube.child o))
  have hoctants : ∀ (os : List Octant) (census : Census),
      os.foldl tree.flat.tallyOctant census =
        ((os.flatMap listing).foldl Census.add census).withStars
          (os.foldl count census.stars) := by
    intro os
    induction os with
    | nil => exact fun _ => rfl
    | cons o os ih =>
        intro census
        have hstep : tree.flat.tallyOctant census o =
            ((listing o).foldl Census.add census).withStars
              (count census.stars o) := by
          rw [FlatTree.tallyOctant, htally, hcount]
          exact congrArg (fun stars => Census.withStars _ (stars + _))
            (Census.stars_foldl_add (listing o) census)
        rw [List.foldl_cons, hstep, ih, List.flatMap_cons, List.foldl_append,
          Census.foldl_add_withStars]
        rfl
  exact hoctants Octant.all {}

theorem flat_recount (tree : Tree) :
    { tree with census := tree.recount }.flat =
      { tree.flat with census := tree.flat.recount } := by
  rw [recount_flat]
  rfl

theorem flat_withOctants (tree : Tree) (octants : Octet Node) :
    (tree.withOctants octants).flat =
      { tree.flat with
        octants := (Octet.ofFamily fun o => (octants.get o).flat tree.layout
          (tree.domain.cube.child o)).get } := by
  rw [Octet.get_ofFamily]
  rfl

/-- A tree in columns begins as the empty tree does. -/
theorem create_flat (settings : Settings) (layout : Layout) :
    FlatTree.create settings layout = (create settings layout).map flat := by
  rw [FlatTree.create, create]
  cases settings.validate with
  | error => rfl
  | ok => cases layout.validate <;> rfl

/-- What is read in columns is the tree that is read, and nothing is missing. -/
theorem decode_flat (settings : Settings) (layout : Layout) (bytes : Bytes) :
    FlatTree.decode settings layout bytes =
      Reading.ofExcept ((decode settings layout bytes).map flat) := by
  rw [FlatTree.decode, decode]
  refine Reading.bind_eq ?_ _
  rintro ⟨width, bytes⟩
  refine Reading.check_eq rfl fun _ => ?_
  refine Reading.bind_eq ?_ _
  rintro ⟨capacity, bytes⟩
  refine Reading.check_eq rfl fun _ => ?_
  rw [create_flat]
  cases hbegun : create { settings with starsPerCell := capacity.toNat }
      layout with
  | error => rfl
  | ok tree =>
      obtain ⟨hempty, hvalid⟩ := create_eq_ok hbegun
      have hcell : ∀ o, (tree.flat.octants o).cell =
          { cube := tree.domain.cube.child o } := by
        rw [hempty]
        exact fun _ => rfl
      obtain rfl : tree.layout = layout := by rw [hempty]
      have hoctants := Octet.thread?_map
        (fun o => Node.flat tree.layout (tree.domain.cube.child o))
        (fun o bytes => @FlatNode.read_eq tree.settings tree.layout 1
          hvalid.width_pos (settings.depthLimit - 1) _ bytes) bytes
      simp only [← hcell] at hoctants
      change Octet.thread? (fun o => FlatNode.read tree.settings tree.layout
        (settings.depthLimit - 1) 1 (tree.flat.octants o).cell) bytes >>= _ = _
      rw [hoctants]
      refine Reading.bind_map_eq ?_ _
      rintro ⟨octants, _⟩
      change _ = Except.ok (flat
        { tree.withOctants octants with
          census := (tree.withOctants octants).recount })
      rw [flat_recount, flat_withOctants]
      rfl

end Tree

inductive FlatTree.Fresh : FlatTree → Prop
  | created {settings : Settings} {layout : Layout} {tree : FlatTree}
      (h : create settings layout = .ok tree) : Fresh tree
  | decoded {settings : Settings} {layout : Layout} {bytes : Bytes}
      {tree : FlatTree} (h : decode settings layout bytes = .ok tree) :
      Fresh tree

/-- They are those that a session in rows can begin with. -/
theorem FlatTree.Fresh.exists_flat {tree : FlatTree} (h : tree.Fresh) :
    ∃ start : Tree, start.Fresh ∧ start.flat = tree := by
  cases h with
  | @created settings layout _ h =>
      rw [Tree.create_flat] at h
      cases hcreate : Tree.create settings layout with
      | error => rw [hcreate] at h; cases h
      | ok start =>
          rw [hcreate] at h
          exact ⟨start, .created hcreate, Except.ok.inj h⟩
  | @decoded settings layout bytes _ h =>
      rw [Tree.decode_flat] at h
      cases hdecode : Tree.decode settings layout bytes with
      | error => rw [hdecode] at h; cases h
      | ok start =>
          rw [hdecode] at h
          exact ⟨start, .decoded hdecode, Except.ok.inj h⟩

end Starfield
