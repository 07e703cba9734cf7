import Mathlib.Logic.Function.Basic
import Starfield.Proofs.Flat.Columns

/-!
# Growing in columns

This is how a star is inserted where each node has its own cube and keeps its
stars in columns.  Whether there is room for the star is found out first, by
counting how the stars of a full leaf would be split.  Then the leaf is split by
handing its stars down one by one, each cut out of the columns.  The figures of
the tree are kept up to date with every star that a leaf takes and with every
split.  There is no result when a part is missing, a width is zero or a count
does not fit into a word, and it is proved that none of this happens to regular
nodes.
-/

namespace Starfield

/-- A number that fits into a word, with one added to it. -/
def succ? (n : Nat) : Option Nat :=
  if n + 1 < 2 ^ 32 then some (n + 1) else none

theorem succ?_of_lt {n : Nat} (h : n + 1 < 2 ^ 32) : succ? n = some (n + 1) :=
  if_pos h

namespace Census

def reach (census : Census) (depth : Nat) : Census :=
  { census with depth := max census.depth depth }

def splitLeaf (census : Census) : Census :=
  { census with
    leaves := census.leaves + 7
    inner := census.inner + 1
    splits := census.splits + 1 }

/-- The figures after a star has been stored and before it is counted. -/
def raise (census : Census) (growth : Growth) : Census :=
  { census.grow growth with stars := census.stars }

end Census

/-- What a node holds itself, and its cube.  What is known of the slot of the node
is kept in three words that nothing ties to each other. -/
structure FlatCell where
  cube : Cube
  count : Nat := 0
  columns : Columns := {}
  slot : Option Nat := none
  /-- The number of stars that the slot shows. -/
  drawn : UInt32 := 0
  /-- The number of values that the slot shows of a sample. -/
  sampled : UInt32 := 0

inductive FlatNode where
  | leaf (cell : FlatCell)
  | inner (cell : FlatCell) (children : Octant → FlatNode)

/-- A way to insert a star into a subtree, with the figures of the tree. -/
abbrev Inserter := FlatNode → Star → Census → Option (FlatNode × Census)

structure Splitting where
  children : Octant → FlatNode
  sample : Columns
  census : Census

namespace Columns

/-- The columns that the sample of an inner node begins with. -/
def begin? (settings : Settings) (layout : Layout) (depth : Nat)
    (center : Point) : Option Columns :=
  if settings.keepsSample depth then seed? layout center else some {}

/-- The columns of the sample of an inner node that a star has passed. -/
def offer? (settings : Settings) (layout : Layout) (depth : Nat) (cube : Cube)
    (columns : Columns) (star : Star) : Option Columns :=
  if settings.keepsSample depth then
    columns.admit? layout settings.starsPerCell cube star
  else some columns

end Columns

namespace FlatCell

def join? (layout : Layout) (depth : Nat) (cell : FlatCell) (star : Star)
    (census : Census) : Option (FlatNode × Census) := do
  let columns ← cell.columns.push? layout star
  let count ← succ? cell.count
  return (.leaf { cell with columns, count }, census.reach depth)

/-- An inner node after a star has passed it on its way to a child, which
`insert` gives it to. -/
def pass? (settings : Settings) (layout : Layout) (depth : Nat)
    (insert : Inserter) (cell : FlatCell) (children : Octant → FlatNode)
    (star : Star) (census : Census) : Option (FlatNode × Census) := do
  let columns ← cell.columns.offer? settings layout depth cell.cube star
  let count ← succ? cell.count
  let point ← star.point?
  let target := cell.cube.octantOf point
  let (child, census) ← insert (children target) star census
  return (.inner { cell with columns, count }
    (Function.update children target child), census)

/-- One star of a leaf that is split: it is cut out of the columns, given to the
child that it belongs to, and offered to the sample. -/
def handDown? (settings : Settings) (layout : Layout) (depth : Nat)
    (insert : Inserter) (cell : FlatCell) (split : Splitting) (number : Nat) :
    Option Splitting := do
  let star ← cell.columns.row? layout number
  let point ← star.point?
  let target := cell.cube.octantOf point
  let (child, census) ← insert (split.children target) star split.census
  let sample ← split.sample.offer? settings layout depth cell.cube star
  return ⟨Function.update split.children target child, sample, census⟩

/-- The inner node that a full leaf becomes, with the children that its stars
have been handed down to. -/
def subdivide? (settings : Settings) (layout : Layout) (depth : Nat)
    (insert : Inserter) (cell : FlatCell) (census : Census) :
    Option (FlatCell × (Octant → FlatNode) × Census) := do
  let stored ← cell.columns.size? layout
  let sample ← Columns.begin? settings layout depth cell.cube.center
  let split ← (List.range stored).foldlM
    (cell.handDown? settings layout depth insert)
    ⟨fun o => .leaf { cube := cell.cube.child o }, sample, census.splitLeaf⟩
  return ({ cell with columns := split.sample }, split.children, split.census)

/-- Whether a full leaf can be split often enough for one more star, when
`levels` more levels may be split.  The children are not built for this. -/
def cascade? (settings : Settings) (layout : Layout) (columns : Columns)
    (point : Point) : (levels : Nat) → Cube → Option Bool
  | 0, _ => some false
  | levels + 1, cube => do
    let points ← columns.points? layout
    let following := points.countP fun other =>
      cube.octantOf other = cube.octantOf point
    if following < settings.starsPerCell then return true
    else
      cascade? settings layout columns point levels
        (cube.child (cube.octantOf point))

end FlatCell

namespace FlatNode

def fits? (settings : Settings) (layout : Layout) (point : Point) :
    (depth : Nat) → FlatNode → Option Bool
  | depth, leaf cell =>
    if cell.count < settings.starsPerCell then some true
    else
      FlatCell.cascade? settings layout cell.columns point
        (settings.depthLimit - depth) cell.cube
  | depth, inner cell children =>
    (children (cell.cube.octantOf point)).fits? settings layout point (depth + 1)

/-- The subtree with one more star.  There are at most `levels` levels below its
root. -/
def insert? (settings : Settings) (layout : Layout) :
    (levels depth : Nat) → Inserter
  | 0, depth, leaf cell, star, census =>
    if cell.count < settings.starsPerCell then
      cell.join? layout depth star census
    else none
  | 0, _, inner _ _, _, _ => none
  | levels + 1, depth, leaf cell, star, census =>
    if cell.count < settings.starsPerCell then
      cell.join? layout depth star census
    else do
      let below := insert? settings layout levels (depth + 1)
      let (cell, children, census) ←
        cell.subdivide? settings layout depth below census
      cell.pass? settings layout depth below children star census
  | levels + 1, depth, inner cell children, star, census =>
    cell.pass? settings layout depth
      (insert? settings layout levels (depth + 1)) children star census

end FlatNode

/-! ## The columns of nodes -/

/-- The cell of a node that fills the cube, with its stars in columns. -/
def Cell.flat (layout : Layout) (cube : Cube) (cell : Cell) : FlatCell :=
  { cube
    count := cell.count
    columns := .ofStars layout cell.stars.toList
    slot := cell.tenancy.map Tenancy.slot
    drawn := cell.shown.toUInt32
    sampled := ((cell.tenancy.map Tenancy.sampled).getD 0).toUInt32 }

@[simp]
theorem Cell.cube_flat (layout : Layout) (cube : Cube) (cell : Cell) :
    (cell.flat layout cube).cube = cube := rfl

@[simp]
theorem Cell.count_flat (layout : Layout) (cube : Cube) (cell : Cell) :
    (cell.flat layout cube).count = cell.count := rfl

@[simp]
theorem Cell.columns_flat (layout : Layout) (cube : Cube) (cell : Cell) :
    (cell.flat layout cube).columns = .ofStars layout cell.stars.toList := rfl

def Node.flat (layout : Layout) (cube : Cube) : Node → FlatNode
  | leaf cell => .leaf (cell.flat layout cube)
  | inner cell children =>
    .inner (cell.flat layout cube) fun o =>
      (children o).flat layout (cube.child o)

theorem Node.flat_replace (layout : Layout) (cube : Cube)
    (children : Octant → Node) (target : Octant) (child : Node) :
    (fun o => (replace children target child o).flat layout (cube.child o)) =
      Function.update (fun o => (children o).flat layout (cube.child o)) target
        (child.flat layout (cube.child target)) := by
  funext o
  by_cases ho : o = target
  · subst o
    rw [replace_self, Function.update_self]
  · rw [replace_of_ne _ _ ho, Function.update_of_ne ho]

section

variable {settings : Settings} {layout : Layout} {star : Star} {place : Place}
  {cell : Cell} {node next : Node} {growth : Growth} {census : Census}

/-- A loop over numbers goes through the states that its steps lead to. -/
theorem foldlM_range_eq_some {σ : Type} {step : σ → Nat → Option σ}
    {state : Nat → σ} {n : Nat}
    (h : ∀ k < n, step (state k) k = some (state (k + 1))) :
    (List.range n).foldlM step (state 0) = some (state n) := by
  induction n with
  | zero => rfl
  | succ n ih =>
      rw [List.range_succ, List.foldlM_append,
        ih fun k hk => h k (Nat.lt_succ_of_lt hk)]
      exact (bind_pure (step (state n) n)).trans (h n (Nat.lt_succ_self n))

/-- The point of a whole star is there. -/
theorem point?_of_width (hlayout : 3 ≤ layout.position)
    (hstar : star.length = layout.width) : star.point? = some star.point := by
  refine Star.point?_of_length ?_
  rw [hstar, Layout.width]
  omega

theorem Columns.offer?_ofStars {sample : Array Star}
    (hlayout : 3 ≤ layout.position)
    (hsample : ∀ star ∈ sample.toList, star.length = layout.width)
    (hstar : star.length = layout.width) :
    (ofStars layout sample.toList).offer? settings layout place.depth place.cube
        star =
      some (ofStars layout
        (if settings.keepsSample place.depth then
          place.cube.offer settings.starsPerCell sample star
        else sample).toList) := by
  rw [offer?, admit?_ofStars hlayout hsample hstar]
  split <;> rfl

namespace FlatCell

theorem join?_flat (hstar : star.length = layout.width)
    (hcount : cell.count + 1 < 2 ^ 32) (cube : Cube) (depth : Nat)
    (census : Census) :
    (cell.flat layout cube).join? layout depth star census =
      some ((Node.leaf (cell.joined star)).flat layout cube,
        census.reach depth) := by
  rw [join?, Cell.flat, Columns.push?_ofStars hstar, Option.bind_eq_bind,
    Option.bind_some, succ?_of_lt hcount, Option.bind_eq_bind, Option.bind_some,
    ← Array.toList_push]
  rfl

/-- An inner node finds everything that it needs to let a star pass. -/
theorem pass?_flat (settings : Settings) (place : Place) (cell : Cell)
    (children : Octant → Node) {insert : Inserter} {child : Node}
    {next : Census} (hlayout : 3 ≤ layout.position)
    (hstar : star.length = layout.width)
    (hcell : ∀ other ∈ cell.stars.toList, other.length = layout.width)
    (hcount : cell.count + 1 < 2 ^ 32)
    (hinsert : insert
        ((children (place.cube.octantOf star.point)).flat layout
          (place.cube.child (place.cube.octantOf star.point))) star census =
      some (child.flat layout
        (place.cube.child (place.cube.octantOf star.point)), next)) :
    (cell.flat layout place.cube).pass? settings layout place.depth insert
        (fun o => (children o).flat layout (place.cube.child o)) star census =
      some ((Node.inner (cell.passed settings star place)
        (Node.replace children (place.cube.octantOf star.point) child)).flat
          layout place.cube, next) := by
  simp only [pass?, Cell.flat, Columns.offer?_ofStars hlayout hcell hstar,
    succ?_of_lt hcount, point?_of_width hlayout hstar, Option.bind_eq_bind,
    Option.bind_some, hinsert]
  rw [← Node.flat_replace]
  rfl

/-! ## Splitting a leaf -/

def handedDown (settings : Settings) (layout : Layout) (place : Place)
    (census : Census) (stars : List Star) : Splitting where
  children o :=
    (Node.partLeaf place stars.toArray o).flat layout (place.cube.child o)
  sample := .ofStars layout (settings.sample layout place stars.toArray).toList
  census := stars.foldl (fun census _ => census.reach (place.depth + 1))
    census.splitLeaf

/-- What the stars handed down reach does not show, since the star that the leaf
is split for goes at least as far. -/
theorem raise_handedDown (census : Census) (stars : List Star)
    (hdepth : place.depth < growth.depth) :
    (handedDown settings layout place census stars).census.raise growth =
      census.raise { growth with splits := growth.splits + 1 } := by
  have hreach : ∀ census : Census,
      (stars.foldl (fun census _ => census.reach (place.depth + 1))
        census).raise growth = census.raise growth := by
    induction stars with
    | nil => exact fun _ => rfl
    | cons _ stars ih =>
        intro census
        rw [List.foldl_cons, ih]
        simp only [Census.raise, Census.grow, Census.reach, Census.mk.injEq,
          and_true, true_and]
        omega
  rw [handedDown, hreach]
  simp only [Census.raise, Census.grow, Census.splitLeaf, Census.mk.injEq,
    and_true, true_and]
  omega

theorem begin?_eq (hlayout : 3 ≤ layout.position) :
    Columns.begin? settings layout place.depth place.cube.center =
      some (handedDown settings layout place census []).sample := by
  rw [Columns.begin?, Columns.seed?_eq hlayout, handedDown, Settings.sample]
  split <;> rfl

theorem sample_append (settings : Settings) (layout : Layout) (place : Place)
    (stars : List Star) (star : Star) :
    settings.sample layout place (stars ++ [star]).toArray =
      if settings.keepsSample place.depth then
        place.cube.offer settings.starsPerCell
          (settings.sample layout place stars.toArray) star
      else settings.sample layout place stars.toArray := by
  simp only [Settings.sample]
  split
  · simp [List.foldl_append]
  · rfl

theorem part_append (cube : Cube) (stars : List Star) (star : Star)
    (o : Octant) :
    cube.part (stars ++ [star]).toArray o =
      if cube.octantOf star.point = o then
        (cube.part stars.toArray o).push star
      else cube.part stars.toArray o := by
  have hstars : (stars ++ [star]).toArray = stars.toArray.push star := by
    rw [List.push_toArray]
  rw [Cube.part, hstars, Array.filter_push]
  simp only [decide_eq_true_eq]
  rfl

/-- Whatever is done with a full leaf, a leaf with room takes the star. -/
def Joins (settings : Settings) (layout : Layout) (depth : Nat)
    (insert : Inserter) : Prop :=
  ∀ (cube : Cube) (cell : Cell) (star : Star) (census : Census),
    cell.count < settings.starsPerCell → cell.count + 1 < 2 ^ 32 →
      star.length = layout.width →
        insert (.leaf (cell.flat layout cube)) star census =
          some ((Node.leaf (cell.joined star)).flat layout cube,
            census.reach depth)

/-- One more star is handed down to the child that it belongs to, and offered to
the sample. -/
theorem handedDown_append (settings : Settings) (layout : Layout)
    (place : Place) (census : Census) (stars : List Star) (star : Star) :
    handedDown settings layout place census (stars ++ [star]) =
      { children := Function.update
          (handedDown settings layout place census stars).children
          (place.cube.octantOf star.point)
          ((Node.leaf ((Cell.ofStars (place.cube.part stars.toArray
              (place.cube.octantOf star.point))).joined star)).flat layout
            (place.cube.child (place.cube.octantOf star.point)))
        sample := .ofStars layout
          (if settings.keepsSample place.depth then
            place.cube.offer settings.starsPerCell
              (settings.sample layout place stars.toArray) star
          else settings.sample layout place stars.toArray).toList
        census := (handedDown settings layout place census
          stars).census.reach (place.depth + 1) } := by
  simp only [handedDown, sample_append, List.foldl_append, List.foldl_cons,
    List.foldl_nil, Splitting.mk.injEq, and_true]
  funext o
  simp only [Node.partLeaf]
  by_cases ho : o = place.cube.octantOf star.point
  · subst o
    rw [Function.update_self, part_append, if_pos rfl, Cell.ofStars,
      Array.size_push]
    rfl
  · rw [Function.update_of_ne ho, part_append, if_neg (Ne.symm ho)]

theorem stocked_take {capacity : Nat} {stars : Array Star}
    (h : Stocked layout capacity stars) (number : Nat) :
    Stocked layout capacity (stars.toList.take number).toArray := by
  refine ⟨?_, fun star hstar => ?_⟩
  · rw [List.size_toArray, List.length_take, Array.length_toList]
    exact Nat.le_trans (Nat.min_le_right _ _) h.room
  · exact h.whole_toList star (List.mem_of_mem_take (List.mem_toArray.mp hstar))

/-- A child has got no more stars than have been handed down. -/
theorem size_part_take_le (cube : Cube) (stars : List Star) (number : Nat)
    (o : Octant) : (cube.part (stars.take number).toArray o).size ≤ number :=
  calc
    (cube.part (stars.take number).toArray o).size ≤
        (stars.take number).toArray.size := Array.size_filter_le
    _ = min number stars.length := by
      rw [List.size_toArray, List.length_take]
    _ ≤ number := Nat.min_le_left _ _

/-- Handing down one more star finds it, and a child with room for it. -/
theorem handDown?_flat {insert : Inserter}
    (hinsert : Joins settings layout (place.depth + 1) insert)
    (hlayout : 3 ≤ layout.position)
    (hcapacity : 0 < settings.starsPerCell)
    (hcell : Stocked layout settings.starsPerCell cell.stars)
    (hsize : cell.stars.size < 2 ^ 32) {number : Nat}
    (hnumber : number < cell.stars.size) :
    (cell.flat layout place.cube).handDown? settings layout place.depth insert
        (handedDown settings layout place census
          (cell.stars.toList.take number)) number =
      some (handedDown settings layout place census
        (cell.stars.toList.take (number + 1))) := by
  have hstars := hcell.whole_toList
  have hnumber' : number < cell.stars.toList.length := by
    rwa [Array.length_toList]
  have hsample := (stocked_take hcell number).sample hcapacity hlayout place
  have hstar := hstars _ (List.getElem_mem hnumber')
  have hrow := Columns.row?_ofStars hstars hnumber'
  rw [List.take_succ_eq_append_getElem hnumber', handedDown_append]
  generalize cell.stars.toList[number] = star at hstar hrow ⊢
  let target := place.cube.octantOf star.point
  have hpart := size_part_take_le place.cube cell.stars.toList number target
  have hjoin := hinsert (place.cube.child target)
    (.ofStars (place.cube.part (cell.stars.toList.take number).toArray target))
    star (handedDown settings layout place census
      (cell.stars.toList.take number)).census (Nat.lt_of_le_of_lt hpart (Nat.lt_of_lt_of_le hnumber hcell.room))
    (Nat.lt_of_le_of_lt (Nat.succ_le_of_lt (Nat.lt_of_le_of_lt hpart hnumber))
      hsize) hstar
  have hoffer := @Columns.offer?_ofStars settings layout star place _ hlayout
    hsample.whole_toList hstar
  simp only [handDown?, Cell.flat, hrow, point?_of_width hlayout hstar,
    Option.bind_eq_bind, Option.bind_some]
  refine (congrArg (Option.bind · _) hjoin).trans ?_
  exact congrArg (Option.bind · _) hoffer

/-- A full leaf is split without any fault. -/
theorem subdivide?_flat (place : Place) {insert : Inserter}
    (hinsert : Joins settings layout (place.depth + 1) insert)
    (hlayout : 3 ≤ layout.position)
    (hcapacity : 0 < settings.starsPerCell)
    (hcell : Stocked layout settings.starsPerCell cell.stars)
    (hsize : cell.stars.size < 2 ^ 32) :
    (cell.flat layout place.cube).subdivide? settings layout place.depth insert
        census =
      some ((cell.subdivided settings layout place).flat layout place.cube,
        fun o => (Node.partLeaf place cell.stars o).flat layout
          (place.cube.child o),
        (handedDown settings layout place census cell.stars.toList).census) := by
  have hstars := hcell.whole_toList
  have hloop := @foldlM_range_eq_some _
    ((cell.flat layout place.cube).handDown? settings layout place.depth insert)
    (fun number => handedDown settings layout place census
      (cell.stars.toList.take number)) cell.stars.size fun number =>
        handDown?_flat hinsert hlayout hcapacity hcell hsize
  have hall : cell.stars.toList.take cell.stars.size = cell.stars.toList := by
    rw [← Array.length_toList, List.take_length]
  rw [hall] at hloop
  rw [subdivide?, Cell.flat, Columns.size?_ofStars hlayout hstars,
    Array.length_toList]
  simp only [Option.bind_eq_bind, Option.bind_some,
    @begin?_eq settings layout place census hlayout]
  refine (congrArg (Option.bind · _) hloop).trans ?_
  simp only [Option.bind_some, handedDown, Array.toArray_toList]
  rfl

end FlatCell

namespace FlatNode

theorem joins_insert? (levels depth : Nat) :
    FlatCell.Joins settings layout depth
      (insert? settings layout levels depth) := by
  intro cube cell star census hroom hcount hstar
  have hjoin := FlatCell.join?_flat hstar hcount cube depth census
  cases levels with
  | zero => exact (if_pos hroom).trans hjoin
  | succ levels => exact (if_pos hroom).trans hjoin

/-- A leaf takes a star in columns when it does in rows, and comes to the
same. -/
theorem insert?_flat_leaf {levels : Nat} (hlayout : 3 ≤ layout.position)
    (hcapacity : 0 < settings.starsPerCell) (hstar : star.length = layout.width)
    (hcell : cell.Regular layout settings.starsPerCell true)
    (hcount : cell.count + 1 < 2 ^ 32)
    (h : cell.grow? settings layout star levels place = some (next, growth))
    (census : Census) :
    (leaf (cell.flat layout place.cube)).insert? settings layout levels
        place.depth star census =
      some (next.flat layout place.cube, census.raise growth) := by
  induction levels generalizing place cell next growth census with
  | zero =>
      rw [Cell.grow?] at h
      split at h <;> cases h
      exact joins_insert? 0 place.depth place.cube cell star census ‹_› hcount
        hstar
  | succ levels ih =>
      rw [Cell.grow?] at h
      split at h
      · cases h
        exact joins_insert? _ place.depth place.cube cell star census ‹_› hcount
          hstar
      · rename_i hfull
        rw [Option.map_eq_some_iff] at h
        obtain ⟨⟨child, below⟩, hchild, hnext⟩ := h
        cases hnext
        have hpart : (place.cube.part cell.stars
            (place.cube.octantOf star.point)).size ≤ cell.count := by
          rw [hcell.count rfl]
          exact Array.size_filter_le
        have hbelow := ih (Node.regular_partLeaf hcell.stocked place _)
          (Nat.lt_of_le_of_lt (Nat.succ_le_succ hpart) hcount) hchild
          (FlatCell.handedDown settings layout place census
            cell.stars.toList).census
        have hdepth : place.depth < below.depth :=
          Cell.depth_of_grow? hchild ▸
            Nat.lt_add_right _ (Nat.lt_succ_self place.depth)
        rw [FlatCell.raise_handedDown census _ hdepth] at hbelow
        have hsize : cell.stars.size < 2 ^ 32 :=
          hcell.count rfl ▸ Nat.lt_of_succ_lt hcount
        have hsplit := @FlatCell.subdivide?_flat settings layout cell census
          place _ (joins_insert? levels (place.depth + 1)) hlayout hcapacity
          hcell.stocked hsize
        have hpass := FlatCell.pass?_flat settings place
          (cell.subdivided settings layout place)
          (Node.partLeaf place cell.stars) hlayout hstar
          (hcell.stocked.sample hcapacity hlayout place).whole_toList hcount
          hbelow
        rw [Node.ofFamily_eq]
        refine (if_neg hfull).trans ?_
        exact (congrArg (Option.bind · _) hsplit).trans hpass

/-- A node takes a star in columns when it does in rows, and comes to the
same. -/
theorem insert?_flat (hlayout : 3 ≤ layout.position)
    (hcapacity : 0 < settings.starsPerCell) (hstar : star.length = layout.width)
    (hnode : node.All (Cell.Regular layout settings.starsPerCell))
    (hwithin : node.Within (settings.depthLimit - place.depth))
    (hcounts : node.All fun _ cell => cell.count + 1 < 2 ^ 32)
    (h : node.insert? settings layout star place = some (next, growth))
    (census : Census) :
    (node.flat layout place.cube).insert? settings layout
        (settings.depthLimit - place.depth) place.depth star census =
      some (next.flat layout place.cube, census.raise growth) := by
  induction node generalizing place next growth with
  | leaf cell =>
      exact insert?_flat_leaf hlayout hcapacity hstar hnode hcounts h census
  | inner cell children ih =>
      rw [Node.insert?, Option.map_eq_some_iff] at h
      obtain ⟨⟨child, below⟩, hchild, hnext⟩ := h
      cases hnext
      obtain ⟨hcell, hchildren⟩ := hnode
      obtain ⟨hpos, hbelow⟩ := hwithin
      have hinsert := @ih (place.cube.octantOf star.point)
        (place.child (place.cube.octantOf star.point)) child _
        (hchildren _) (hbelow _) (hcounts.2 _) hchild
      have hpass := FlatCell.pass?_flat settings place cell children hlayout
        hstar hcell.stocked.whole_toList hcounts.1 hinsert
      obtain ⟨levels, hlevels⟩ : ∃ levels,
          settings.depthLimit - place.depth = levels + 1 :=
        Nat.exists_eq_add_of_lt hpos |>.imp fun levels h => by omega
      have hrest : settings.depthLimit -
          (place.child (place.cube.octantOf star.point)).depth = levels := by
        rw [Place.depth_child]
        omega
      rw [hrest] at hpass
      rw [hlevels, Node.ofFamily_eq]
      exact hpass

/-! ## Finding room -/

theorem grow?_of_room (hroom : cell.count < settings.starsPerCell)
    (levels : Nat) :
    cell.grow? settings layout star levels place =
      some (.leaf (cell.joined star), ⟨place.depth, 0⟩) := by
  cases levels with
  | zero => exact if_pos hroom
  | succ levels => exact if_pos hroom

/-- As many stars follow the new one as the child that it goes to gets. -/
theorem countP_points (cube : Cube) (stars : Array Star) (point : Point) :
    ((stars.toList.map Star.point).countP fun other =>
        decide (cube.octantOf other = cube.octantOf point)) =
      (cube.part stars (cube.octantOf point)).size := by
  rw [List.countP_map, Cube.part, ← Array.countP_eq_size_filter,
    ← Array.countP_toList]
  rfl

/-- When all stars of a full leaf follow the new one, they are the child. -/
theorem part_eq_self {cube : Cube} {stars : Array Star} {o : Octant}
    (h : stars.size ≤ (cube.part stars o).size) : cube.part stars o = stars := by
  rw [Cube.part, Array.filter_eq_self]
  have hcount : stars.countP (fun star =>
      decide (cube.octantOf star.point = o)) = stars.size := by
    refine Nat.le_antisymm Array.countP_le_size ?_
    rw [Array.countP_eq_size_filter]
    exact h
  exact Array.countP_eq_size.mp hcount

/-- The splits that a star needs are counted through as they are done.  As long
as not all stars follow it, the next split makes room. -/
theorem cascade?_flat {levels : Nat} (hlayout : 3 ≤ layout.position)
    (hcell : cell.Regular layout settings.starsPerCell true)
    (hfull : settings.starsPerCell ≤ cell.count) :
    FlatCell.cascade? settings layout (.ofStars layout cell.stars.toList)
        star.point levels place.cube =
      some (cell.grow? settings layout star levels place).isSome := by
  have hstars := hcell.stocked.whole_toList
  induction levels generalizing place cell with
  | zero =>
      rw [Cell.grow?, if_neg (Nat.not_lt.mpr hfull)]
      rfl
  | succ levels ih =>
      rw [FlatCell.cascade?, Columns.points?_ofStars hlayout hstars, Cell.grow?,
        if_neg (Nat.not_lt.mpr hfull), Option.isSome_map]
      simp only [Option.bind_eq_bind, Option.bind_some, countP_points]
      split
      · rename_i hroom
        rw [grow?_of_room hroom]
        rfl
      · rename_i hfollow
        rw [Nat.not_lt] at hfollow
        have hall := part_eq_self
          (Nat.le_trans hcell.stocked.room hfollow)
        rw [hall] at hfollow ⊢
        exact @ih (place.child (place.cube.octantOf star.point))
          (.ofStars cell.stars) ⟨hcell.stocked, fun _ => rfl⟩ hfollow hstars

/-- Room for a star is found in columns when it is found in rows. -/
theorem fits?_flat (hlayout : 3 ≤ layout.position)
    (hnode : node.All (Cell.Regular layout settings.starsPerCell)) :
    (node.flat layout place.cube).fits? settings layout star.point place.depth =
      some (node.insert? settings layout star place).isSome := by
  induction node generalizing place with
  | leaf cell =>
      rw [Node.flat, fits?, Node.insert?]
      split
      · rename_i hroom
        rw [grow?_of_room hroom]
        rfl
      · rename_i hfull
        exact cascade?_flat hlayout hnode (Nat.not_lt.mp hfull)
  | inner cell children ih =>
      rw [Node.insert?, Option.isSome_map]
      exact @ih (place.cube.octantOf star.point)
        (place.child (place.cube.octantOf star.point)) (hnode.2 _)

end FlatNode

end

end Starfield
