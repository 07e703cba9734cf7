import Starfield.Proofs.Flat.Safety
import Starfield.Proofs.Mirror

/-!
# Frames in words

A frame of a tree in columns knows of the slot of a node by three words: which
slot it is, how many stars it shows, and how many values of a sample.  Nothing
ties them to each other, and the numbers that they are compared with are cut off
to words of thirty-two bits.  As long as the values of a full cell can be counted
with such a word, none that counts is ever cut off, and the frame comes to the
same in words as it does in numbers.
-/

namespace Starfield

namespace Columns

def valueCount (columns : Columns) : Nat :=
  columns.positions.length + columns.colors.length + columns.motions.length

/-- What is written into a slot.  Each attribute is put behind those before it,
and all together are brought to the room that they have in a full cell. -/
def chunk (layout : Layout) (capacity : Nat) (detail : Detail)
    (columns : Columns) : List Value :=
  let data := fit (layout.position * capacity) columns.positions
  if detail.hasColor then
    let data := fit ((layout.position + layout.color) * capacity)
      (data ++ columns.colors)
    if detail.hasMotion then
      fit (layout.width * capacity) (data ++ columns.motions)
    else data
  else data

end Columns

/-! ## The walk -/

namespace FlatCell

def vacate (compacting : Bool) (cell : FlatCell) (walk : Walk) :
    FlatCell × Walk :=
  match cell.slot with
  | none => (cell, walk)
  | some slot =>
    let walk :=
      if compacting then { walk with stale := slot :: walk.stale }
      else
        { walk with
          slots := walk.slots.release slot
          changes := walk.changes.insert slot .vacate }
    ({ cell with slot := none, drawn := 0, sampled := 0 },
      { walk with delta := walk.delta - cell.drawn.toNat })

def write (pass : Pass) (slot : Nat) (stars sampled : UInt32) (cell : FlatCell)
    (walk : Walk) : FlatCell × Walk :=
  let chunk := cell.columns.chunk pass.layout pass.settings.starsPerCell
    pass.detail
  ({ cell with slot := some slot, drawn := stars, sampled },
    { walk with
      changes := walk.changes.insert slot (.fill chunk)
      delta := walk.delta + ((stars.toNat : Int) - cell.drawn.toNat) })

/-- Find the slot that is to be written.  The flag tells whether it is a new
one. -/
def claim (pass : Pass) (stars sampled : UInt32) (cell : FlatCell)
    (walk : Walk) : Option (Nat × Bool) × Walk :=
  let acquire (walk : Walk) : Option (Nat × Bool) × Walk :=
    match walk.slots.acquire? with
    | none => (none, { walk with exhausted := true })
    | some (slot, slots) => (some (slot, true), { walk with slots })
  match cell.slot with
  | none => acquire walk
  | some slot =>
    if pass.compacting then acquire { walk with stale := slot :: walk.stale }
    else if cell.drawn = stars ∧ cell.sampled = sampled then (none, walk)
    else (some (slot, false), walk)

def seat (pass : Pass) (stars sampled : UInt32) (cell : FlatCell) (walk : Walk) :
    FlatCell × Walk :=
  match cell.claim pass stars sampled walk with
  | (none, walk) => (cell, walk)
  | (some (slot, _), walk) => cell.write pass slot stars sampled walk

end FlatCell

namespace FlatNode

def vacate (compacting : Bool) : FlatNode → Walk → FlatNode × Walk
  | leaf cell, walk =>
    let (cell, walk) := cell.vacate compacting walk
    (leaf cell, walk)
  | inner cell children, walk =>
    let (cell, walk) := cell.vacate compacting walk
    let (children, walk) :=
      Octet.thread (fun o => (children o).vacate compacting) walk
    (inner cell children.get, walk)

/-- Walk a subtree whose root sits at the given depth. -/
def walk (pass : Pass) : (depth : Nat) → FlatNode → Walk → FlatNode × Walk
  | _, leaf cell, walk =>
    if walk.exhausted then (leaf cell, walk)
    else
      let (seen, walk) :=
        walk.askSees pass (cell.cube.worldCorners pass.settings.worldScale)
      if seen && cell.count ≠ 0 then
        let (cell, walk) := cell.seat pass cell.count.toUInt32 0 walk
        (leaf cell, walk)
      else
        let (cell, walk) := cell.vacate pass.compacting walk
        (leaf cell, walk)
  | depth, inner cell children, walk =>
    if walk.exhausted then (inner cell children, walk)
    else
      let corners := cell.cube.worldCorners pass.settings.worldScale
      let (seen, walk) := walk.askSees pass corners
      if !seen then (inner cell children).vacate pass.compacting walk
      else
        let (small, walk) :=
          if cell.columns.positions.isEmpty then (false, walk)
          else walk.askSmall pass depth corners
        if small then
          let stars := (cell.columns.positions.length /
            pass.layout.position).toUInt32
          let sampled := cell.columns.valueCount.toUInt32
          match cell.claim pass stars sampled walk with
          | (none, walk) => (inner cell children, walk)
          | (some (slot, false), walk) =>
            let (cell, walk) := cell.write pass slot stars sampled walk
            (inner cell children, walk)
          | (some (slot, true), walk) =>
            let (children, walk) :=
              Octet.thread (fun o => (children o).vacate pass.compacting) walk
            let (cell, walk) := cell.write pass slot stars sampled walk
            (inner cell children.get, walk)
        else
          let (cell, walk) := cell.vacate pass.compacting walk
          let (children, walk) :=
            Octet.thread (fun o => (children o).walk pass (depth + 1)) walk
          (inner cell children.get, walk)

end FlatNode

namespace FlatTree

def frameStart (tree : FlatTree) : SlotPool × Bool :=
  let slots := tree.slots.reclaim
  if tree.settings.compaction.isDue slots.highWater slots.freeCount
      slots.capacity then
    (.ofCapacity slots.capacity, true)
  else (slots, false)

def walked (tree : FlatTree) (oracle : Oracle) (detail : Detail) :
    Octet FlatNode × Walk :=
  let (slots, compacting) := tree.frameStart
  let pass : Pass :=
    { settings := tree.settings, layout := tree.layout, detail, oracle,
      compacting }
  Octet.thread (fun o => (tree.octants o).walk pass 1) { slots }

/-- Run one frame.  It is recorded when it succeeds and its time is given. -/
def runFrame (tree : FlatTree) (oracle : Oracle) (detail : Detail)
    (time : Option Nat) : FlatTree × List Question × Except Fault Update :=
  let compacted := tree.frameStart.2
  let (octants, walk) := tree.walked oracle detail
  let tree := { tree with octants := octants.get, slots := walk.slots }
  let asked := walk.asked.reverse
  if walk.exhausted then
    (tree, asked, .error (.slotsExhausted walk.slots.capacity))
  else
    let changes :=
      if compacted then
        walk.stale.foldl (fun changes slot => changes.insertIfNew slot .vacate)
          walk.changes
      else walk.changes
    let update : Update := { changes, delta := walk.delta, compacted }
    match time with
    | none => (tree, asked, .ok update)
    | some time =>
      ({ tree with log := tree.log.record update time tree.slots }, asked,
        .ok update)

end FlatTree

/-! ## Words that are large enough -/

theorem toNat_toUInt32 {n : Nat} (h : n < 2 ^ 32) : n.toUInt32.toNat = n :=
  UInt32.toNat_ofNat_of_lt' h

theorem toUInt32_inj {m n : Nat} (hm : m < 2 ^ 32) (hn : n < 2 ^ 32) :
    m.toUInt32 = n.toUInt32 ↔ m = n := by
  rw [← UInt32.toNat_inj, toNat_toUInt32 hm, toNat_toUInt32 hn]

/-- What fills its room exactly stays as it is when more is put behind it. -/
theorem fit_append {values : List Value} {size : Nat}
    (h : values.length = size) (room : Nat) (more : List Value) :
    fit (size + room) (values ++ more) = values ++ fit room more := by
  subst size
  simp only [fit, List.take_length_add_append, List.rightpad, List.append_assoc,
    List.length_append, Nat.add_sub_add_left]

theorem Columns.chunk_ofStars (layout : Layout) (capacity : Nat)
    (detail : Detail) (cell : Cell) :
    (ofStars layout cell.stars.toList).chunk layout capacity detail =
      cell.chunk layout capacity detail := by
  have hposition := length_fit (layout.position * capacity)
    (cell.positions layout)
  have hcolor := fit_append hposition (layout.color * capacity)
    (cell.colors layout)
  have hboth : (fit (layout.position * capacity) (cell.positions layout) ++
      fit (layout.color * capacity) (cell.colors layout)).length =
        (layout.position + layout.color) * capacity := by
    rw [List.length_append, length_fit, length_fit, Nat.add_mul]
  have hmotion := fit_append hboth (layout.motion * capacity)
    (cell.motions layout)
  rw [← Nat.add_mul] at hcolor hmotion
  cases detail with
  | positions => exact (List.append_nil _).symm.trans (List.append_nil _).symm
  | colors => exact hcolor.trans (List.append_nil _).symm
  | motion =>
      exact (congrArg (fun data => fit (layout.width * capacity)
        (data ++ cell.motions layout)) hcolor).trans hmotion

theorem Cell.valueCount_eq_mul {layout : Layout} {cell : Cell}
    (hstars : ∀ star ∈ cell.stars.toList, star.length = layout.width) :
    cell.valueCount = cell.stars.size * layout.width := by
  rw [valueCount_eq, ← List.flatMap_id', length_flatMap_of_forall hstars,
    Array.length_toList]

/-- The values in columns of whole stars are counted as they are in the cell. -/
theorem Columns.valueCount_ofStars {layout : Layout} {cell : Cell}
    (hstars : ∀ star ∈ cell.stars.toList, star.length = layout.width) :
    (ofStars layout cell.stars.toList).valueCount = cell.valueCount := by
  obtain ⟨hpositions, hcolors, hmotions⟩ := length_ofStars hstars
  rw [valueCount, hpositions, hcolors, hmotions,
    Cell.valueCount_eq_mul hstars, Array.length_toList, Layout.width,
    Nat.mul_add, Nat.mul_add]

/-- There are no positions just when there is no star. -/
theorem Columns.isEmpty_positions {layout : Layout} {cell : Cell}
    (hposition : 0 < layout.position)
    (hstars : ∀ star ∈ cell.stars.toList, star.length = layout.width) :
    (ofStars layout cell.stars.toList).positions.isEmpty =
      cell.stars.isEmpty := by
  rw [Bool.eq_iff_iff, List.isEmpty_iff_length_eq_zero,
    Array.isEmpty_iff_size_eq_zero, (length_ofStars hstars).1,
    Array.length_toList, Nat.mul_eq_zero, or_iff_left (Nat.ne_of_gt hposition)]

section

variable {pass : Pass} {cube : Cube} {cell : Cell} {stars sampled : Nat}

/-- What a slot shows fits into a chunk. -/
structure Tenancy.Fits (layout : Layout) (capacity : Nat) (isLeaf : Bool)
    (tenancy : Tenancy) : Prop where
  stars : tenancy.stars ≤ capacity
  sampled : tenancy.sampled ≤ capacity * layout.width
  /-- The slot of a leaf shows no sample. -/
  leaf : isLeaf = true → tenancy.sampled = 0

def Cell.Fits (layout : Layout) (capacity : Nat) (isLeaf : Bool)
    (cell : Cell) : Prop :=
  ∀ tenancy, cell.tenancy = some tenancy →
    tenancy.Fits layout capacity isLeaf

/-- The cell is as it has to be, and so is what its slot shows. -/
structure Cell.Sized (layout : Layout) (capacity : Nat) (isLeaf : Bool)
    (cell : Cell) : Prop extends cell.Regular layout capacity isLeaf where
  fits : cell.Fits layout capacity isLeaf

/-- The values of a full cell can be counted with a word. -/
structure Pass.Counts (pass : Pass) : Prop where
  position : 0 < pass.layout.position
  words : pass.settings.starsPerCell * pass.layout.width < 2 ^ 32

theorem Pass.Counts.starsPerCell_lt (h : pass.Counts) :
    pass.settings.starsPerCell < 2 ^ 32 :=
  Nat.lt_of_le_of_lt
    (Nat.le_mul_of_pos_right _ (Nat.add_pos_left
      (Nat.add_pos_left h.position _) _)) h.words

namespace Cell.Sized

variable {isLeaf : Bool}
  (h : cell.Sized pass.layout pass.settings.starsPerCell isLeaf)
  (hpass : pass.Counts)

include h hpass

theorem shown_lt : cell.shown < 2 ^ 32 := by
  rw [shown]
  cases htenancy : cell.tenancy with
  | none => exact Nat.two_pow_pos 32
  | some tenancy =>
      exact Nat.lt_of_le_of_lt (h.fits tenancy htenancy).stars
        hpass.starsPerCell_lt

theorem size_lt : cell.stars.size < 2 ^ 32 :=
  Nat.lt_of_le_of_lt h.stocked.room hpass.starsPerCell_lt

theorem valueCount_lt : cell.valueCount < 2 ^ 32 := by
  rw [Cell.valueCount_eq_mul h.stocked.whole_toList]
  exact Nat.lt_of_le_of_lt (Nat.mul_le_mul_right _ h.stocked.room) hpass.words

theorem toNat_drawn_flat :
    (cell.flat pass.layout cube).drawn.toNat = cell.shown :=
  toNat_toUInt32 (h.shown_lt hpass)

/-- Vacating a cell is the same in words. -/
theorem vacate_flat (cube : Cube) (compacting : Bool) (walk : Walk) :
    (cell.flat pass.layout cube).vacate compacting walk =
      ((cell.vacate compacting walk).1.flat pass.layout cube,
        (cell.vacate compacting walk).2) := by
  have hslot : (cell.flat pass.layout cube).slot =
      cell.tenancy.map Tenancy.slot := rfl
  rw [FlatCell.vacate, h.toNat_drawn_flat hpass, hslot, Cell.vacate]
  cases htenancy : cell.tenancy with
  | none => rfl
  | some tenancy =>
      rw [shown_of_tenancy htenancy]
      rfl

/-- So is writing it, -/
theorem write_flat (cube : Cube) (slot : Nat) (hstars : stars < 2 ^ 32)
    (sampled : Nat) (walk : Walk) :
    (cell.flat pass.layout cube).write pass slot stars.toUInt32
        sampled.toUInt32 walk =
      ((cell.write pass slot stars sampled walk).1.flat pass.layout cube,
        (cell.write pass slot stars sampled walk).2) := by
  have hchunk := Columns.chunk_ofStars pass.layout pass.settings.starsPerCell
    pass.detail cell
  rw [FlatCell.write, h.toNat_drawn_flat hpass, toNat_toUInt32 hstars,
    Cell.write, ← hchunk]
  rfl

/-- and finding the slot for it. -/
theorem claim_flat (cube : Cube) (hstars : stars < 2 ^ 32)
    (hsampled : sampled < 2 ^ 32) (walk : Walk) :
    (cell.flat pass.layout cube).claim pass stars.toUInt32 sampled.toUInt32
        walk =
      cell.claim pass stars sampled walk := by
  have hslot : (cell.flat pass.layout cube).slot =
      cell.tenancy.map Tenancy.slot := rfl
  rw [FlatCell.claim, hslot, Cell.claim]
  cases htenancy : cell.tenancy with
  | none => rfl
  | some tenancy =>
      have hvalues := (h.fits tenancy htenancy).sampled
      have hdrawn : (cell.flat pass.layout cube).drawn = stars.toUInt32 ↔
          tenancy.stars = stars := by
        rw [← shown_of_tenancy htenancy]
        exact toUInt32_inj (h.shown_lt hpass) hstars
      have hsample : (cell.flat pass.layout cube).sampled = sampled.toUInt32 ↔
          tenancy.sampled = sampled := by
        rw [flat, htenancy]
        exact toUInt32_inj (Nat.lt_of_le_of_lt hvalues hpass.words) hsampled
      simp only [hdrawn, hsample]
      rfl

theorem seat_flat (cube : Cube) (hstars : stars < 2 ^ 32)
    (hsampled : sampled < 2 ^ 32) (walk : Walk) :
    (cell.flat pass.layout cube).seat pass stars.toUInt32 sampled.toUInt32
        walk =
      ((cell.seat pass stars sampled walk).1.flat pass.layout cube,
        (cell.seat pass stars sampled walk).2.1) := by
  rw [FlatCell.seat, h.claim_flat hpass cube hstars hsampled, Cell.seat]
  rcases cell.claim pass stars sampled walk with
    ⟨_ | ⟨slot, isNew⟩, claimed⟩
  · rfl
  · exact h.write_flat hpass cube slot hstars sampled claimed

end Cell.Sized

namespace Node

variable {node : Node} {place : Place}

/-- What is the same in words for each child is the same for all of them. -/
theorem thread_flat {f : Octant → Walk → Node × Walk}
    {f' : Octant → Walk → FlatNode × Walk} {layout : Layout} {cube : Cube}
    (h : ∀ o walk, f' o walk =
      ((f o walk).1.flat layout (cube.child o), (f o walk).2))
    (walk : Walk) :
    (Octet.thread f' walk).1.get =
        (fun o => ((Octet.thread f walk).1.get o).flat layout (cube.child o)) ∧
      (Octet.thread f' walk).2 = (Octet.thread f walk).2 := by
  obtain rfl : f' = fun o walk =>
      ((f o walk).1.flat layout (cube.child o), (f o walk).2) :=
    funext fun o => funext (h o)
  exact Octet.thread_map (fun o child => child.flat layout (cube.child o)) f walk

/-- Vacating a subtree is the same in words. -/
theorem vacate_flat (hpass : pass.Counts)
    (hnode : node.All (Cell.Sized pass.layout pass.settings.starsPerCell))
    (compacting : Bool) (cube : Cube) (walk : Walk) :
    (node.flat pass.layout cube).vacate compacting walk =
      ((node.vacate compacting walk).1.flat pass.layout cube,
        (node.vacate compacting walk).2) := by
  induction node generalizing cube walk with
  | leaf cell =>
      rw [flat, FlatNode.vacate, hnode.vacate_flat hpass]
      rfl
  | inner cell children ih =>
      obtain ⟨hbelow, hwalk⟩ := thread_flat
        (fun o => ih o (hnode.2 o) (cube.child o))
        (cell.vacate compacting walk).2
      rw [flat, FlatNode.vacate, hnode.1.vacate_flat hpass]
      simp only [hbelow, hwalk]
      rfl

theorem walk_flat_leaf (hpass : pass.Counts)
    (hcell : cell.Sized pass.layout pass.settings.starsPerCell true)
    (walk : Walk) :
    ((leaf cell).flat pass.layout place.cube).walk pass place.depth walk =
      (((leaf cell).walk pass place walk).1.flat pass.layout place.cube,
        ((leaf cell).walk pass place walk).2) := by
  have hcount : cell.count < 2 ^ 32 := by
    rw [hcell.count rfl]
    exact hcell.size_lt hpass
  have hseat : ∀ walk, (cell.flat pass.layout place.cube).seat pass
      cell.count.toUInt32 0 walk = _ :=
    hcell.seat_flat hpass place.cube hcount (Nat.two_pow_pos 32)
  have hvacate := hcell.vacate_flat hpass place.cube pass.compacting
  rw [flat, FlatNode.walk, Node.walk, Cell.cube_flat, Cell.count_flat]
  cases walk.exhausted with
  | true => rfl
  | false =>
      simp only [Bool.false_eq_true, if_false]
      generalize walk.askSees pass
        (place.cube.worldCorners pass.settings.worldScale) = seen
      simp only [hseat, hvacate]
      cases seen.1 && decide (cell.count ≠ 0) <;> rfl

/-- The walk of a subtree is the same in words. -/
theorem walk_flat (hpass : pass.Counts)
    (hnode : node.All (Cell.Sized pass.layout pass.settings.starsPerCell))
    (walk : Walk) :
    (node.flat pass.layout place.cube).walk pass place.depth walk =
      ((node.walk pass place walk).1.flat pass.layout place.cube,
        (node.walk pass place walk).2) := by
  induction node generalizing place walk with
  | leaf cell => exact walk_flat_leaf hpass hnode walk
  | inner cell children ih =>
      have hvacate := vacate_flat hpass hnode pass.compacting place.cube
      obtain ⟨hcell, hchildren⟩ := hnode
      have hstars := hcell.stocked.whole_toList
      have hempty := Columns.isEmpty_positions hpass.position hstars
      have hsize := hcell.size_lt hpass
      rw [flat, FlatNode.walk, Node.walk, Cell.cube_flat, Cell.columns_flat,
        hempty, Columns.valueCount_ofStars hstars,
        Columns.length_positions_div hstars hpass.position,
        Array.length_toList]
      cases walk.exhausted with
      | true => rfl
      | false =>
      simp only [Bool.false_eq_true, if_false]
      generalize walk.askSees pass
        (place.cube.worldCorners pass.settings.worldScale) = asked
      obtain ⟨seen, walk⟩ := asked
      cases seen with
      | false => exact hvacate walk
      | true =>
      simp only [Bool.not_true, Bool.false_eq_true, if_false]
      generalize (if cell.stars.isEmpty then (false, walk)
        else walk.askSmall pass place.depth
          (place.cube.worldCorners pass.settings.worldScale)) = asked
      obtain ⟨small, walk⟩ := asked
      cases small with
      | false =>
          have hchild : ∀ o walk, ((children o).flat pass.layout
              (place.cube.child o)).walk pass (place.depth + 1) walk = _ :=
            fun o => @ih o (place.child o) (hchildren o)
          obtain ⟨hbelow, hend⟩ := thread_flat hchild
            (cell.vacate pass.compacting walk).2
          simp only [Bool.false_eq_true, if_false]
          rw [hcell.vacate_flat hpass place.cube pass.compacting]
          simp only [hbelow, hend]
          rfl
      | true =>
          simp only [if_true]
          rw [hcell.claim_flat hpass place.cube hsize
            (hcell.valueCount_lt hpass)]
          rcases cell.claim pass cell.stars.size cell.valueCount walk with
            ⟨_ | ⟨slot, _ | _⟩, claimed⟩
          · rfl
          · simp only [hcell.write_flat hpass place.cube slot hsize]
            rfl
          · obtain ⟨hbelow, hend⟩ := thread_flat
              (fun o => (children o).vacate_flat hpass (hchildren o)
                pass.compacting (place.cube.child o)) claimed
            simp only [hbelow, hend,
              hcell.write_flat hpass place.cube slot hsize]
            rfl

end Node

end

/-! ## Whole trees -/

/-- What every node keeps when it is settled, all nodes of a plan keep. -/
theorem forall_settleAll {pass : Pass} {P : Entry → Prop}
    (hsettle : ∀ {entry : Entry} {drawn : Bool} {walk : Walk}
      {settled : Entry × Walk}, entry.Settles pass walk drawn settled →
        P entry → P settled.1)
    (plan : List (Entry × Bool)) (walk : Walk)
    (hplan : ∀ planned ∈ plan, P planned.1) :
    ∀ entry ∈ (settleAll pass plan walk).1, P entry := by
  revert hplan
  apply settleAll_induction (P := fun plan _ settled =>
    (∀ planned ∈ plan, P planned.1) → ∀ entry ∈ settled.1, P entry)
  case stopped =>
    intro plan walk hplan entry hentry
    obtain ⟨planned, hplanned, rfl⟩ := List.mem_map.mp hentry
    exact hplan planned hplanned
  case step =>
    intro entry drawn plan walk here rest hhere hrest hplan
    rw [List.forall_mem_cons] at hplan ⊢
    exact ⟨hsettle hhere hplan.1, hrest hplan.2⟩

/-- What a cell shows when it is drawn fits into a chunk. -/
theorem Cell.Sized.fits_shows {layout : Layout} {capacity : Nat}
    {isLeaf : Bool} {cell : Cell} (h : cell.Sized layout capacity isLeaf)
    (slot : Nat) :
    Tenancy.Fits layout capacity isLeaf
      ⟨slot, (cell.shows isLeaf).1, (cell.shows isLeaf).2⟩ := by
  cases isLeaf with
  | true =>
      refine ⟨?_, Nat.zero_le _, fun _ => rfl⟩
      change cell.count ≤ capacity
      rw [h.count rfl]
      exact h.stocked.room
  | false =>
      refine ⟨h.stocked.room, ?_, nofun⟩
      change cell.valueCount ≤ capacity * layout.width
      rw [Cell.valueCount_eq_mul h.stocked.whole_toList]
      exact Nat.mul_le_mul_right _ h.stocked.room

theorem Entry.Settles.sized {pass : Pass} {entry : Entry} {drawn : Bool}
    {walk : Walk} {settled : Entry × Walk} {layout : Layout} {capacity : Nat}
    (h : entry.Settles pass walk drawn settled)
    (hentry : entry.cell.Sized layout capacity entry.isLeaf) :
    settled.1.cell.Sized layout capacity settled.1.isLeaf := by
  cases h with
  | seated hseats =>
      cases hseats with
      | kept | refused => exact hentry
      | rewritten | placed =>
          refine ⟨⟨hentry.stocked, hentry.count⟩, fun tenancy htenancy => ?_⟩
          cases htenancy
          exact hentry.fits_shows _
  | vacated hvacates =>
      cases hvacates with
      | idle => exact hentry
      | released | dropped =>
          exact ⟨⟨hentry.stocked, hentry.count⟩, nofun⟩

theorem Cell.fits_of_vacant {layout : Layout} {capacity : Nat} {isLeaf : Bool}
    {cell : Cell} (h : cell.tenancy = none) :
    cell.Fits layout capacity isLeaf := by
  intro tenancy htenancy
  rw [h] at htenancy
  cases htenancy

namespace Tree

variable {tree next : Tree}

def Fits (tree : Tree) : Prop :=
  ∀ o, (tree.octants o).All
    (Cell.Fits tree.layout tree.settings.starsPerCell)

theorem all_octants_iff {P : Bool → Cell → Prop} :
    (∀ o, (tree.octants o).All P) ↔
      ∀ entry ∈ tree.listing, P entry.isLeaf entry.cell := by
  have hall := fun o => @Node.all_iff P (tree.octants o) [o] (tree.domain.child o)
  constructor
  · intro h entry hentry
    obtain ⟨o, _, ho⟩ := List.mem_flatMap.mp hentry
    exact (hall o).mp (h o) entry ho
  · exact fun h o => (hall o).mpr fun entry hentry =>
      h entry (List.mem_flatMap.mpr ⟨o, Octant.mem_all o, hentry⟩)

theorem Vacant.fits (h : tree.Vacant) : tree.Fits := by
  refine all_octants_iff.mpr fun entry hentry => Cell.fits_of_vacant ?_
  obtain ⟨o, _, ho⟩ := List.mem_flatMap.mp hentry
  exact (h o).tenancy_of_mem_listing ho

theorem Regular.sized (h : tree.Regular) (hfits : tree.Fits) :
    ∀ entry ∈ tree.listing, entry.cell.Sized tree.layout
      tree.settings.starsPerCell entry.isLeaf :=
  fun entry hentry =>
    ⟨h.of_mem_listing hentry, all_octants_iff.mp hfits entry hentry⟩

theorem Fits.gains {star : Star} (h : tree.Fits) (hgains : tree.Gains star next) :
    next.Fits := by
  obtain ⟨child, hchild, hoctants⟩ := hgains.octants
  rw [Fits, hgains.layout, hgains.settings, hoctants]
  refine Node.forall_replace (hchild.all (fun _ hcell => hcell) ?_
    (fun _ _ hcell => hcell) (fun _ => Cell.fits_of_vacant rfl) (h _)) h
  intro _ _ hcell tenancy htenancy
  exact ⟨(hcell tenancy htenancy).stars, (hcell tenancy htenancy).sampled,
    nofun⟩

theorem Fits.frame (h : tree.Fits) (hregular : tree.Regular)
    (hunnested : tree.Unnested) (oracle : Oracle) (detail : Detail) :
    (tree.frame oracle detail).tree.Fits := by
  refine all_octants_iff.mpr ?_
  rw [listing_frame oracle detail hunnested]
  intro entry hentry
  refine (forall_settleAll Entry.Settles.sized (tree.plan oracle).1 _ ?_ entry
    hentry).fits
  intro planned hplanned
  refine hregular.sized h planned.1 ?_
  rw [← map_fst_plan tree oracle]
  exact List.mem_map_of_mem hplanned

theorem Reachable.fits (h : Reachable tree) : tree.Fits := by
  induction h with
  | fresh h => exact h.start.2.2.fits
  | @act tree h action ih =>
      cases action with
      | insert star =>
          exact act_insert_induction (fun htree h => htree.gains h) ih star
      | insertFlat values =>
          exact insertFlat_induction (fun htree h => htree.gains h) ih values
      | resizeBuffer capacity =>
          exact (vacant_resizeBuffer tree capacity).fits
      | runFrame oracle detail time =>
          obtain ⟨log, hframe⟩ := exists_runFrame_eq oracle detail time
          rw [Tree.act, hframe]
          exact ih.frame h.regular h.unnested oracle detail

section

variable (h : Reachable tree)
  (hwords : tree.settings.starsPerCell * tree.layout.width < 2 ^ 32)
  (oracle : Oracle) (detail : Detail)

include h

include hwords in
theorem Reachable.walked_flat :
    (tree.flat.walked oracle detail).1.get =
        (fun o => ((tree.walked oracle detail).1.get o).flat tree.layout
          (tree.domain.cube.child o)) ∧
      (tree.flat.walked oracle detail).2 = (tree.walked oracle detail).2 := by
  have hpass : (tree.pass oracle detail).Counts :=
    ⟨h.valid.position_pos, hwords⟩
  have hsized := all_octants_iff.mpr (h.regular.sized h.fits)
  exact Node.thread_flat
    (fun o => @Node.walk_flat (tree.pass oracle detail) (tree.octants o)
      (tree.domain.child o) hpass (hsized o)) { slots := tree.frameStart.1 }

/-- Only a frame that places every node anew looks for slots that are left
over, since only such a frame has any. -/
theorem Reachable.changes_walked :
    (if tree.frameStart.2 then
        (tree.walked oracle detail).2.stale.foldl
          (fun changes slot => changes.insertIfNew slot .vacate)
          (tree.walked oracle detail).2.changes
      else (tree.walked oracle detail).2.changes) =
      (tree.walked oracle detail).2.stale.foldl
        (fun changes slot => changes.insertIfNew slot .vacate)
        (tree.walked oracle detail).2.changes := by
  split
  · rfl
  · rename_i hkept
    rw [(agrees_frame oracle detail h.unnested).stale, settled,
      stale_settleAll (eq_false_of_ne_true hkept)]
    rfl

include hwords in
/-- A frame of a tree in columns is the frame of the tree. -/
theorem Reachable.runFrame_flat (time : Option Nat) :
    tree.flat.runFrame oracle detail time =
      ((tree.runFrame oracle detail time).tree.flat,
        (tree.runFrame oracle detail time).asked,
        (tree.runFrame oracle detail time).outcome) := by
  obtain ⟨hoctants, hwalk⟩ := h.walked_flat hwords oracle detail
  have hchanges := h.changes_walked oracle detail
  have hstart : tree.flat.frameStart = tree.frameStart := rfl
  rw [FlatTree.runFrame, hstart]
  simp only [hoctants, hwalk, hchanges]
  -- What is left is to see that the outcome is recorded in the same cases.
  have houtcome : (tree.frame oracle detail).outcome =
    if (tree.walked oracle detail).2.exhausted then _ else _ := rfl
  cases hexhausted : (tree.walked oracle detail).2.exhausted with
  | true =>
      rw [if_pos hexhausted] at houtcome
      simp only [runFrame, houtcome]
      rfl
  | false =>
      rw [if_neg (ne_true_of_eq_false hexhausted)] at houtcome
      cases time <;> simp only [runFrame, houtcome] <;> rfl

end

end Tree

end Starfield
