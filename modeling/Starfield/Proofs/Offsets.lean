import Mathlib.Data.Nat.Init
import Starfield.Proofs.Flat.Columns
import Starfield.Proofs.Shape

/-!
# Where values lie in chunks

A chunk has a block for each attribute that it carries, and every block has the
room that a full cell needs.  The attribute of a star lies in its block at a place
that depends on the layout and on the number of the star alone.  This file says
what stands at every place of a chunk: a value of a star or, behind the stars of a
block, a zero.  In every tree that a session can come to no value is cut off, so
the stars of all leaves are read back from a snapshot with all attributes.
-/

namespace Starfield

/-! ## Lists that are filled up -/

theorem getElem?_fit_of_lt {size place : Nat} {values : List Value}
    (hvalues : values.length ≤ size) (hplace : place < values.length) :
    (fit size values)[place]? = values[place]? := by
  rw [fit, List.take_of_length_le hvalues, List.rightpad,
    List.getElem?_append_left hplace]

theorem getElem?_fit_of_le {size place : Nat} {values : List Value}
    (hvalues : values.length ≤ place) (hplace : place < size) :
    (fit size values)[place]? = some .zero := by
  rw [fit, List.take_of_length_le (by omega), List.rightpad,
    List.getElem?_append_right hvalues, List.getElem?_replicate_of_lt (by omega)]

/-- In rows of equal width every value is found by the number of its row and its
place there. -/
theorem getElem?_flatMap_of_forall {α β : Type} {f : β → List α} {width : Nat}
    {xs : List β} (h : ∀ x ∈ xs, (f x).length = width) {number place : Nat}
    (hnumber : number < xs.length) (hplace : place < width) :
    (xs.flatMap f)[number * width + place]? = (f xs[number])[place]? := by
  have hslice := slice?_flatMap h hnumber (Nat.le_refl width)
  have hrow : (f xs[number]).length = width := h _ (List.getElem_mem hnumber)
  rw [slice?] at hslice
  split at hslice
  · rw [Option.some.injEq, List.take_of_length_le (Nat.le_of_eq hrow)] at hslice
    rw [← hslice, List.getElem?_drop, List.getElem?_take_of_lt (by omega)]
  · cases hslice

/-! ## Attributes -/

inductive Attribute where
  | position
  | color
  | motion

/-- The attributes that a chunk carries, in the order of their blocks. -/
def Detail.attributes : Detail → List Attribute
  | .positions => [.position]
  | .colors => [.position, .color]
  | .motion => [.position, .color, .motion]

namespace Attribute

def width (layout : Layout) : Attribute → Nat
  | position => layout.position
  | color => layout.color
  | motion => layout.motion

/-- The number of values of a star that come before the attribute. -/
def before (layout : Layout) : Attribute → Nat
  | position => 0
  | color => layout.position
  | motion => layout.position + layout.color

def of (layout : Layout) : Attribute → Star → List Value
  | position => layout.positionOf
  | color => layout.colorOf
  | motion => layout.motionOf

def earlier : Attribute → List Attribute
  | position => []
  | color => [.position]
  | motion => [.position, .color]

/-- Where a chunk has the attribute of the star with the given number. -/
def offset (layout : Layout) (capacity number : Nat) (which : Attribute) :
    Nat :=
  which.before layout * capacity + number * which.width layout

variable {layout : Layout} {star : Star}

theorem before_add_lt (layout : Layout) (which : Attribute) {place : Nat}
    (hplace : place < which.width layout) :
    which.before layout + place < layout.width := by
  rw [Layout.width]
  cases which <;> simp only [width, before] at hplace ⊢ <;> omega

theorem length_of (hstar : star.length = layout.width) (which : Attribute) :
    (which.of layout star).length = which.width layout := by
  cases which with
  | position => exact Layout.length_positionOf hstar
  | color => exact Layout.length_colorOf hstar
  | motion => exact Layout.length_motionOf hstar

theorem getElem?_of (layout : Layout) (star : Star) (which : Attribute)
    {place : Nat} (hplace : place < which.width layout) :
    (which.of layout star)[place]? =
      star[which.before layout + place]? := by
  cases which with
  | position =>
      rw [before, Nat.zero_add]
      exact List.getElem?_take_of_lt hplace
  | color =>
      refine (List.getElem?_take_of_lt hplace).trans ?_
      rw [List.getElem?_drop]
      rfl
  | motion =>
      rw [of, Layout.motionOf, List.getElem?_drop]
      rfl

end Attribute

/-! ## Chunks -/

namespace Cell

variable {layout : Layout} {capacity : Nat} {detail : Detail} {cell : Cell}
  {which : Attribute}

/-- The part of a chunk that has an attribute of all stars. -/
def block (layout : Layout) (capacity : Nat) (cell : Cell)
    (which : Attribute) : List Value :=
  fit (which.width layout * capacity)
    (cell.stars.toList.flatMap (which.of layout))

theorem chunk_eq_flatMap (layout : Layout) (capacity : Nat) (detail : Detail)
    (cell : Cell) :
    cell.chunk layout capacity detail =
      detail.attributes.flatMap (cell.block layout capacity) := by
  cases detail <;> simp [chunk, Detail.attributes, Detail.hasColor,
    Detail.hasMotion, block, Attribute.width, Attribute.of, positions, colors,
    motions]

/-- A block begins where the blocks of the attributes before it end. -/
theorem length_flatMap_earlier (layout : Layout) (capacity : Nat) (cell : Cell)
    (which : Attribute) :
    (which.earlier.flatMap (cell.block layout capacity)).length =
      which.before layout * capacity := by
  cases which <;> simp [Attribute.earlier, Attribute.before, Attribute.width,
    block, Nat.add_mul]

theorem exists_attributes_eq (hwhich : which ∈ detail.attributes) :
    ∃ later, detail.attributes = which.earlier ++ which :: later := by
  cases detail <;> cases which <;>
    simp [Detail.attributes, Attribute.earlier] at hwhich ⊢

/-- What stands in a block stands in the chunk, behind the blocks before it. -/
theorem getElem?_chunk (hwhich : which ∈ detail.attributes) {place : Nat}
    (hplace : place < which.width layout * capacity) :
    (cell.chunk layout capacity detail)[which.before layout * capacity + place]? =
      (cell.block layout capacity which)[place]? := by
  obtain ⟨later, hlater⟩ := exists_attributes_eq hwhich
  rw [chunk_eq_flatMap, hlater, List.flatMap_append, List.flatMap_cons,
    List.getElem?_append_right (by rw [length_flatMap_earlier]; omega),
    length_flatMap_earlier, Nat.add_sub_cancel_left]
  exact List.getElem?_append_left (by rw [block, length_fit]; exact hplace)

/-- Every place of a chunk lies in one of its blocks. -/
theorem exists_eq_before_add {place : Nat}
    (hplace : place < layout.widthFor detail * capacity) :
    ∃ which ∈ detail.attributes, ∃ rest < which.width layout * capacity,
      place = which.before layout * capacity + rest := by
  have hlast : (layout.position + layout.color) * capacity =
      layout.position * capacity + layout.color * capacity := Nat.add_mul _ _ _
  by_cases hposition : place < layout.position * capacity
  · refine ⟨.position, ?_, place, hposition, ?_⟩
    · cases detail <;> simp [Detail.attributes]
    · rw [Attribute.before, Nat.zero_mul, Nat.zero_add]
  by_cases hcolor : place < (layout.position + layout.color) * capacity
  · refine ⟨.color, ?_, place - layout.position * capacity, ?_, ?_⟩
    · cases detail with
      | positions => exact absurd hplace hposition
      | colors => simp [Detail.attributes]
      | motion => simp [Detail.attributes]
    · rw [Attribute.width]
      omega
    · rw [Attribute.before]
      omega
  · obtain rfl : detail = .motion := by
      cases detail with
      | positions => exact absurd hplace hposition
      | colors => exact absurd hplace hcolor
      | motion => rfl
    rw [Layout.widthFor_motion, Layout.width, Nat.add_mul] at hplace
    refine ⟨.motion, by simp [Detail.attributes],
      place - (layout.position + layout.color) * capacity, ?_, ?_⟩
    · rw [Attribute.width]
      omega
    · rw [Attribute.before]
      omega

/-- The chunk of a cell has the values of its stars at fixed places, and zeros
everywhere else. -/
structure Laid (layout : Layout) (capacity : Nat) (detail : Detail)
    (cell : Cell) : Prop where
  length : (cell.chunk layout capacity detail).length =
    layout.widthFor detail * capacity
  /-- No values are cut off. -/
  kept : ∀ which ∈ detail.attributes,
    (cell.stars.toList.flatMap (which.of layout)).length ≤
      which.width layout * capacity
  value : ∀ which ∈ detail.attributes,
    ∀ number (hnumber : number < cell.stars.size),
    ∀ place < which.width layout,
      ∃ value, cell.stars[number][which.before layout + place]? = some value ∧
        (cell.chunk layout capacity detail)[
          which.offset layout capacity number + place]? = some value
  zero : ∀ place < layout.widthFor detail * capacity,
    (∀ which ∈ detail.attributes, ∀ number < cell.stars.size,
      ∀ rest < which.width layout,
        place ≠ which.offset layout capacity number + rest) →
    (cell.chunk layout capacity detail)[place]? = some .zero

end Cell

namespace Stocked

variable {layout : Layout} {capacity : Nat} {cell : Cell}

theorem length_flatMap_of (h : Stocked layout capacity cell.stars)
    (which : Attribute) :
    (cell.stars.toList.flatMap (which.of layout)).length =
      cell.stars.size * which.width layout := by
  rw [← Array.length_toList]
  exact length_flatMap_of_forall fun star hstar =>
    Attribute.length_of (h.whole_toList star hstar) which

/-- The stars of a cell have room in a block, whatever attribute it has. -/
theorem size_mul_le (h : Stocked layout capacity cell.stars) (width : Nat) :
    cell.stars.size * width ≤ width * capacity := by
  rw [Nat.mul_comm]
  exact Nat.mul_le_mul_left width h.room

theorem getElem?_block (h : Stocked layout capacity cell.stars)
    (which : Attribute) {number place : Nat} (hnumber : number < cell.stars.size)
    (hplace : place < which.width layout) :
    (cell.block layout capacity which)[number * which.width layout + place]? =
      cell.stars[number][which.before layout + place]? := by
  have hlength := h.length_flatMap_of which
  have hinside : number * which.width layout + place <
      cell.stars.size * which.width layout := by
    rw [Nat.mul_comm number]
    exact Nat.mul_add_lt_mul_of_lt_of_lt hnumber hplace
  rw [Cell.block, getElem?_fit_of_lt (hlength ▸ h.size_mul_le _)
    (hlength ▸ hinside),
    getElem?_flatMap_of_forall (fun star hstar =>
      Attribute.length_of (h.whole_toList star hstar) which)
      (by rwa [Array.length_toList]) hplace,
    Array.getElem_toList, Attribute.getElem?_of layout _ which hplace]

/-- All that a cell holds is found in its chunk, whatever attributes that
carries. -/
theorem laid (h : Stocked layout capacity cell.stars) (detail : Detail) :
    cell.Laid layout capacity detail where
  length := Cell.length_chunk layout capacity detail cell
  kept which _ := by
    rw [h.length_flatMap_of]
    exact h.size_mul_le _
  value which hwhich number hnumber place hplace := by
    have hstar := h.whole _ (Array.getElem_mem hnumber)
    have hinside : number * which.width layout + place <
        which.width layout * capacity := by
      rw [Nat.mul_comm number, Nat.mul_comm _ capacity]
      exact Nat.mul_add_lt_mul_of_lt_of_lt
        (Nat.lt_of_lt_of_le hnumber h.room) hplace
    have hvalue := which.before_add_lt layout hplace
    rw [← hstar] at hvalue
    refine ⟨_, List.getElem?_eq_getElem hvalue, ?_⟩
    rw [Attribute.offset, Nat.add_assoc, Cell.getElem?_chunk hwhich hinside,
      h.getElem?_block which hnumber hplace]
    exact List.getElem?_eq_getElem hvalue
  zero place hplace hnone := by
    obtain ⟨which, hwhich, rest, hrest, rfl⟩ := Cell.exists_eq_before_add hplace
    rw [Cell.getElem?_chunk hwhich hrest, Cell.block]
    refine getElem?_fit_of_le ?_ hrest
    rw [h.length_flatMap_of]
    -- What lies before the end of the stars belongs to one of them.
    by_contra hstars
    have hlt : rest < cell.stars.size * which.width layout := by omega
    have hwidth : 0 < which.width layout := by
      by_contra hwidth
      rw [Nat.eq_zero_of_not_pos hwidth, Nat.mul_zero] at hlt
      exact Nat.not_lt_zero _ hlt
    refine hnone which hwhich (rest / which.width layout)
      ((Nat.div_lt_iff_lt_mul hwidth).mpr hlt) (rest % which.width layout)
      (Nat.mod_lt _ hwidth) ?_
    rw [Attribute.offset, Nat.add_assoc, Nat.div_add_mod']

end Stocked

/-! ## Stars read back -/

namespace Layout

/-- The star with the given number, picked out of a chunk with all attributes. -/
def pick (layout : Layout) (capacity : Nat) (chunk : List Value) (number : Nat) :
    Star :=
  Detail.motion.attributes.flatMap fun which =>
    (chunk.drop (which.offset layout capacity number)).take (which.width layout)

/-- The stars of leaves with the given numbers of stars, read back from their
chunks. -/
def recover (layout : Layout) (capacity : Nat) (counts : List Nat)
    (values : List Value) : List (List Star) :=
  (rows (layout.width * capacity) counts.length values).zipWith
    (fun chunk count => (List.range count).map (layout.pick capacity chunk))
    counts

end Layout

namespace Stocked

variable {layout : Layout} {capacity : Nat} {cell : Cell}

theorem pick_chunk (h : Stocked layout capacity cell.stars) {number : Nat}
    (hnumber : number < cell.stars.size) :
    layout.pick capacity (cell.chunk layout capacity .motion) number =
      cell.stars[number] := by
  have hstar := h.whole _ (Array.getElem_mem hnumber)
  have hattribute : ∀ which ∈ Detail.motion.attributes,
      ((cell.chunk layout capacity .motion).drop
        (which.offset layout capacity number)).take (which.width layout) =
        which.of layout cell.stars[number] := by
    intro which hwhich
    apply List.ext_getElem?
    intro place
    by_cases hplace : place < which.width layout
    · obtain ⟨value, hvalue, hchunk⟩ :=
        (h.laid .motion).value which hwhich number hnumber place hplace
      rw [List.getElem?_take_of_lt hplace, List.getElem?_drop, hchunk,
        Attribute.getElem?_of layout _ which hplace, hvalue]
    · rw [List.getElem?_eq_none, List.getElem?_eq_none]
      · rw [Attribute.length_of hstar]
        omega
      · rw [List.length_take]
        omega
  rw [Layout.pick, List.flatMap_def, List.map_congr_left hattribute]
  simp only [Detail.attributes, List.map_cons, List.map_nil, List.flatten_cons,
    List.flatten_nil, List.append_nil, ← List.append_assoc]
  exact layout.positionOf_append_colorOf_append_motionOf cell.stars[number]

theorem map_pick_chunk (h : Stocked layout capacity cell.stars) :
    (List.range cell.stars.size).map
        (layout.pick capacity (cell.chunk layout capacity .motion)) =
      cell.stars.toList := by
  apply List.ext_getElem
  · simp
  · intro number hleft hright
    rw [List.getElem_map, List.getElem_range]
    exact h.pick_chunk _

end Stocked

namespace Tree

def leaves (tree : Tree) : List Entry :=
  tree.listing.filter Entry.isLeaf

/-- Every node has the values of its stars at fixed places of its chunk, a snapshot
has the chunks of the leaves one after the other, and a snapshot that carries
everything gives all stars back. -/
structure Placed (tree : Tree) : Prop where
  cells : ∀ detail, ∀ entry ∈ tree.listing,
    entry.cell.Laid tree.layout tree.settings.starsPerCell detail
  leaves : tree.leaves.length = tree.census.leaves
  length : ∀ detail, (tree.snapshot detail).length =
    tree.census.leaves * tree.chunkLength detail
  chunk : ∀ detail number (hnumber : number < tree.leaves.length),
    slice? (tree.snapshot detail) (number * tree.chunkLength detail)
        (number * tree.chunkLength detail + tree.chunkLength detail) =
      some (tree.leaves[number].cell.chunk tree.layout
        tree.settings.starsPerCell detail)
  stars : tree.layout.recover tree.settings.starsPerCell
      (tree.leaves.map fun entry => entry.cell.count) (tree.snapshot .motion) =
    tree.leaves.map fun entry => entry.cell.stars.toList

variable {tree : Tree}

theorem snapshot_eq_flatMap (tree : Tree) (detail : Detail) :
    tree.snapshot detail = tree.leaves.flatMap fun entry =>
      entry.cell.chunk tree.layout tree.settings.starsPerCell detail := rfl

theorem length_snapshot (tree : Tree) (detail : Detail) :
    (tree.snapshot detail).length =
      tree.leaves.length * tree.chunkLength detail :=
  length_flatMap_of_forall fun _ _ => Cell.length_chunk _ _ _ _

theorem Reachable.length_leaves (h : Reachable tree) :
    tree.leaves.length = tree.census.leaves := by
  rw [h.census_eq, recount_eq_sum]
  exact (leaves_sum_census tree.listing).symm

/-- Every leaf has its chunk in a snapshot, behind those of the leaves before it. -/
theorem slice?_snapshot (tree : Tree) (detail : Detail) {number : Nat}
    (hnumber : number < tree.leaves.length) :
    slice? (tree.snapshot detail) (number * tree.chunkLength detail)
        (number * tree.chunkLength detail + tree.chunkLength detail) =
      some (tree.leaves[number].cell.chunk tree.layout
        tree.settings.starsPerCell detail) := by
  have hlength := Cell.length_chunk tree.layout tree.settings.starsPerCell
    detail tree.leaves[number].cell
  rw [snapshot_eq_flatMap, chunkLength,
    slice?_flatMap (fun _ _ => Cell.length_chunk _ _ _ _) hnumber
      (Nat.le_refl _), List.take_of_length_le (Nat.le_of_eq hlength)]

/-- The stars of all leaves are read back from a snapshot with all attributes. -/
theorem Regular.recover_snapshot (h : tree.Regular) :
    tree.layout.recover tree.settings.starsPerCell
        (tree.leaves.map fun entry => entry.cell.count)
        (tree.snapshot .motion) =
      tree.leaves.map fun entry => entry.cell.stars.toList := by
  have hchunks : rows (tree.layout.width * tree.settings.starsPerCell)
      tree.leaves.length (tree.snapshot .motion) =
        tree.leaves.map fun entry =>
          entry.cell.chunk tree.layout tree.settings.starsPerCell .motion := by
    rw [snapshot_eq_flatMap, ← List.append_nil (tree.leaves.flatMap _)]
    refine rows_flatMap_append (fun _ _ => ?_) []
    rw [Cell.length_chunk, Layout.widthFor_motion]
  rw [Layout.recover, List.length_map, hchunks, List.zipWith_map,
    List.zipWith_self]
  refine List.map_congr_left fun entry hentry => ?_
  obtain ⟨hmem, hleaf⟩ := List.mem_filter.mp hentry
  have hcell := h.of_mem_listing hmem
  rw [hcell.count hleaf, hcell.stocked.map_pick_chunk]

/-- In every tree that a session can come to, the chunks of all nodes have their
values at fixed places, whatever attributes they carry, and nothing that the
leaves store is lost in a snapshot. -/
theorem Reachable.laid_out (h : Reachable tree) : tree.Placed where
  cells detail entry hentry :=
    (h.regular.of_mem_listing hentry).stocked.laid detail
  leaves := h.length_leaves
  length detail := by rw [length_snapshot, h.length_leaves]
  chunk detail _ hnumber := tree.slice?_snapshot detail hnumber
  stars := h.regular.recover_snapshot

/-- A star whose first colour is not a number. -/
def tintedStar : Star :=
  [⟨0xbf800000⟩, ⟨0x3f800000⟩, ⟨0x3f800000⟩, ⟨0x7fc01234⟩, ⟨1⟩, ⟨2⟩, ⟨3⟩, ⟨4⟩]

/-- Two stars fill a leaf, and one leaf has a star. -/
def tinted : Tree :=
  Tree.act { settings := { starsPerCell := 2 }, layout := {} }
    (.insert tintedStar)

/-- The star is in the second of eight leaves, and each of its attributes is
followed by the room for another one. -/
theorem laid_out_tinted :
    (tinted.snapshot .motion).length = 8 * 16 ∧
      slice? (tinted.snapshot .motion) 16 32 =
        some (tintedStar.take 3 ++ List.replicate 3 .zero ++
          (tintedStar.drop 3).take 2 ++ List.replicate 2 .zero ++
          tintedStar.drop 5 ++ List.replicate 3 .zero) ∧
      Layout.recover {} 2 [0, 1, 0, 0, 0, 0, 0, 0] (tinted.snapshot .motion) =
        [[], [tintedStar], [], [], [], [], [], []] := by
  have hreachable : Reachable tinted :=
    (Reachable.fresh (@Fresh.created { starsPerCell := 2 } {} _ rfl)).act _
  have hcounts : (tinted.leaves.map fun entry => entry.cell.count) =
      [0, 1, 0, 0, 0, 0, 0, 0] := by
    decide +kernel
  have hstars : (tinted.leaves.map fun entry => entry.cell.stars.toList) =
      [[], [tintedStar], [], [], [], [], [], []] := by
    decide +kernel
  have hleaves : tinted.census.leaves = 8 := by decide +kernel
  have hnumber : 1 < tinted.leaves.length := by decide +kernel
  have hchunk : ∀ hnumber : 1 < tinted.leaves.length,
      tinted.leaves[1].cell.chunk {} 2 .motion =
        tintedStar.take 3 ++ List.replicate 3 .zero ++
          (tintedStar.drop 3).take 2 ++ List.replicate 2 .zero ++
          tintedStar.drop 5 ++ List.replicate 3 .zero := by
    decide +kernel
  have hplaced := Reachable.laid_out hreachable
  have hlength := hplaced.length .motion
  have hrecover := hplaced.stars
  rw [hleaves] at hlength
  rw [hcounts, hstars] at hrecover
  exact ⟨hlength, hchunk hnumber ▸ hplaced.chunk .motion 1 hnumber, hrecover⟩

end Tree

end Starfield
