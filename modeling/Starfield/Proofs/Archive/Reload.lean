import Starfield.Proofs.Recount
import Starfield.Proofs.Replies

/-!
# Reloading a tree

A tree that is written and read back has all its nodes again, but no buffer.
This holds of every tree that a session can come to, as long as its numbers fit
into the words that are written; the shape of the tree, its cubes and its
figures are not stored, and still they come out the same.  Once both trees are
given a buffer, nobody can tell them apart.
-/

namespace Starfield

def Entry.clear (entry : Entry) : Entry :=
  { entry with cell := entry.cell.clear }

namespace Node

theorem listing_clear (node : Node) (path : List Octant) (place : Place) :
    node.clear.listing path place =
      (node.listing path place).map Entry.clear := by
  induction node generalizing path place with
  | leaf cell => rfl
  | inner cell children ih =>
      rw [clear_inner, listing, listing, List.map_cons, List.map_flatMap]
      simp only [ih]
      rfl

/-- Nothing of the buffer is written. -/
theorem encode_clear (layout : Layout) (node : Node) :
    node.clear.encode layout = node.encode layout := by
  induction node with
  | leaf cell => rfl
  | inner cell children ih =>
      rw [clear_inner, encode_inner, encode_inner]
      simp only [ih]
      rfl

end Node

/-- A regular cell may be stored when its numbers fit. -/
theorem Cell.stored_clear {layout : Layout} {capacity : Nat} {isLeaf : Bool}
    {cell : Cell} (h : cell.Regular layout capacity isLeaf)
    (hcount : cell.count < 2 ^ 31)
    (hsize : (cell.values layout).length < 2 ^ 31) :
    cell.clear.Stored layout capacity isLeaf :=
  ⟨⟨h.stocked, h.count⟩, rfl, hcount, hsize⟩

namespace Tree

/-- The tree without its buffer. -/
def bare (tree : Tree) : Tree :=
  { settings := tree.settings
    layout := tree.layout
    octants := fun o => (tree.octants o).clear
    census := tree.census }

/-- All numbers that are written fit into words with a sign. -/
structure Writable (tree : Tree) : Prop where
  width : tree.layout.width < 2 ^ 31
  capacity : tree.settings.starsPerCell < 2 ^ 31
  cells : ∀ entry ∈ tree.listing, entry.cell.count < 2 ^ 31 ∧
    (entry.cell.values tree.layout).length < 2 ^ 31

variable {tree : Tree}

theorem alike_bare (tree : Tree) : tree.Alike tree.bare :=
  ⟨⟨rfl, fun o => (tree.octants o).clear_clear⟩, rfl, rfl⟩

theorem encode_bare (tree : Tree) : tree.bare.encode = tree.encode := by
  rw [encode, encode]
  simp only [bare, Node.encode_clear]

theorem listing_bare (tree : Tree) :
    tree.bare.listing = tree.listing.map Entry.clear := by
  rw [listing, listing, List.map_flatMap]
  exact List.flatMap_congr fun o _ => Node.listing_clear _ _ _

/-- Without its buffer every tree that a session can come to may be stored. -/
theorem Reachable.archived_bare (h : Reachable tree) (hfits : tree.Writable) :
    tree.bare.Archived where
  valid := h.valid.congr rfl rfl
  width := Layout.signed_width_of_lt hfits.width
  capacity_lt := hfits.capacity
  octants o := by
    refine ⟨?_, (Node.within_clear _).mpr (h.regular.within o)⟩
    rw [Node.all_iff _ [o] (tree.domain.child o)]
    intro entry hentry
    have hentry' : entry ∈ tree.listing.map Entry.clear := by
      rw [← listing_bare]
      exact List.mem_flatMap.mpr ⟨o, Octant.mem_all o, hentry⟩
    obtain ⟨before, hbefore, rfl⟩ := List.mem_map.mp hentry'
    obtain ⟨hcount, hsize⟩ := hfits.cells before hbefore
    exact Cell.stored_clear (h.regular.of_mem_listing hbefore) hcount hsize
  slots := rfl
  census := h.census_eq.trans (recount_of_alike tree.alike_bare).symm
  log := rfl

theorem resizeBuffer_bare (tree : Tree) (capacity : Nat) :
    tree.bare.resizeBuffer capacity =
      (tree.resizeBuffer capacity).withLog {} := by
  simp only [resizeBuffer, withOctants, Octet.get_ofFamily, bare,
    Node.clear_clear]
  rfl

/-- The loaded tree has everything that the tree had but its buffer, and with a
buffer it replies as the tree does. -/
structure Reloads (tree loaded : Tree) : Prop where
  settings : loaded.settings = tree.settings
  layout : loaded.layout = tree.layout
  /-- The same nodes in the same cubes with the same counts and stars, and no
  slots. -/
  listing : loaded.listing = tree.listing.map Entry.clear
  census : loaded.census = tree.census
  residents : loaded.residents = []
  slots : loaded.slots = .ofCapacity 0
  replies : ∀ (capacity : Nat) (actions : List Action),
    (loaded.act (.resizeBuffer capacity)).replies actions =
      (tree.act (.resizeBuffer capacity)).replies actions

theorem reloads_bare (tree : Tree) : tree.Reloads tree.bare where
  settings := rfl
  layout := rfl
  listing := tree.listing_bare
  census := rfl
  residents := by
    rw [residents, listing_bare, List.filter_eq_nil_iff]
    intro entry hentry
    obtain ⟨before, _, rfl⟩ := List.mem_map.mp hentry
    exact Bool.false_ne_true
  slots := rfl
  replies capacity actions := by
    rw [act, resizeBuffer_bare]
    exact replies_withLog _ _ actions

/-- What has been written for a tree is read back, whatever follows it and
whatever number of stars a cell was said to hold. -/
theorem Reachable.reload (h : Reachable tree) (hfits : tree.Writable)
    (starsPerCell : Nat) (extra : Bytes) :
    ∃ loaded,
      Tree.decode { tree.settings with starsPerCell } tree.layout
          (tree.encode ++ extra) = .ok loaded ∧
        tree.Reloads loaded := by
  refine ⟨tree.bare, ?_, tree.reloads_bare⟩
  rw [← encode_bare, decode_eq_ok_iff]
  exact ⟨extra, (h.archived_bare hfits).decodeFront_encode_append rfl extra⟩

theorem writable_crowdedTwice : crowdedTwice.Writable where
  width := by decide +kernel
  capacity := by decide +kernel
  cells := by decide +kernel

/-- A tree that a failed frame has left behind is read back, although it is said
that no cell may hold a star and one more byte follows. -/
theorem reload_crowdedTwice :
    ∃ loaded,
      Tree.decode { crowdedSettings with starsPerCell := 0 } {}
          (crowdedTwice.encode ++ [7]) = .ok loaded ∧
        crowdedTwice.Reloads loaded := by
  have hsettings : crowdedTwice.settings = crowdedSettings := rfl
  have hlayout : crowdedTwice.layout = {} := rfl
  rw [← hsettings, ← hlayout]
  exact Reachable.reload managed_crowdedTwice.reachable writable_crowdedTwice 0
    [7]

end Tree

end Starfield
