import Starfield.Proofs.Frame.Outcome
import Starfield.Proofs.Growth
import Starfield.Proofs.Thinning

/-!
# Regular nodes

Every cell holds whole stars, no more of them than a cell may hold, and the
count of a leaf is the number of its stars.  No inner node lies at the depth
limit or below it.  This file proves that taking a star keeps nodes so, whatever
numbers the star is made of.
-/

namespace Starfield

/-- The stars are whole, and there are no more of them than a cell may hold. -/
structure Stocked (layout : Layout) (capacity : Nat) (stars : Array Star) :
    Prop where
  room : stars.size ≤ capacity
  whole : ∀ star ∈ stars, star.length = layout.width

/-- The seed of a sample is as wide as a star. -/
theorem Layout.length_seed {layout : Layout} (h : 3 ≤ layout.position)
    (center : Point) : (layout.seed center).length = layout.width := by
  rw [seed, List.length_append, Point.length_values, List.length_replicate,
    width]
  omega

namespace Stocked

variable {layout : Layout} {capacity : Nat} {stars : Array Star} {star : Star}

theorem empty (layout : Layout) (capacity : Nat) :
    Stocked layout capacity #[] :=
  ⟨Nat.zero_le _, fun _ hstar => absurd hstar (Array.not_mem_empty _)⟩

theorem whole_toList (h : Stocked layout capacity stars) :
    ∀ star ∈ stars.toList, star.length = layout.width :=
  fun star hstar => h.whole star (Array.mem_toList_iff.mp hstar)

theorem push (h : Stocked layout capacity stars)
    (hroom : stars.size < capacity) (hstar : star.length = layout.width) :
    Stocked layout capacity (stars.push star) := by
  refine ⟨?_, fun other hother => ?_⟩
  · rw [Array.size_push]
    exact hroom
  · rcases Array.mem_push.mp hother with hold | rfl
    · exact h.whole other hold
    · exact hstar

theorem part (h : Stocked layout capacity stars) (cube : Cube) (o : Octant) :
    Stocked layout capacity (cube.part stars o) := by
  refine ⟨Nat.le_trans Array.size_filter_le h.room, fun star hstar => ?_⟩
  exact h.whole star (Array.mem_filter.mp hstar).1

theorem offer (h : Stocked layout capacity stars)
    (hstar : star.length = layout.width) (cube : Cube) :
    Stocked layout capacity (cube.offer capacity stars star) := by
  rw [Cube.offer]
  split
  · rename_i hadmits
    rw [Cube.admits, Bool.and_eq_true] at hadmits
    exact h.push (of_decide_eq_true hadmits.1) hstar
  · exact h

theorem offers (h : Stocked layout capacity stars) {more : List Star}
    (hmore : ∀ star ∈ more, star.length = layout.width) (cube : Cube) :
    Stocked layout capacity (more.foldl (cube.offer capacity) stars) := by
  induction more generalizing stars with
  | nil => exact h
  | cons star more ih =>
      rw [List.forall_mem_cons] at hmore
      exact ih (h.offer hmore.1 cube) hmore.2

/-- A sample is no larger than a leaf may be, and its seed is a whole star. -/
theorem sample {settings : Settings} (hcapacity : 0 < settings.starsPerCell)
    (hlayout : 3 ≤ layout.position)
    (h : Stocked layout settings.starsPerCell stars) (place : Place) :
    Stocked layout settings.starsPerCell
      (settings.sample layout place stars) := by
  rw [Settings.sample]
  split
  · rw [← Array.foldl_toList]
    have hseed := (empty layout settings.starsPerCell).push hcapacity
      (Layout.length_seed hlayout place.cube.center)
    exact hseed.offers h.whole_toList place.cube
  · exact empty _ _

end Stocked

/-- The stars of the cell are as they have to be, and the count of a leaf is the
number of its stars. -/
structure Cell.Regular (layout : Layout) (capacity : Nat) (isLeaf : Bool)
    (cell : Cell) : Prop where
  stocked : Stocked layout capacity cell.stars
  count : isLeaf = true → cell.count = cell.stars.size

namespace Node

variable {settings : Settings} {layout : Layout} {star : Star} {place : Place}
  {node next : Node}

theorem regular_partLeaf {capacity : Nat} {stars : Array Star}
    (h : Stocked layout capacity stars) (place : Place) (o : Octant) :
    (partLeaf place stars o).All (Cell.Regular layout capacity) :=
  ⟨h.part place.cube o, fun _ => rfl⟩

theorem regular_passed {isLeaf : Bool} {cell : Cell}
    (hstar : star.length = layout.width)
    (h : Stocked layout settings.starsPerCell cell.stars)
    (hinner : isLeaf = false) (place : Place) :
    (cell.passed settings star place).Regular layout settings.starsPerCell
      isLeaf := by
  refine ⟨?_, fun hleaf => absurd (hinner.symm.trans hleaf) (by decide)⟩
  simp only [Cell.passed]
  split
  · exact h.offer hstar place.cube
  · exact h

/-- Taking a star keeps all cells regular. -/
theorem Gains.regular (hcapacity : 0 < settings.starsPerCell)
    (hlayout : 3 ≤ layout.position) (hstar : star.length = layout.width)
    (h : Gains settings layout star place node next)
    (hnode : node.All (Cell.Regular layout settings.starsPerCell)) :
    next.All (Cell.Regular layout settings.starsPerCell) := by
  induction h with
  | joined hroom =>
      rw [hnode.count rfl] at hroom
      refine ⟨hnode.stocked.push hroom hstar, fun _ => ?_⟩
      rw [Cell.joined, Cell.push, Array.size_push, hnode.count rfl]
  | @parted place cell child _ _ ih =>
      have hparts := regular_partLeaf hnode.stocked place
      refine ⟨?_, forall_replace (ih (hparts _)) hparts⟩
      exact regular_passed hstar (hnode.stocked.sample hcapacity hlayout place)
        rfl place
  | passed _ ih =>
      exact ⟨regular_passed hstar hnode.1.stocked rfl _,
        forall_replace (ih (hnode.2 _)) hnode.2⟩

/-! ## Levels -/

/-- At most so many levels of inner nodes lie one below the other. -/
def Within (levels : Nat) : Node → Prop
  | leaf _ => True
  | inner _ children =>
      0 < levels ∧ ∀ o, (children o).Within (levels - 1)

/-- A leaf that takes a star is split no further than it may be. -/
theorem within_of_grow? {levels : Nat} {cell : Cell} {growth : Growth}
    (h : cell.grow? settings layout star levels place = some (next, growth)) :
    next.Within levels := by
  induction levels generalizing place cell next growth with
  | zero =>
      rw [Cell.grow?] at h
      split at h <;> cases h
      trivial
  | succ levels ih =>
      rw [Cell.grow?] at h
      split at h
      · cases h
        trivial
      · rw [Option.map_eq_some_iff] at h
        obtain ⟨⟨child, below⟩, hchild, hnext⟩ := h
        cases hnext
        rw [ofFamily_eq]
        refine ⟨Nat.succ_pos levels, ?_⟩
        exact @forall_replace (fun _ child => child.Within levels)
          (partLeaf place cell.stars) _ _ (ih hchild) fun _ => trivial

theorem within_of_insert? {growth : Growth}
    (h : node.insert? settings layout star place = some (next, growth))
    (hnode : node.Within (settings.depthLimit - place.depth)) :
    next.Within (settings.depthLimit - place.depth) := by
  induction node generalizing place next growth with
  | leaf cell => exact within_of_grow? h
  | inner cell children ih =>
      rw [insert?, Option.map_eq_some_iff] at h
      obtain ⟨⟨child, below⟩, hchild, hnext⟩ := h
      cases hnext
      rw [ofFamily_eq]
      obtain ⟨hpos, hchildren⟩ := hnode
      refine ⟨hpos, forall_replace
        (P := fun _ child => child.Within (settings.depthLimit - place.depth - 1))
        ?_ hchildren⟩
      exact ih _ hchild (hchildren _)

/-- Every node fills the cube that its path leads to. -/
theorem place_of_mem_listing {root : Place} {path : List Octant}
    {entry : Entry} (hentry : entry ∈ node.listing path (root.descend path)) :
    entry.place = root.descend entry.path := by
  induction node generalizing path with
  | leaf cell =>
      rw [listing, List.mem_singleton] at hentry
      subst entry
      rfl
  | inner cell children ih =>
      rw [listing, List.mem_cons, List.mem_flatMap] at hentry
      rcases hentry with rfl | ⟨o, _, ho⟩
      · rfl
      · refine @ih o (path ++ [o]) ?_
        rw [Place.descend, List.foldl_append]
        exact ho

/-! ## Slots do not matter -/

theorem all_clear {P : Bool → Cell → Prop}
    (hP : ∀ isLeaf cell, P isLeaf cell.clear ↔ P isLeaf cell) (node : Node) :
    node.clear.All P ↔ node.All P := by
  induction node with
  | leaf cell => exact hP true cell
  | inner cell children ih =>
      rw [clear_inner]
      exact and_congr (hP false cell) (forall_congr' ih)

theorem regular_clear {capacity : Nat} (node : Node) :
    node.clear.All (Cell.Regular layout capacity) ↔
      node.All (Cell.Regular layout capacity) :=
  all_clear (fun _ _ => ⟨fun h => ⟨h.stocked, h.count⟩,
    fun h => ⟨h.stocked, h.count⟩⟩) node

theorem within_clear {levels : Nat} (node : Node) :
    node.clear.Within levels ↔ node.Within levels := by
  induction node generalizing levels with
  | leaf cell => exact Iff.rfl
  | inner cell children ih =>
      rw [clear_inner]
      exact and_congr_right fun _ => forall_congr' fun o => ih o

end Node

end Starfield
