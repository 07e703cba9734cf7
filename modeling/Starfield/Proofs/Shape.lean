import Starfield.Proofs.Ownership
import Starfield.Proofs.Recount

/-!
# What the census says about the nodes

The figures kept are those of a fresh count.  This file says what such a count
means: how the figures are read off the nodes of the tree, and that the number
of inner nodes fixes the number of leaves, since every inner node has eight
children.
-/

namespace Starfield

namespace Census

/-- The figures of so many subtrees: each starts as one leaf, and every split
brings seven leaves and one inner node. -/
structure Grown (subtrees : Nat) (census : Census) : Prop where
  leaves : census.leaves = subtrees + 7 * census.splits
  inner : census.inner = census.splits

theorem Grown.add {m n : Nat} {c d : Census} (hc : c.Grown m)
    (hd : d.Grown n) : (c + d).Grown (m + n) := by
  obtain ⟨hleaves, hinner⟩ := hc
  obtain ⟨hleaves', hinner'⟩ := hd
  constructor
  · rw [leaves_add, splits_add, hleaves, hleaves']
    omega
  · rw [inner_add, splits_add, hinner, hinner']

theorem Grown.sum {tally : Octant → Census} (h : ∀ o, (tally o).Grown 1)
    (os : List Octant) : ((os.map tally).sum).Grown os.length := by
  induction os with
  | nil => exact ⟨rfl, rfl⟩
  | cons o os ih =>
      rw [List.map_cons, List.sum_cons, List.length_cons, Nat.add_comm]
      exact (h o).add ih

end Census

theorem Node.grown_tally (node : Node) (place : Place) :
    (node.tally place).Grown 1 := by
  induction node generalizing place with
  | leaf cell => exact ⟨rfl, rfl⟩
  | inner cell children ih =>
      -- The inner node takes the place of one of the eight leaves below it.
      obtain ⟨hleaves, hinner⟩ :=
        Census.Grown.sum (fun o => ih o (place.child o)) Octant.all
      rw [Octant.length_all] at hleaves
      rw [tally]
      constructor
      · rw [Census.leaves_add, Census.splits_add, hleaves]
        change 0 + _ = 1 + 7 * (1 + _)
        omega
      · rw [Census.inner_add, Census.splits_add, hinner]

/-! ## Figures of a listing -/

def Entry.isStocked (entry : Entry) : Bool :=
  entry.isLeaf && entry.cell.count ≠ 0

section

variable (entries : List Entry)

theorem leaves_sum_census :
    (entries.map Entry.census).sum.leaves =
      (entries.filter Entry.isLeaf).length := by
  induction entries with
  | nil => rfl
  | cons entry entries ih =>
      rw [List.map_cons, List.sum_cons, Census.leaves_add, ih, Entry.census,
        List.filter_cons]
      cases entry.isLeaf with
      | true => exact Nat.add_comm 1 _
      | false => exact Nat.zero_add _

theorem inner_sum_census :
    (entries.map Entry.census).sum.inner =
      (entries.filter fun entry => !entry.isLeaf).length := by
  induction entries with
  | nil => rfl
  | cons entry entries ih =>
      rw [List.map_cons, List.sum_cons, Census.inner_add, ih, Entry.census,
        List.filter_cons]
      cases entry.isLeaf with
      | true => exact Nat.zero_add _
      | false => exact Nat.add_comm 1 _

/-- The depth is the least one that no leaf with stars lies below. -/
theorem depth_sum_census_le_iff (depth : Nat) :
    (entries.map Entry.census).sum.depth ≤ depth ↔
      ∀ entry ∈ entries, entry.isStocked = true →
        entry.place.depth ≤ depth := by
  induction entries with
  | nil => exact iff_of_true (Nat.zero_le _) nofun
  | cons entry entries ih =>
      rw [List.map_cons, List.sum_cons, Census.depth_add, Nat.max_le, ih,
        List.forall_mem_cons]
      refine and_congr_left fun _ => ?_
      rw [Entry.census, Entry.isStocked]
      cases entry.isLeaf with
      | false => simp
      | true => by_cases hcount : entry.cell.count = 0 <;> simp [hcount]

end

theorem Place.depth_descend (place : Place) (path : List Octant) :
    (place.descend path).depth = place.depth + path.length := by
  induction path generalizing place with
  | nil => rfl
  | cons o path ih =>
      rw [descend, List.foldl_cons]
      refine (ih (place.child o)).trans ?_
      rw [depth_child, List.length_cons]
      omega

namespace Tree

variable {tree : Tree}

/-- A fresh count adds up the figures of all nodes. -/
theorem recount_eq_sum (tree : Tree) :
    tree.recount =
      { (tree.listing.map Entry.census).sum with
        stars :=
          (Octant.all.map fun o => (tree.octants o).cell.count).sum } := by
  rw [recount_eq, listing, List.map_flatMap, List.flatMap_def,
    List.sum_flatten, List.map_map]
  simp only [Function.comp_def, Node.sum_census_listing]

theorem depth_of_mem_listing {entry : Entry} (hentry : entry ∈ tree.listing) :
    entry.place.depth = entry.path.length := by
  obtain ⟨o, _, ho⟩ := List.mem_flatMap.mp hentry
  have hplace : entry.place = tree.domain.descend entry.path :=
    Node.place_of_mem_listing ho
  rw [hplace, Place.depth_descend]
  exact Nat.zero_add _

theorem grown_recount (tree : Tree) : tree.recount.Grown 8 := by
  obtain ⟨hleaves, hinner⟩ := Census.Grown.sum
    (fun o => (tree.octants o).grown_tally (tree.domain.child o)) Octant.all
  rw [recount_eq]
  exact ⟨hleaves, hinner⟩

/-- The figures kept are true of the nodes of the tree. -/
structure Surveyed (tree : Tree) : Prop where
  recount : tree.census = tree.recount
  leaves : tree.census.leaves = (tree.listing.filter Entry.isLeaf).length
  inner : tree.census.inner =
    (tree.listing.filter fun entry => !entry.isLeaf).length
  /-- The depth is that of the deepest leaf with stars. -/
  depth : ∀ depth, tree.census.depth ≤ depth ↔
    ∀ entry ∈ tree.listing, entry.isLeaf = true → entry.cell.stars ≠ #[] →
      entry.path.length ≤ depth
  stars : tree.census.stars =
    (Octant.all.map fun o => (tree.octants o).cell.count).sum
  /-- Every split brings seven leaves and one inner node. -/
  grown : tree.census.Grown 8

/-- A leaf counts the stars that it stores. -/
theorem Regular.isStocked_iff (h : tree.Regular) {entry : Entry}
    (hentry : entry ∈ tree.listing) :
    entry.isStocked = true ↔
      entry.isLeaf = true ∧ entry.cell.stars ≠ #[] := by
  rw [Entry.isStocked, Bool.and_eq_true, decide_eq_true_iff]
  refine and_congr_right fun hleaf => ?_
  rw [(h.of_mem_listing hentry).count hleaf, Ne, Array.size_eq_zero_iff]

/-- In every tree that a session can come to, the figures kept are those of a
fresh count and true of the nodes, also after stars that were refused and frames
that have failed. -/
theorem Reachable.surveyed (h : Reachable tree) : tree.Surveyed where
  recount := h.census_eq
  leaves := by
    rw [h.census_eq, recount_eq_sum]
    exact leaves_sum_census tree.listing
  inner := by
    rw [h.census_eq, recount_eq_sum]
    exact inner_sum_census tree.listing
  depth := fun depth => by
    rw [h.census_eq, recount_eq_sum]
    refine (depth_sum_census_le_iff tree.listing depth).trans ?_
    refine forall₂_congr fun entry hentry => ?_
    rw [h.regular.isStocked_iff hentry, and_imp, depth_of_mem_listing hentry]
  stars := by rw [h.census_eq, recount_eq_sum]
  grown := h.census_eq ▸ tree.grown_recount

/-- What a failed frame, a star that is refused and one that splits a leaf four
times over have left. -/
def crowdedSplit : Tree :=
  (crowdedTwice.act (.insert [])).act (.insert (List.replicate 8 .zero))

theorem surveyed_crowdedSplit :
    crowdedSplit.Surveyed ∧
      crowdedSplit.census =
        { leaves := 36, inner := 4, depth := 5, splits := 4, stars := 4 } := by
  refine ⟨Reachable.surveyed ((managed_crowdedTwice.reachable.act _).act _), ?_⟩
  decide +kernel

end Tree

end Starfield
