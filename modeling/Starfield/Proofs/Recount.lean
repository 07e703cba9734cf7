import Mathlib.Algebra.BigOperators.Group.List.Basic
import Mathlib.Algebra.GroupWithZero.Nat
import Starfield.Proofs.Contents

/-!
# The census is what a recount gives

The figures of a tree are counted once when it is read and then only brought up
to date by every star.  Figures of disjoint parts add up, the depth as a
maximum, so this file proves what one star adds to the figures of the subtree
that takes it, and from this that the figures never differ from a fresh count.
-/

namespace Starfield

attribute [ext] Census

namespace Census

/-- The figures of two parts together. -/
instance : Add Census where
  add c d :=
    { leaves := c.leaves + d.leaves
      inner := c.inner + d.inner
      depth := max c.depth d.depth
      splits := c.splits + d.splits
      stars := c.stars + d.stars }

instance : Zero Census := ⟨{}⟩

variable (c d : Census)

-- With these, all five, `simp` takes sums of figures apart field by field.
@[simp]
theorem leaves_add : (c + d).leaves = c.leaves + d.leaves := rfl

@[simp]
theorem inner_add : (c + d).inner = c.inner + d.inner := rfl

@[simp]
theorem depth_add : (c + d).depth = max c.depth d.depth := rfl

@[simp]
theorem splits_add : (c + d).splits = c.splits + d.splits := rfl

@[simp]
theorem stars_add : (c + d).stars = c.stars + d.stars := rfl

instance : AddCommMonoid Census where
  add_assoc a b c := by
    ext
    · exact Nat.add_assoc _ _ _
    · exact Nat.add_assoc _ _ _
    · exact Nat.max_assoc _ _ _
    · exact Nat.add_assoc _ _ _
    · exact Nat.add_assoc _ _ _
  zero_add c := by
    ext
    · exact Nat.zero_add _
    · exact Nat.zero_add _
    · exact Nat.zero_max _
    · exact Nat.zero_add _
    · exact Nat.zero_add _
  add_zero c := by
    ext
    · rfl
    · rfl
    · exact Nat.max_zero _
    · rfl
    · rfl
  add_comm c d := by
    ext
    · exact Nat.add_comm _ _
    · exact Nat.add_comm _ _
    · exact Nat.max_comm _ _
    · exact Nat.add_comm _ _
    · exact Nat.add_comm _ _
  nsmul := nsmulRec

end Census

/-- What one star adds to the figures, the star itself left out. -/
def Growth.shape (growth : Growth) : Census :=
  { leaves := 7 * growth.splits
    inner := growth.splits
    depth := growth.depth
    splits := growth.splits }

def Entry.census (entry : Entry) : Census :=
  if entry.isLeaf then
    { leaves := 1
      depth := if entry.cell.count = 0 then 0 else entry.place.depth }
  else { inner := 1, splits := 1 }

theorem Census.add_entry_eq (census : Census) (entry : Entry) :
    census.add entry = census + entry.census := by
  rw [Census.add, Entry.census]
  split
  · ext <;> simp
    split <;> simp
  · ext <;> simp

theorem Census.foldl_add (entries : List Entry) (census : Census) :
    entries.foldl Census.add census =
      census + (entries.map Entry.census).sum := by
  induction entries generalizing census with
  | nil => exact (add_zero census).symm
  | cons entry entries ih =>
      rw [List.foldl_cons, ih, Census.add_entry_eq, List.map_cons,
        List.sum_cons, add_assoc]

namespace Node

variable {settings : Settings} {layout : Layout} {star : Star} {place : Place}
  {node next : Node} {growth : Growth}

def tally (place : Place) : Node → Census
  | leaf cell =>
      { leaves := 1, depth := if cell.count = 0 then 0 else place.depth }
  | inner _ children =>
      { inner := 1, splits := 1 } +
        (Octant.all.map fun o => (children o).tally (place.child o)).sum

theorem sum_census_listing (node : Node) (path : List Octant) (place : Place) :
    ((node.listing path place).map Entry.census).sum = node.tally place := by
  induction node generalizing path place with
  | leaf cell => exact List.sum_singleton
  | inner cell children ih =>
      rw [listing, List.map_cons, List.sum_cons, List.map_flatMap,
        List.flatMap_def, List.sum_flatten, List.map_map]
      simp only [Function.comp_def, ih]
      rfl

/-- What is added to one member of a family is added to the sum. -/
theorem sum_replace {α : Type} [AddCommMonoid α] (f : Octant → Node → α)
    (children : Octant → Node) {target : Octant} {child : Node} {more : α}
    (h : f target child = f target (children target) + more) :
    (Octant.all.map fun o => f o (replace children target child o)).sum =
      (Octant.all.map fun o => f o (children o)).sum + more := by
  have hnodup : Octant.all.Nodup := by decide
  have hrest : ∀ o ∈ Octant.all.erase target,
      f o (replace children target child o) = f o (children o) := by
    intro o ho
    rw [replace_of_ne]
    rintro rfl
    exact hnodup.not_mem_erase ho
  rw [← List.sum_map_erase _ (Octant.mem_all target),
    ← List.sum_map_erase _ (Octant.mem_all target),
    List.map_congr_left hrest, replace_self, h, add_right_comm]

/-- Leaves directly below a place make a part no deeper than one level. -/
theorem exists_sum_tally_partLeaf (place : Place) (stars : Array Star)
    (os : List Octant) :
    ∃ depth ≤ place.depth + 1,
      (os.map fun o =>
        (partLeaf place stars o).tally (place.child o)).sum =
          { leaves := os.length, depth } := by
  induction os with
  | nil => exact ⟨0, Nat.zero_le _, rfl⟩
  | cons o os ih =>
      obtain ⟨depth, hdepth, hsum⟩ := ih
      refine ⟨max (if (place.cube.part stars o).size = 0 then 0
        else place.depth + 1) depth, ?_, ?_⟩
      · split <;> omega
      · rw [List.map_cons, List.sum_cons, hsum]
        ext
        · exact Nat.add_comm _ _
        all_goals rfl

/-- A star that finds room in a leaf adds at most to the depth. -/
theorem tally_joined (star : Star) (place : Place) (cell : Cell) :
    (leaf (cell.joined star)).tally place =
      (leaf cell).tally place + Growth.shape ⟨place.depth, 0⟩ := by
  have hdepth : (if cell.count = 0 then 0 else place.depth) ≤ place.depth := by
    split <;> omega
  ext
  · rfl
  · rfl
  · exact (Nat.max_eq_right hdepth).symm
  · rfl
  · rfl

/-- What a star that joins a leaf adds to the figures of the subtree. -/
theorem tally_of_grow? {levels : Nat} {cell : Cell}
    (h : cell.grow? settings layout star levels place = some (next, growth)) :
    next.tally place = (leaf cell).tally place + growth.shape := by
  induction levels generalizing place cell next growth with
  | zero =>
      rw [Cell.grow?] at h
      split at h <;> cases h
      exact tally_joined star place cell
  | succ levels ih =>
      rw [Cell.grow?] at h
      split at h
      · cases h
        exact tally_joined star place cell
      · rw [Option.map_eq_some_iff] at h
        obtain ⟨⟨child, below⟩, hchild, hnext⟩ := h
        cases hnext
        rw [ofFamily_eq]
        have htally := ih hchild
        have hdepth := Cell.depth_of_grow? hchild
        rw [Place.depth_child] at hdepth
        obtain ⟨depth, hparts, hsum⟩ :=
          exists_sum_tally_partLeaf place cell.stars Octant.all
        have hchildren := sum_replace
          (fun o child => child.tally (place.child o))
          (partLeaf place cell.stars) htally
        rw [hsum] at hchildren
        change _ + (Octant.all.map fun o =>
          (replace (partLeaf place cell.stars) _ child o).tally
            (place.child o)).sum = _
        rw [hchildren]
        have hleaf : (if cell.count = 0 then 0 else place.depth) ≤
            place.depth := by
          split <;> omega
        ext <;> simp [tally, Growth.shape] <;> omega

/-- What a star adds to the figures of the subtree that takes it. -/
theorem tally_of_insert?
    (h : node.insert? settings layout star place = some (next, growth)) :
    next.tally place = node.tally place + growth.shape := by
  induction node generalizing place next growth with
  | leaf cell => exact tally_of_grow? h
  | inner cell children ih =>
      rw [insert?, Option.map_eq_some_iff] at h
      obtain ⟨⟨child, below⟩, hchild, hnext⟩ := h
      cases hnext
      rw [ofFamily_eq]
      have hchildren := sum_replace
        (fun o child => child.tally (place.child o)) children (ih _ hchild)
      rw [tally, tally, add_assoc, ← hchildren]
      rfl

/-- A subtree that takes a star counts it. -/
theorem Gains.count_eq (h : Gains settings layout star place node next) :
    next.cell.count = node.cell.count + 1 := by
  cases h <;> rfl

theorem tally_clear (node : Node) (place : Place) :
    node.clear.tally place = node.tally place := by
  induction node generalizing place with
  | leaf cell => rfl
  | inner cell children ih =>
      rw [clear_inner, tally, tally]
      simp only [ih]

theorem count_clear (node : Node) : node.clear.cell.count = node.cell.count := by
  cases node with
  | leaf cell => rfl
  | inner cell children => rw [clear_inner]; rfl

end Node

namespace Tree

variable {tree next : Tree}

/-- The figures of a tree are those of its octants together, but for the stars,
which the roots of the octants have counted. -/
theorem recount_eq (tree : Tree) :
    tree.recount =
      { (Octant.all.map fun o =>
          (tree.octants o).tally (tree.domain.child o)).sum with
        stars := (Octant.all.map fun o => (tree.octants o).cell.count).sum } := by
  have hlisting : tree.listing.foldl Census.add {} =
      (Octant.all.map fun o =>
        (tree.octants o).tally (tree.domain.child o)).sum := by
    rw [Census.foldl_add, listing, List.map_flatMap, List.flatMap_def,
      List.sum_flatten, List.map_map]
    simp only [Function.comp_def, Node.sum_census_listing]
    exact zero_add _
  have hstars : Octant.all.foldl
      (fun n o => n + (tree.octants o).cell.count) 0 =
        (Octant.all.map fun o => (tree.octants o).cell.count).sum := by
    rw [List.sum_eq_foldl, List.foldl_map]
  rw [recount, Census.count, hlisting, hstars]

/-- A star adds the same to the figures kept and to those counted afresh. -/
theorem recount_of_insert {star : Star} (htree : tree.census = tree.recount)
    (h : tree.insert star = .ok next) : next.census = next.recount := by
  obtain ⟨_, node, growth, hnode, rfl⟩ := insert_eq_ok_iff.mp h
  have htally := Node.sum_replace
    (fun o child => child.tally (tree.domain.child o)) tree.octants
    (Node.tally_of_insert? hnode)
  have hcount := Node.sum_replace (fun _ child => child.cell.count)
    tree.octants (Node.gains_of_insert? hnode).count_eq
  calc
    tree.census.grow growth = tree.recount.grow growth := by rw [htree]
    _ = { (Octant.all.map fun o =>
            (tree.octants o).tally (tree.domain.child o)).sum + growth.shape with
          stars :=
            (Octant.all.map fun o => (tree.octants o).cell.count).sum + 1 } := by
      rw [recount_eq]
      rfl
    _ = _ := by
      rw [← htally, ← hcount, recount_eq]
      rfl

theorem recount_of_alike (h : tree.Alike next) :
    next.recount = tree.recount := by
  have htally : ∀ o, (next.octants o).tally (tree.domain.child o) =
      (tree.octants o).tally (tree.domain.child o) := fun o => by
    rw [← Node.tally_clear, h.octants o, Node.tally_clear]
  have hcount : ∀ o, (next.octants o).cell.count =
      (tree.octants o).cell.count := fun o => by
    rw [← Node.count_clear, h.octants o, Node.count_clear]
  rw [recount_eq, recount_eq, h.domain]
  simp only [htally, hcount]

theorem Fresh.census_eq (h : Fresh tree) : tree.census = tree.recount := by
  cases h with
  | created h =>
      obtain ⟨rfl, _⟩ := create_eq_ok h
      rfl
  | decoded h =>
      obtain ⟨rest, hfront⟩ := decode_eq_ok_iff.mp h
      exact (archived_of_decodeFront hfront).1.census

/-- The figures kept are those that a fresh count gives. -/
theorem Reachable.census_eq (h : Reachable tree) : tree.census = tree.recount :=
  h.induction Fresh.census_eq recount_of_insert fun htree halike => by
    rw [halike.census, htree, recount_of_alike halike]

end Tree

end Starfield
