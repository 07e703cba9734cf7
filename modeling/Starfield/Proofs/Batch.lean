import Starfield.Proofs.Occupancy
import Starfield.Proofs.Thinning

/-!
# Building in one go

A tree is built star by star: leaves fill up, are split when they overflow, and
samples grow on the way.  The result depends on the accepted stars and their
order only.  This file says what tree belongs to a list of stars, without any
history, and proves that insertion builds it.
-/

namespace Starfield

namespace Node

def starsOf (place : Place) (stars : List Star) (o : Octant) : List Star :=
  stars.filter fun star => place.cube.octantOf star.point = o

/-- The subtree that belongs to a list of stars.  A list that fits is a leaf.  A
longer one is an inner node that keeps the thinned list, with the subtrees of the
stars of each octant below it. -/
inductive IsBatch (settings : Settings) (layout : Layout) :
    Place → List Star → Node → Prop
  | leaf {place : Place} {stars : List Star}
      (hfits : stars.length ≤ settings.starsPerCell) :
      IsBatch settings layout place stars
        (.leaf { count := stars.length, stars := stars.toArray })
  | inner {place : Place} {stars : List Star} {children : Octant → Node}
      (hlong : settings.starsPerCell < stars.length)
      (hchildren : ∀ o, IsBatch settings layout (place.child o)
        (starsOf place stars o) (children o)) :
      IsBatch settings layout place stars
        (.inner
          { count := stars.length
            stars := (settings.thinned layout place stars).toArray }
          children)

variable {settings : Settings} {layout : Layout} {place : Place}
  {stars : List Star} {star : Star} {node next : Node}

/-- There is only one subtree that belongs to a list of stars. -/
theorem IsBatch.unique (h : IsBatch settings layout place stars node)
    (hnext : IsBatch settings layout place stars next) : node = next := by
  induction h generalizing next with
  | leaf hfits =>
      cases hnext with
      | leaf => rfl
      | inner hlong => exact absurd hfits (Nat.not_le_of_lt hlong)
  | inner hlong _ ih =>
      cases hnext with
      | leaf hfits => exact absurd hfits (Nat.not_le_of_lt hlong)
      | inner _ hchildren =>
          congr 1
          funext o
          exact ih o (hchildren o)

/-! ## One more star -/

theorem starsOf_append_self (place : Place) (stars : List Star) (star : Star) :
    starsOf place (stars ++ [star]) (place.cube.octantOf star.point) =
      starsOf place stars (place.cube.octantOf star.point) ++ [star] := by
  simp [starsOf]

theorem starsOf_append_of_ne (place : Place) (stars : List Star) {star : Star}
    {o : Octant} (ho : o ≠ place.cube.octantOf star.point) :
    starsOf place (stars ++ [star]) o = starsOf place stars o := by
  simp [starsOf, Ne.symm ho]

/-- When the octant of a star has taken it and the other octants are as before,
all octants belong to the list with the star. -/
theorem isBatch_replace {children : Octant → Node} {child : Node}
    (hchild : IsBatch settings layout
      (place.child (place.cube.octantOf star.point))
      (starsOf place stars (place.cube.octantOf star.point) ++ [star]) child)
    (hchildren : ∀ o, IsBatch settings layout (place.child o)
      (starsOf place stars o) (children o)) (o : Octant) :
    IsBatch settings layout (place.child o) (starsOf place (stars ++ [star]) o)
      (replace children (place.cube.octantOf star.point) child o) := by
  by_cases ho : o = place.cube.octantOf star.point
  · subst o
    rw [replace_self, starsOf_append_self]
    exact hchild
  · rw [replace_of_ne children child ho, starsOf_append_of_ne place stars ho]
    exact hchildren o

theorem part_toArray (place : Place) (stars : List Star) (o : Octant) :
    place.cube.part stars.toArray o = (starsOf place stars o).toArray := by
  simp [Cube.part, starsOf]

/-- The leaves that a full leaf is split into belong to the stars of their
octants. -/
theorem isBatch_partLeaf (hfits : stars.length ≤ settings.starsPerCell)
    (o : Octant) :
    IsBatch settings layout (place.child o) (starsOf place stars o)
      (partLeaf place stars.toArray o) := by
  have hlength : (starsOf place stars o).length ≤ settings.starsPerCell :=
    Nat.le_trans (List.length_filter_le _ _) hfits
  rw [partLeaf, part_toArray, Cell.ofStars, List.size_toArray]
  exact .leaf hlength

/-- A cell whose sample is the thinned list has the thinned longer list when a
star has passed. -/
theorem passed_of_thinned {cell : Cell} (hcount : cell.count = stars.length)
    (hstars : cell.stars.toList = settings.thinned layout place stars)
    (hvacant : cell.tenancy = none) (star : Star) :
    cell.passed settings star place =
      { count := (stars ++ [star]).length
        stars := (settings.thinned layout place (stars ++ [star])).toArray } := by
  have hsample := Settings.toList_offer layout place hstars star
  rw [Cell.passed, ← hsample, Array.toArray_toList, hcount, hvacant,
    List.length_append]
  rfl

/-- Taking a star keeps a subtree the one that belongs to its stars. -/
theorem IsBatch.gains (h : IsBatch settings layout place stars node)
    (hgains : Gains settings layout star place node next) :
    IsBatch settings layout place (stars ++ [star]) next := by
  induction hgains generalizing stars with
  | joined hroom =>
      cases h with
      | leaf hfits =>
          have hcell : Cell.joined star
              { count := stars.length, stars := stars.toArray } =
              { count := (stars ++ [star]).length
                stars := (stars ++ [star]).toArray } := by
            simp [Cell.joined, Cell.push]
          rw [hcell]
          apply IsBatch.leaf
          rw [List.length_append]
          exact hroom
  | @parted place _ child hfull hchild ih =>
      cases h with
      | leaf hfits =>
          -- The stars replayed in the split and the new one are offered in
          -- one go.
          rw [passed_of_thinned rfl (Settings.toList_sample layout place _) rfl]
          apply IsBatch.inner
          · rw [List.length_append]
            exact Nat.lt_succ_of_le hfull
          · exact isBatch_replace (ih (isBatch_partLeaf hfits _))
              (isBatch_partLeaf hfits)
  | @passed place _ children child hchild ih =>
      cases h with
      | inner hlong hchildren =>
          rw [passed_of_thinned rfl rfl rfl]
          apply IsBatch.inner
          · rw [List.length_append]
            exact Nat.lt_succ_of_lt hlong
          · exact isBatch_replace (ih (hchildren _)) hchildren

end Node

namespace Tree

/-- Insert stars in order and pass over those that are refused; the second
component has the others. -/
def feed (tree : Tree) : List Star → Tree × List Star
  | [] => (tree, [])
  | star :: stars =>
    match tree.insert star with
    | .ok next =>
      let fed := next.feed stars
      (fed.1, star :: fed.2)
    | .error _ => tree.feed stars

/-- Feeding a tree is inserting one star after the other. -/
theorem feed_eq_foldl (tree : Tree) (stars : List Star) :
    (tree.feed stars).1 = stars.foldl (fun tree star => tree.act (.insert star))
      tree := by
  induction stars generalizing tree with
  | nil => rfl
  | cons star stars ih =>
      rw [feed, List.foldl_cons]
      cases hinsert : tree.insert star with
      | ok next =>
          rw [act_insert hinsert]
          exact ih next
      | error fault =>
          rw [act_insert_of_error hinsert]
          exact ih tree

/-- The octants of the tree belong to the stars in the list. -/
def Holds (tree : Tree) (stars : List Star) : Prop :=
  ∀ o, Node.IsBatch tree.settings tree.layout (tree.domain.child o)
    (Node.starsOf tree.domain stars o) (tree.octants o)

variable {settings : Settings} {layout : Layout} {tree next : Tree}
  {stars : List Star}

theorem Holds.gains {star : Star} (h : tree.Holds stars)
    (hgains : tree.Gains star next) : next.Holds (stars ++ [star]) := by
  obtain ⟨child, hchild, hnext⟩ := hgains.octants
  intro o
  rw [hnext, domain, hgains.settings, hgains.layout]
  exact Node.isBatch_replace ((h _).gains hchild) h o

/-- What feeding preserves: settings and layout, and that the tree belongs to
the stars that it has taken. -/
theorem Holds.feed (h : tree.Holds stars) (more : List Star) :
    (tree.feed more).1.settings = tree.settings ∧
      (tree.feed more).1.layout = tree.layout ∧
      (tree.feed more).1.Holds (stars ++ (tree.feed more).2) := by
  induction more generalizing tree stars with
  | nil =>
      rw [Tree.feed, List.append_nil]
      exact ⟨rfl, rfl, h⟩
  | cons star more ih =>
      rw [Tree.feed]
      cases hinsert : tree.insert star with
      | error fault => exact ih h
      | ok next =>
          have hgains := gains_of_insert hinsert
          obtain ⟨hsettings, hlayout, hfed⟩ := ih (h.gains hgains)
          rw [List.append_assoc] at hfed
          exact ⟨hsettings.trans hgains.settings, hlayout.trans hgains.layout,
            hfed⟩

/-- Inserting stars one by one into a new tree builds the tree that belongs to
the accepted ones, and no other. -/
theorem feed_isBatch (hcreate : Tree.create settings layout = .ok tree)
    (stars : List Star) :
    let fed := tree.feed stars
    fed.1.settings = settings ∧ fed.1.layout = layout ∧
      ∀ (o : Octant) (node : Node),
        Node.IsBatch settings layout ((Place.domain settings.reach).child o)
            (Node.starsOf (.domain settings.reach) fed.2 o) node ↔
          fed.1.octants o = node := by
  obtain ⟨rfl, _⟩ := create_eq_ok hcreate
  have hempty : Holds { settings, layout } [] := fun o =>
    .leaf (Nat.zero_le _)
  obtain ⟨hsettings, hlayout, hfed⟩ := hempty.feed stars
  refine ⟨hsettings, hlayout, fun o node => ?_⟩
  have hoctant := hfed o
  rw [domain, hsettings, hlayout, List.nil_append] at hoctant
  constructor
  · exact fun hnode => hoctant.unique hnode
  · rintro rfl
    exact hoctant

def diagonalStar (coordinate : Value) : Star :=
  List.replicate 3 coordinate ++ List.replicate 5 .zero

/-- Two stars of one octant, and a row that is too short to be a star. -/
theorem isBatch_feed_diagonal :
    Node.IsBatch { starsPerCell := 1 } {} ((Place.domain 10).child (.ofIndex 0))
      [diagonalStar ⟨0x3f800000⟩, diagonalStar ⟨0x41100000⟩]
      ((Tree.feed { settings := { starsPerCell := 1 }, layout := {} }
        [diagonalStar ⟨0x3f800000⟩, [], diagonalStar ⟨0x41100000⟩]).1.octants
        (.ofIndex 0)) := by
  have hbatch := ((@feed_isBatch { starsPerCell := 1 } {} _ rfl
    [diagonalStar ⟨0x3f800000⟩, [], diagonalStar ⟨0x41100000⟩]).2.2
      (.ofIndex 0) _).mpr rfl
  have hstars : Node.starsOf (.domain 10)
      (Tree.feed { settings := { starsPerCell := 1 }, layout := {} }
        [diagonalStar ⟨0x3f800000⟩, [], diagonalStar ⟨0x41100000⟩]).2
      (.ofIndex 0) =
      [diagonalStar ⟨0x3f800000⟩, diagonalStar ⟨0x41100000⟩] := by
    decide +kernel
  exact hstars ▸ hbatch

end Tree

end Starfield
