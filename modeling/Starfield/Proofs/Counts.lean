import Starfield.Proofs.Archive.Reload
import Starfield.Proofs.Flat.Safety

/-!
# Counts that add up

A node counts the stars of its whole subtree, so an inner node should count what
its children count together.  Every insertion keeps it so.  The reader of
archives compares the count of a leaf with the stars that follow, but takes the
count of an inner node as it comes.  An archive may therefore bring counts that
do not add up; insertion then adds to them and never sets them right.
-/

namespace Starfield

/-- Things that are told apart by an octant are counted octant by octant. -/
theorem Octant.sum_length_filter {α : Type} (f : α → Octant) (xs : List α) :
    (all.map fun o => (xs.filter fun x => f x = o).length).sum =
      xs.length := by
  have hone : ∀ o : Octant,
      (all.map fun p => if o = p then 1 else 0).sum = 1 := by
    rintro ⟨_ | _, _ | _, _ | _⟩ <;> rfl
  induction xs with
  | nil => rfl
  | cons x xs ih =>
      have hcons : ∀ o, ((x :: xs).filter fun x => f x = o).length =
          (xs.filter fun x => f x = o).length +
            if f x = o then 1 else 0 := by
        intro o
        rw [List.filter_cons]
        by_cases ho : f x = o <;> simp [ho]
      simp only [hcons, List.sum_map_add, ih, hone, List.length_cons]

namespace Node

variable {settings : Settings} {layout : Layout} {star : Star} {place : Place}
  {node next : Node}

/-- Every inner node counts what its children count together. -/
def Cumulative : Node → Prop
  | leaf _ => True
  | inner cell children =>
      cell.count = (Octant.all.map fun o => (children o).cell.count).sum ∧
        ∀ o, (children o).Cumulative

instance decidableCumulative : (node : Node) → Decidable node.Cumulative
  | leaf _ => .isTrue trivial
  | inner cell children =>
      have : ∀ o, Decidable (children o).Cumulative :=
        fun o => decidableCumulative (children o)
      decidable_of_iff
        (cell.count = (Octant.all.map fun o => (children o).cell.count).sum ∧
          ∀ o ∈ Octant.all, (children o).Cumulative)
        (and_congr_right fun _ => ⟨fun h o => h o (Octant.mem_all o),
          fun h o _ => h o⟩)

def stored : Node → Nat
  | leaf cell => cell.stars.size
  | inner _ children => (Octant.all.map fun o => (children o).stored).sum

/-- Counts that add up count the stars in the leaves. -/
theorem Cumulative.count_eq {capacity : Nat} (h : node.Cumulative)
    (hnode : node.All (Cell.Regular layout capacity)) :
    node.cell.count = node.stored := by
  induction node with
  | leaf cell => exact hnode.count rfl
  | inner cell children ih =>
      have hchildren : (fun o => (children o).cell.count) =
          fun o => (children o).stored :=
        funext fun o => ih o (h.2 o) (hnode.2 o)
      rw [stored, ← hchildren]
      exact h.1

/-! ## Insertion -/

/-- The parts of a leaf hold its stars. -/
theorem sum_count_partLeaf (place : Place) (stars : Array Star) :
    (Octant.all.map fun o => (partLeaf place stars o).cell.count).sum =
      stars.size := by
  rw [← Array.length_toList, ← Octant.sum_length_filter
    fun star => place.cube.octantOf star.point]
  congr 2
  funext o
  change (place.cube.part stars o).size = _
  rw [Cube.part, ← Array.length_toList, Array.toList_filter]

/-- All members of a family have a property after the replacement just when they
had it before, provided that this is so of the member replaced. -/
theorem forall_replace_iff {P : Node → Prop} (children : Octant → Node)
    {target : Octant} {child : Node} (h : P child ↔ P (children target)) :
    (∀ o, P (replace children target child o)) ↔ ∀ o, P (children o) := by
  apply forall_congr'
  exact forall_replace
    (P := fun o child => P child ↔ P (children o)) h fun _ => Iff.rfl

/-- A star raises the counts on its way by one, so they add up afterwards just
when they did before. -/
theorem Gains.cumulative_iff
    (h : Gains settings layout star place node next)
    (hnode : node.All (Cell.Regular layout settings.starsPerCell)) :
    next.Cumulative ↔ node.Cumulative := by
  induction h with
  | joined => exact Iff.rfl
  | @parted place cell child _ hchild ih =>
      have hparts := regular_partLeaf hnode.stocked place
      have hsum := sum_replace (fun _ child => child.cell.count)
        (partLeaf place cell.stars) hchild.count_eq
      rw [sum_count_partLeaf, ← hnode.count rfl] at hsum
      refine iff_of_true ⟨hsum.symm, ?_⟩ trivial
      exact (forall_replace_iff _ (ih (hparts _))).mpr fun _ => trivial
  | @passed place cell children child hchild ih =>
      have hsum := sum_replace (fun _ child => child.cell.count) children
        hchild.count_eq
      refine and_congr ?_ (forall_replace_iff _ (ih (hnode.2 _)))
      rw [hsum]
      exact Nat.succ_inj

theorem cumulative_clear (node : Node) :
    node.clear.Cumulative ↔ node.Cumulative := by
  induction node with
  | leaf cell => exact Iff.rfl
  | inner cell children ih =>
      rw [clear_inner]
      simp only [Cumulative, count_clear, ih]
      rfl

end Node

/-! ## Whole trees -/

/-- The number of stars that a node stores; the sample of an inner node repeats
stars of its leaves and is not counted. -/
def Entry.stored (entry : Entry) : Nat :=
  if entry.isLeaf then entry.cell.stars.size else 0

theorem Node.sum_stored_listing (node : Node) (path : List Octant)
    (place : Place) :
    ((node.listing path place).map Entry.stored).sum = node.stored := by
  induction node generalizing path place with
  | leaf cell => exact List.sum_singleton
  | inner cell children ih =>
      rw [listing, List.map_cons, List.sum_cons, List.map_flatMap,
        List.flatMap_def, List.sum_flatten, List.map_map]
      simp only [Function.comp_def, ih]
      exact Nat.zero_add _

namespace Tree

variable {start tree next : Tree}

def Cumulative (tree : Tree) : Prop := ∀ o, (tree.octants o).Cumulative

instance (tree : Tree) : Decidable tree.Cumulative :=
  decidable_of_iff (∀ o ∈ Octant.all, (tree.octants o).Cumulative)
    ⟨fun h o => h o (Octant.mem_all o), fun h o _ => h o⟩

def stored (tree : Tree) : Nat := (tree.listing.map Entry.stored).sum

theorem stored_eq (tree : Tree) :
    tree.stored = (Octant.all.map fun o => (tree.octants o).stored).sum := by
  rw [stored, listing, List.map_flatMap, List.flatMap_def, List.sum_flatten,
    List.map_map]
  simp only [Function.comp_def, Node.sum_stored_listing]

/-- The counts of a tree fit the stars that it stores. -/
structure Consistent (tree : Tree) : Prop where
  cumulative : tree.Cumulative
  stars : tree.census.stars = tree.stored
  isEmpty : tree.isEmpty = true ↔
    ∀ entry ∈ tree.listing, entry.isLeaf = true → entry.cell.stars = #[]

theorem stored_eq_zero_iff (tree : Tree) :
    tree.stored = 0 ↔
      ∀ entry ∈ tree.listing, entry.isLeaf = true → entry.cell.stars = #[] := by
  rw [stored, List.sum_eq_zero_iff_forall_eq_nat, List.forall_mem_map]
  simp only [Entry.stored, ite_eq_right_iff, Array.size_eq_zero_iff]

/-- When the counts add up, the figures of the tree are about the stars that it
stores. -/
theorem Cumulative.consistent (h : tree.Cumulative)
    (htree : Reachable tree) : tree.Consistent := by
  have hcounts : (fun o => (tree.octants o).cell.count) =
      fun o => (tree.octants o).stored :=
    funext fun o => (h o).count_eq (htree.regular.cells o)
  have hstars : tree.census.stars = tree.stored := by
    rw [htree.census_eq, recount_eq, stored_eq, ← hcounts]
  refine ⟨h, hstars, ?_⟩
  rw [isEmpty, hstars, decide_eq_true_iff, stored_eq_zero_iff]

theorem cumulative_insert_iff {star : Star} (htree : tree.Regular)
    (h : tree.insert star = .ok next) : next.Cumulative ↔ tree.Cumulative := by
  obtain ⟨_, node, growth, hnode, rfl⟩ := insert_eq_ok_iff.mp h
  exact Node.forall_replace_iff _
    ((Node.gains_of_insert? hnode).cumulative_iff (htree.cells _))

theorem cumulative_alike_iff (h : tree.Alike next) :
    next.Cumulative ↔ tree.Cumulative := by
  refine forall_congr' fun o => ?_
  rw [← Node.cumulative_clear, h.octants o, Node.cumulative_clear]

theorem cumulative_act_iff (htree : tree.Regular) (action : Action) :
    (tree.act action).Cumulative ↔ tree.Cumulative := by
  refine (act_induction (P := fun next =>
    next.Regular ∧ (next.Cumulative ↔ tree.Cumulative)) ?_ ?_
    ⟨htree, Iff.rfl⟩ action).2
  · rintro before next star ⟨hregular, hcounts⟩ hinsert
    exact ⟨hregular.insert hinsert,
      (cumulative_insert_iff hregular hinsert).trans hcounts⟩
  · rintro before next ⟨hregular, hcounts⟩ halike
    exact ⟨hregular.alike halike, (cumulative_alike_iff halike).trans hcounts⟩

/-- Nothing that is done with a tree makes counts add up that did not, or the
other way round. -/
theorem cumulative_run_iff (htree : Reachable tree) (actions : List Action) :
    (tree.run actions).Cumulative ↔ tree.Cumulative := by
  refine (run_induction (P := fun next =>
    Reachable next ∧ (next.Cumulative ↔ tree.Cumulative)) ?_
    ⟨htree, Iff.rfl⟩ actions).2
  rintro before action ⟨hreachable, hcounts⟩
  exact ⟨hreachable.act action,
    (cumulative_act_iff hreachable.regular action).trans hcounts⟩

/-- Whatever is done with a new tree or one read from an archive, its counts fit
the stars that it stores just when they added up in the beginning. -/
theorem Fresh.consistent_run_iff (h : Fresh start) (actions : List Action) :
    (start.run actions).Consistent ↔ start.Cumulative := by
  have hstart : Reachable start := .fresh h
  have hcounts := cumulative_run_iff hstart actions
  constructor
  · intro hconsistent
    exact hcounts.mp hconsistent.cumulative
  · intro hcumulative
    exact (hcounts.mpr hcumulative).consistent (hstart.run actions)

/-- An archive whose first octant is an inner node, since it has two stars. -/
def honest : Bytes :=
  encode (Tree.run { settings := crowdedSettings, layout := {} }
    [.insert (cornerStar (.ofIndex 0)), .insert (List.replicate 8 .zero)])

/-- Counts that were written for a tree add up when they are read, and after one
star more they still do. -/
theorem consistent_honest :
    ∃ tree, Tree.decode crowdedSettings {} honest = .ok tree ∧
      (tree.octants (.ofIndex 0)).isLeaf = false ∧
      (tree.run [.insert (cornerStar (.ofIndex 7))]).Consistent := by
  have hcounts : ((Tree.decode crowdedSettings {} honest).toOption.any
      fun tree => !(tree.octants (.ofIndex 0)).isLeaf &&
        decide tree.Cumulative) = true := by
    decide +kernel
  cases hdecode : Tree.decode crowdedSettings {} honest with
  | error fault => rw [hdecode] at hcounts; cases hcounts
  | ok tree =>
      rw [hdecode, Except.toOption, Option.any_some, Bool.and_eq_true,
        Bool.not_eq_true'] at hcounts
      exact ⟨tree, rfl, hcounts.1,
        (Fresh.consistent_run_iff (.decoded hdecode) _).mpr
          (of_decide_eq_true hcounts.2)⟩

/-- The reader accepts counts that do not add up: a tree can say that it has
stars while none of its leaves stores one. -/
theorem not_forall_decode_consistent :
    ¬ ∀ (settings : Settings) (layout : Layout) (bytes : Bytes) (tree : Tree),
      Tree.decode settings layout bytes = .ok tree →
        tree.Cumulative ∧ tree.census.stars = tree.stored ∧
          (tree.isEmpty = true ↔ ∀ entry ∈ tree.listing,
            entry.isLeaf = true → entry.cell.stars = #[]) := by
  intro h
  have hstars : ((Tree.decode crowdedSettings {} boastful).toOption.any
      fun tree => decide
        (tree.census.stars = 2 ^ 31 - 1 ∧ tree.stored = 0)) = true := by
    decide +kernel
  cases hdecode : Tree.decode crowdedSettings {} boastful with
  | error fault => rw [hdecode] at hstars; cases hstars
  | ok tree =>
      rw [hdecode] at hstars
      obtain ⟨hclaimed, hstored⟩ := of_decide_eq_true hstars
      obtain ⟨_, hsame, _⟩ := h _ _ _ _ hdecode
      rw [hclaimed, hstored] at hsame
      exact absurd hsame (by decide)

end Tree

end Starfield
