import Starfield.Job
import Starfield.Proofs.Archive.Reload
import Starfield.Proofs.Batch
import Starfield.Proofs.Flat.Safety

/-!
# Feeding a tree

A tree that is fed with whole stars takes some and refuses the others, all for
the same reason: they would need a split below the depth limit.  No star is lost
between the two.  The stars taken build the same tree without the others, and a
new tree that was fed is as it would be read from an archive.
-/

namespace Starfield

/-! ## Sizes of cells -/

theorem Cube.length_thin_le (cube : Cube) (room : Nat) (last : Star)
    (stars : List Star) : (cube.thin room last stars).length ≤ stars.length := by
  induction stars generalizing room last with
  | nil => exact Nat.le_refl 0
  | cons star stars ih =>
      rw [thin]
      split
      · exact Nat.succ_le_succ (ih _ _)
      · exact Nat.le_succ_of_le (ih _ _)

/-- A sample has one star more than it was given at most, its seed. -/
theorem Settings.length_thinned_le (settings : Settings) (layout : Layout)
    (place : Place) (stars : List Star) :
    (settings.thinned layout place stars).length ≤ stars.length + 1 := by
  rw [thinned]
  split
  · exact Nat.succ_le_succ (Cube.length_thin_le _ _ _ _)
  · exact Nat.zero_le _

namespace Node

variable {settings : Settings} {layout : Layout} {place : Place}
  {stars : List Star} {node : Node}

/-- No cell counts more stars than the list has, and none holds more than these
and a seed. -/
theorem IsBatch.all_le (h : IsBatch settings layout place stars node)
    {bound : Nat} (hbound : stars.length ≤ bound) :
    node.All fun _ cell => cell.count ≤ bound ∧ cell.stars.size ≤ bound + 1 := by
  induction h with
  | leaf => exact ⟨hbound, Nat.le_succ_of_le hbound⟩
  | @inner place stars children _ _ ih =>
      refine ⟨⟨hbound, ?_⟩, fun o => ih o ?_⟩
      · rw [List.size_toArray]
        exact Nat.le_trans (settings.length_thinned_le layout place stars)
          (Nat.succ_le_succ hbound)
      · exact Nat.le_trans (List.length_filter_le _ _) hbound

/-- A subtree that belongs to a list of stars has no slots. -/
theorem IsBatch.clear_eq (h : IsBatch settings layout place stars node) :
    node.clear = node := by
  induction h with
  | leaf => rfl
  | inner _ _ ih =>
      rw [clear_inner]
      exact congrArg (Node.inner _) (funext ih)

end Node

namespace Tree

variable {tree next : Tree} {settings : Settings} {layout : Layout} {star : Star}
  {fault : Fault}

/-! ## What is taken and what is refused -/

def faults (tree : Tree) : List Star → List Fault
  | [] => []
  | star :: stars =>
    match tree.insert star with
    | .ok next => next.faults stars
    | .error fault => fault :: tree.faults stars

theorem feed_of_ok (h : tree.insert star = .ok next) (stars : List Star) :
    tree.feed (star :: stars) =
      ((next.feed stars).1, star :: (next.feed stars).2) := by
  rw [feed, h]

theorem feed_of_error (h : tree.insert star = .error fault)
    (stars : List Star) : tree.feed (star :: stars) = tree.feed stars := by
  rw [feed, h]

theorem faults_of_ok (h : tree.insert star = .ok next) (stars : List Star) :
    tree.faults (star :: stars) = next.faults stars := by
  rw [faults, h]

theorem faults_of_error (h : tree.insert star = .error fault)
    (stars : List Star) :
    tree.faults (star :: stars) = fault :: tree.faults stars := by
  rw [faults, h]

/-- Every star is either taken or refused. -/
theorem length_feed_add_length_faults (tree : Tree) (stars : List Star) :
    (tree.feed stars).2.length + (tree.faults stars).length = stars.length := by
  induction stars generalizing tree with
  | nil => rfl
  | cons star stars ih =>
      cases hinsert : tree.insert star with
      | ok next =>
          rw [feed_of_ok hinsert, faults_of_ok hinsert, List.length_cons,
            List.length_cons, Nat.add_right_comm, ih next]
      | error fault =>
          rw [feed_of_error hinsert, faults_of_error hinsert,
            List.length_cons, List.length_cons, ← Nat.add_assoc, ih tree]

/-- The stars taken are in the order in which they came. -/
theorem sublist_feed (tree : Tree) (stars : List Star) :
    (tree.feed stars).2.Sublist stars := by
  induction stars generalizing tree with
  | nil => exact .slnil
  | cons star stars ih =>
      cases hinsert : tree.insert star with
      | ok next =>
          rw [feed_of_ok hinsert]
          exact (ih next).cons_cons star
      | error fault =>
          rw [feed_of_error hinsert]
          exact (ih tree).cons star

/-- A star that is as wide as it has to be is refused for one reason only. -/
theorem eq_depthLimit_of_insert (hstar : star.length = tree.layout.width)
    (h : tree.insert star = .error fault) :
    fault = .depthLimit tree.settings.depthLimit := by
  cases hnode : (tree.octants (tree.domain.cube.octantOf star.point)).insert?
      tree.settings tree.layout star
      (tree.domain.child (tree.domain.cube.octantOf star.point)) with
  | none =>
      rw [insert_of_none hstar hnode] at h
      exact (Except.error.inj h).symm
  | some taken =>
      cases h.symm.trans (insert_eq_ok_iff.mpr ⟨hstar, _, _, hnode, rfl⟩)

/-- Otherwise it is taken. -/
theorem exists_insert_eq_ok_iff (hstar : star.length = tree.layout.width) :
    (∃ next, tree.insert star = .ok next) ↔
      tree.insert star ≠ .error (.depthLimit tree.settings.depthLimit) := by
  cases hinsert : tree.insert star with
  | ok next => exact iff_of_true ⟨next, rfl⟩ nofun
  | error fault =>
      rw [eq_depthLimit_of_insert hstar hinsert]
      exact iff_of_false nofun (not_not_intro rfl)

/-- What feeding leaves as it was. -/
theorem exists_feed_eq (tree : Tree) (stars : List Star) :
    ∃ octants census, (tree.feed stars).1 = { tree with octants, census } ∧
      census.stars = tree.census.stars + (tree.feed stars).2.length := by
  induction stars generalizing tree with
  | nil => exact ⟨tree.octants, tree.census, rfl, rfl⟩
  | cons star stars ih =>
      cases hinsert : tree.insert star with
      | error fault =>
          rw [feed_of_error hinsert]
          exact ih tree
      | ok next =>
          rw [feed_of_ok hinsert]
          obtain ⟨octants, census, hfed, hstars⟩ := ih next
          obtain ⟨_, node, growth, _, rfl⟩ := insert_eq_ok_iff.mp hinsert
          refine ⟨octants, census, hfed, ?_⟩
          rw [hstars, List.length_cons, Nat.add_comm _ 1, ← Nat.add_assoc]
          rfl

/-- A build feeds the tree and counts the stars that are refused. -/
theorem insertAccepted_eq {stars : List Star}
    (hstars : ∀ star ∈ stars, star.length = tree.layout.width)
    (skipped : Nat) :
    tree.insertAccepted skipped stars =
      .ok ((tree.feed stars).1, skipped + (tree.faults stars).length) := by
  induction stars generalizing tree skipped with
  | nil => rfl
  | cons star stars ih =>
      rw [List.forall_mem_cons] at hstars
      cases hinsert : tree.insert star with
      | ok next =>
          rw [← (gains_of_insert hinsert).layout] at hstars
          rw [insertAccepted, receive_of_ok hinsert, feed_of_ok hinsert,
            faults_of_ok hinsert]
          exact ih hstars.2 skipped
      | error fault =>
          cases eq_depthLimit_of_insert hstars.1 hinsert
          rw [insertAccepted, receive_of_error hinsert,
            feed_of_error hinsert, faults_of_error hinsert, List.length_cons]
          dsimp only
          rw [ih hstars.2, Nat.add_assoc, Nat.add_comm 1]

/-! ## New trees -/

theorem Reachable.feed (h : Reachable tree) (stars : List Star) :
    Reachable (tree.feed stars).1 := by
  have hrun : (tree.feed stars).1 = tree.run (stars.map .insert) := by
    rw [feed_eq_foldl, Tree.run, List.foldl_map]
  rw [hrun]
  exact h.run _

theorem holds_of_create (h : Tree.create settings layout = .ok tree) :
    tree.Holds [] := by
  obtain ⟨rfl, _⟩ := create_eq_ok h
  exact fun _ => .leaf (Nat.zero_le _)

/-- A new tree that was fed has no buffer. -/
theorem bare_feed (h : Tree.create settings layout = .ok tree)
    (stars : List Star) : (tree.feed stars).1.bare = (tree.feed stars).1 := by
  obtain ⟨_, _, hfed⟩ := (holds_of_create h).feed stars
  have hclear : (fun o => ((tree.feed stars).1.octants o).clear) =
      (tree.feed stars).1.octants :=
    funext fun o => (hfed o).clear_eq
  rw [bare, hclear]
  obtain ⟨octants, census, hsame, _⟩ := tree.exists_feed_eq stars
  obtain ⟨rfl, _⟩ := create_eq_ok h
  rw [hsame]

/-- No node of a new tree that was fed counts more stars than were taken, and
none holds more than these and a seed. -/
theorem le_of_mem_listing_feed (h : Tree.create settings layout = .ok tree)
    (stars : List Star) {entry : Entry}
    (hentry : entry ∈ (tree.feed stars).1.listing) :
    entry.cell.count ≤ (tree.feed stars).2.length ∧
      entry.cell.stars.size ≤ (tree.feed stars).2.length + 1 := by
  obtain ⟨_, _, hfed⟩ := (holds_of_create h).feed stars
  rw [List.nil_append] at hfed
  obtain ⟨o, _, ho⟩ := List.mem_flatMap.mp hentry
  exact (Node.all_iff _ [o] ((tree.feed stars).1.domain.child o)).mp
    ((hfed o).all_le (List.length_filter_le _ _)) entry ho

end Tree

end Starfield
