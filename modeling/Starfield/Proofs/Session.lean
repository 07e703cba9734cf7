import Starfield.Archive
import Starfield.Frame
import Starfield.Tree.Insert

/-!
# Sessions with a tree

A tree is created empty or read from an archive.  From then on its user may
insert stars, give the drawing buffer a new size and run frames, in any order.
The reachable trees are those that such a session can come to.
-/

namespace Starfield

inductive Action where
  | insert (star : Star)
  | insertFlat (values : List Value)
  | resizeBuffer (capacity : Nat)
  | runFrame (oracle : Oracle) (detail : Detail) (time : Option Nat)

namespace Tree

/-- The tree after an action.  Inserting a star and running a frame leave a tree
behind whether they succeed or not. -/
def act (tree : Tree) : Action → Tree
  | .insert star => (tree.receive star).1
  | .insertFlat values => (tree.insertFlat values).1
  | .resizeBuffer capacity => tree.resizeBuffer capacity
  | .runFrame oracle detail time => (tree.runFrame oracle detail time).tree

section

variable {tree next : Tree} {star : Star} {fault : Fault}

/-- A star of the wrong width is refused. -/
theorem receive_of_length_ne (hwidth : star.length ≠ tree.layout.width) :
    tree.receive star =
      (tree, some (.starWidth tree.layout.width star.length)) := by
  rw [receive, if_pos hwidth]

/-- So is one that its subtree does not take. -/
theorem receive_of_none (hwidth : star.length = tree.layout.width)
    (hnone : (tree.octants (tree.domain.cube.octantOf star.point)).insert?
      tree.settings tree.layout star
      (tree.domain.child (tree.domain.cube.octantOf star.point)) = none) :
    tree.receive star =
      (tree, some (.depthLimit tree.settings.depthLimit)) := by
  rw [receive, if_neg (not_not_intro hwidth)]
  dsimp only
  rw [hnone]

theorem receive_of_some (hwidth : star.length = tree.layout.width)
    {node : Node} {growth : Growth}
    (hsome : (tree.octants (tree.domain.cube.octantOf star.point)).insert?
      tree.settings tree.layout star
      (tree.domain.child (tree.domain.cube.octantOf star.point)) =
        some (node, growth)) :
    tree.receive star =
      ({ tree with
          octants := fun o =>
            if o = tree.domain.cube.octantOf star.point then node
            else tree.octants o
          census := tree.census.grow growth }, none) := by
  rw [receive, if_neg (not_not_intro hwidth)]
  dsimp only
  rw [hsome]
  simp only [withOctants, Octet.get_ofFamily]

theorem insert_of_length_ne (hwidth : star.length ≠ tree.layout.width) :
    tree.insert star = .error (.starWidth tree.layout.width star.length) := by
  rw [insert, receive_of_length_ne hwidth]

theorem insert_of_none (hwidth : star.length = tree.layout.width)
    (hnone : (tree.octants (tree.domain.cube.octantOf star.point)).insert?
      tree.settings tree.layout star
      (tree.domain.child (tree.domain.cube.octantOf star.point)) = none) :
    tree.insert star = .error (.depthLimit tree.settings.depthLimit) := by
  rw [insert, receive_of_none hwidth hnone]

/-- A star is refused before anything is done with the tree. -/
theorem receive_of_error (h : tree.insert star = .error fault) :
    tree.receive star = (tree, some fault) := by
  by_cases hwidth : star.length = tree.layout.width
  · cases hnode : (tree.octants (tree.domain.cube.octantOf star.point)).insert?
        tree.settings tree.layout star
        (tree.domain.child (tree.domain.cube.octantOf star.point)) with
    | none =>
        cases h.symm.trans (insert_of_none hwidth hnode)
        exact receive_of_none hwidth hnode
    | some taken =>
        rw [insert, receive_of_some hwidth hnode] at h
        cases h
  · cases h.symm.trans (insert_of_length_ne hwidth)
    exact receive_of_length_ne hwidth

theorem receive_of_ok (h : tree.insert star = .ok next) :
    tree.receive star = (next, none) := by
  rw [insert] at h
  rcases hreceive : tree.receive star with ⟨after, _ | fault⟩
  · rw [hreceive] at h
    cases h
    rfl
  · rw [hreceive] at h
    cases h

/-- A star that is taken is in the tree afterwards. -/
theorem act_insert (h : tree.insert star = .ok next) :
    tree.act (.insert star) = next := by
  rw [act, receive_of_ok h]

/-- A star that is refused leaves the tree as it was. -/
theorem act_insert_of_error (h : tree.insert star = .error fault) :
    tree.act (.insert star) = tree := by
  rw [act, receive_of_error h]

end

/-- The trees that a session can begin with. -/
inductive Fresh : Tree → Prop
  | created {settings : Settings} {layout : Layout} {tree : Tree}
      (h : Tree.create settings layout = .ok tree) : Fresh tree
  | decoded {settings : Settings} {layout : Layout} {bytes : Bytes}
      {tree : Tree} (h : Tree.decode settings layout bytes = .ok tree) :
      Fresh tree

/-- The trees that a session can come to. -/
inductive Reachable : Tree → Prop
  | fresh {tree : Tree} (h : Fresh tree) : Reachable tree
  | act {tree : Tree} (h : Reachable tree) (action : Action) :
      Reachable (tree.act action)

/-- Whether a frame places every node anew and runs out of slots. -/
def stalls (tree : Tree) (oracle : Oracle) (detail : Detail) : Bool :=
  tree.frameStart.2 && !(tree.frame oracle detail).outcome.isOk

/-- Sessions that give the buffer a new size after a frame has failed to place
every node anew, before they run another one.  The flag tells whether such a
frame has failed and the buffer has not been given a new size yet. -/
inductive Managed : Tree → Bool → Prop
  | fresh {tree : Tree} (h : Fresh tree) : Managed tree false
  | insert {tree : Tree} {stalled : Bool} (h : Managed tree stalled)
      (star : Star) : Managed (tree.act (.insert star)) stalled
  | insertFlat {tree : Tree} {stalled : Bool} (h : Managed tree stalled)
      (values : List Value) : Managed (tree.act (.insertFlat values)) stalled
  | resizeBuffer {tree : Tree} {stalled : Bool} (h : Managed tree stalled)
      (capacity : Nat) : Managed (tree.act (.resizeBuffer capacity)) false
  | runFrame {tree : Tree} (h : Managed tree false) (oracle : Oracle)
      (detail : Detail) (time : Option Nat) :
      Managed (tree.act (.runFrame oracle detail time))
        (tree.stalls oracle detail)

theorem Managed.reachable {tree : Tree} {stalled : Bool}
    (h : Managed tree stalled) : Reachable tree := by
  induction h with
  | fresh h => exact .fresh h
  | insert _ star ih => exact ih.act _
  | insertFlat _ values ih => exact ih.act _
  | resizeBuffer _ capacity ih => exact ih.act _
  | runFrame _ oracle detail time ih => exact ih.act _

end Tree

end Starfield
