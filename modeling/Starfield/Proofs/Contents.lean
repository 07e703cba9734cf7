import Starfield.Proofs.Archive.Trees
import Starfield.Proofs.Cut

/-!
# What is stored does not depend on the buffer

Resizing the buffer and running frames change slots and the log, never what the
tree stores.  So what holds of every tree that a session begins with and is kept
by every star that is taken, holds of all trees that a session can come to, as
long as it says nothing about slots.  All trees are regular in this way.
-/

namespace Starfield

namespace Tree

variable {tree next : Tree}

/-- The trees store the same and differ at most in their slots and logs. -/
structure Alike (tree next : Tree) : Prop extends tree.SameContent next where
  layout : next.layout = tree.layout
  census : next.census = tree.census

theorem Alike.domain (h : tree.Alike next) : next.domain = tree.domain := by
  rw [Tree.domain, h.settings, Tree.domain]

theorem alike_resizeBuffer (tree : Tree) (capacity : Nat) :
    tree.Alike (tree.resizeBuffer capacity) := by
  refine ⟨⟨rfl, fun o => ?_⟩, rfl, rfl⟩
  simp only [resizeBuffer, withOctants, Octet.get_ofFamily]
  exact Node.clear_clear _

theorem alike_runFrame (tree : Tree) (oracle : Oracle) (detail : Detail)
    (time : Option Nat) :
    tree.Alike (tree.runFrame oracle detail time).tree := by
  refine ⟨tree.sameContent_runFrame oracle detail time, ?_, ?_⟩ <;>
  · obtain ⟨log, hframe⟩ := @exists_runFrame_eq tree oracle detail time
    rw [hframe]
    rfl

section

variable {P : Tree → Prop}

/-- What every star preserves and what does not depend on slots is preserved by
every action. -/
theorem act_induction
    (hinsert : ∀ {tree next : Tree} {star : Star}, P tree →
      tree.insert star = .ok next → P next)
    (halike : ∀ {tree next : Tree}, P tree → tree.Alike next → P next)
    (htree : P tree) (action : Action) : P (tree.act action) := by
  cases action with
  | insert star => exact act_insert_taken_induction hinsert htree star
  | insertFlat values => exact insertFlat_taken_induction hinsert htree values
  | resizeBuffer capacity =>
      exact halike htree (tree.alike_resizeBuffer capacity)
  | runFrame oracle detail time =>
      exact halike htree (tree.alike_runFrame oracle detail time)

theorem Reachable.induction (h : Reachable tree)
    (hfresh : ∀ {tree : Tree}, Fresh tree → P tree)
    (hinsert : ∀ {tree next : Tree} {star : Star}, P tree →
      tree.insert star = .ok next → P next)
    (halike : ∀ {tree next : Tree}, P tree → tree.Alike next → P next) :
    P tree := by
  induction h with
  | fresh h => exact hfresh h
  | act _ action ih => exact act_induction hinsert halike ih action

end

/-! ## Regular trees -/

/-- All nodes are regular, and inner nodes lie above the depth limit only. -/
structure Regular (tree : Tree) : Prop where
  valid : tree.Valid
  cells : ∀ o, (tree.octants o).All
    (Cell.Regular tree.layout tree.settings.starsPerCell)
  within : ∀ o, (tree.octants o).Within (tree.settings.depthLimit - 1)

theorem Archived.regular (h : tree.Archived) : tree.Regular :=
  ⟨h.valid, fun o => (h.octants o).regular, fun o => (h.octants o).within⟩

theorem Fresh.regular (h : Fresh tree) : tree.Regular := by
  cases h with
  | created h =>
      obtain ⟨rfl, hvalid⟩ := create_eq_ok h
      exact ⟨hvalid, fun _ => ⟨.empty _ _, fun _ => rfl⟩, fun _ => trivial⟩
  | decoded h =>
      obtain ⟨rest, hfront⟩ := decode_eq_ok_iff.mp h
      exact (archived_of_decodeFront hfront).1.regular

theorem Regular.insert {star : Star} (h : tree.Regular)
    (hinsert : tree.insert star = .ok next) : next.Regular := by
  obtain ⟨hstar, node, growth, hnode, rfl⟩ := insert_eq_ok_iff.mp hinsert
  refine ⟨h.valid.congr rfl rfl, ?_, ?_⟩
  · refine Node.forall_replace
      (P := fun _ child => child.All
        (Cell.Regular tree.layout tree.settings.starsPerCell)) ?_ h.cells
    exact (Node.gains_of_insert? hnode).regular h.valid.starsPerCell_pos
      h.valid.three_le_position hstar (h.cells _)
  · exact Node.forall_replace
      (P := fun _ child => child.Within (tree.settings.depthLimit - 1))
      (Node.within_of_insert? hnode (h.within _)) h.within

theorem Regular.alike (h : tree.Regular) (hnext : tree.Alike next) :
    next.Regular := by
  refine ⟨h.valid.congr hnext.settings hnext.layout, fun o => ?_, fun o => ?_⟩
  · rw [hnext.settings, hnext.layout, ← Node.regular_clear, hnext.octants o,
      Node.regular_clear]
    exact h.cells o
  · rw [hnext.settings, ← Node.within_clear, hnext.octants o, Node.within_clear]
    exact h.within o

theorem Regular.of_mem_listing (h : tree.Regular) {entry : Entry}
    (hentry : entry ∈ tree.listing) :
    entry.cell.Regular tree.layout tree.settings.starsPerCell entry.isLeaf := by
  obtain ⟨o, _, ho⟩ := List.mem_flatMap.mp hentry
  exact (Node.all_iff _ [o] (tree.domain.child o)).mp (h.cells o) entry ho

/-- All trees are regular, also those read from bytes and those that a failed
frame has left behind. -/
theorem Reachable.regular (h : Reachable tree) : tree.Regular :=
  h.induction Fresh.regular Regular.insert Regular.alike

end Tree

end Starfield
