import Starfield.Proofs.Contents
import Starfield.Proofs.Flat.Growth

/-!
# Whatever is read is there

Begin with an empty tree, or with one read from any bytes that are accepted, and
do whatever you like, as long as fewer stars are taken than half the numbers that
a word has.  Then every node has its stars in columns that fit together, and the
operations that read the columns find all they look for.  A count that comes from
an archive may be any number without a sign bit, so only the stars taken since
then are limited.
-/

namespace Starfield

/-- A tree that keeps its stars in columns, and the cube of each node in the
node. -/
structure FlatTree where
  settings : Settings
  layout : Layout
  cube : Cube
  octants : Octant → FlatNode
  slots : SlotPool
  census : Census
  log : FrameLog

/-- The tree after a star has come to it, and the reason if the star is refused.
There is no result when something is not found on the way. -/
def FlatTree.receive? (tree : FlatTree) (star : Star) :
    Option (FlatTree × Option Fault) :=
  if star.length ≠ tree.layout.width then
    some (tree, some (.starWidth tree.layout.width star.length))
  else do
    let point ← star.point?
    let target := tree.cube.octantOf point
    let fits ← (tree.octants target).fits? tree.settings tree.layout point 1
    if fits then
      let (node, census) ← (tree.octants target).insert? tree.settings
        tree.layout (tree.settings.depthLimit - 1) 1 star tree.census
      return ({ tree with
        octants := Function.update tree.octants target node
        census := { census with stars := census.stars + 1 } }, none)
    else return (tree, some (.depthLimit tree.settings.depthLimit))

namespace Tree

def flat (tree : Tree) : FlatTree where
  settings := tree.settings
  layout := tree.layout
  cube := tree.domain.cube
  octants o := (tree.octants o).flat tree.layout (tree.domain.cube.child o)
  slots := tree.slots
  census := tree.census
  log := tree.log

def run (tree : Tree) (actions : List Action) : Tree := actions.foldl act tree

/-- No count exceeds what a word with a sign can hold by more than the stars
taken since there were the given number of them. -/
def Counted (stars : Nat) (tree : Tree) : Prop :=
  ∃ bound, bound + stars < 2 ^ 31 + tree.census.stars ∧
    ∀ o, (tree.octants o).All fun _ cell => cell.count ≤ bound

end Tree

/-- A star raises every count by one at most. -/
theorem Node.Gains.counted {settings : Settings} {layout : Layout} {star : Star}
    {place : Place} {node next : Node} {bound : Nat}
    (h : Gains settings layout star place node next)
    (hregular : node.All (Cell.Regular layout settings.starsPerCell))
    (hnode : node.All fun _ cell => cell.count ≤ bound) :
    next.All fun _ cell => cell.count ≤ bound + 1 := by
  induction h with
  | joined => exact Nat.succ_le_succ hnode
  | @parted place cell child _ _ ih =>
      have hparts : ∀ o, (partLeaf place cell.stars o).All
          fun _ cell => cell.count ≤ bound := fun o =>
        Nat.le_trans (Nat.le_trans Array.size_filter_le
          (Nat.le_of_eq (hregular.count rfl).symm)) hnode
      refine ⟨Nat.succ_le_succ hnode, forall_replace
        (ih (regular_partLeaf hregular.stocked place _) (hparts _)) fun o => ?_⟩
      exact (hparts o).mono fun _ _ h => Nat.le_succ_of_le h
  | @passed place cell children child _ ih =>
      refine ⟨Nat.succ_le_succ hnode.1,
        forall_replace (ih (hregular.2 _) (hnode.2 _)) fun o => ?_⟩
      exact (hnode.2 o).mono fun _ _ h => Nat.le_succ_of_le h

namespace Tree

variable {start tree next : Tree}

theorem Fresh.counted (h : Fresh start) : start.Counted start.census.stars := by
  cases h with
  | created h =>
      obtain ⟨rfl, _⟩ := create_eq_ok h
      exact ⟨0, Nat.add_lt_add_right (by decide) _, fun _ => Nat.le_refl 0⟩
  | decoded h =>
      obtain ⟨rest, hfront⟩ := decode_eq_ok_iff.mp h
      have harchived := (archived_of_decodeFront hfront).1
      refine ⟨2 ^ 31 - 1, Nat.add_lt_add_right (by decide) _, fun o => ?_⟩
      exact (harchived.octants o).cells.mono
        fun _ _ hcell => Nat.le_sub_one_of_lt hcell.count_lt

/-- As long as few stars have been taken, every node can count one more. -/
theorem Counted.count_lt {stars : Nat} (h : tree.Counted stars)
    (hfew : tree.census.stars < stars + 2 ^ 31) (o : Octant) :
    (tree.octants o).All fun _ cell => cell.count + 1 < 2 ^ 32 := by
  obtain ⟨bound, hbound, hcounts⟩ := h
  refine (hcounts o).mono fun _ cell hcell => ?_
  have hcell : cell.count ≤ bound := hcell
  omega

theorem Counted.insert {stars : Nat} {star : Star} (hregular : tree.Regular)
    (h : tree.Counted stars) (hinsert : tree.insert star = .ok next) :
    next.Counted stars := by
  obtain ⟨bound, hbound, hcounts⟩ := h
  obtain ⟨_, node, growth, hnode, rfl⟩ := insert_eq_ok_iff.mp hinsert
  refine ⟨bound + 1, ?_, ?_⟩
  · change bound + 1 + stars < 2 ^ 31 + (tree.census.stars + 1)
    omega
  · refine Node.forall_replace
      (P := fun _ child => child.All fun _ cell => cell.count ≤ bound + 1)
      ?_ fun o => (hcounts o).mono fun _ _ h => Nat.le_succ_of_le h
    exact (Node.gains_of_insert? hnode).counted (hregular.cells _) (hcounts _)

theorem Counted.alike {stars : Nat} (h : tree.Counted stars)
    (hnext : tree.Alike next) : next.Counted stars := by
  obtain ⟨bound, hbound, hcounts⟩ := h
  refine ⟨bound, by rwa [hnext.census], fun o => ?_⟩
  have hclear := @Node.all_clear (fun _ cell => cell.count ≤ bound)
    fun _ _ => Iff.rfl
  rw [← hclear, hnext.octants o, hclear]
  exact hcounts o

/-- What every action preserves holds after all of them. -/
theorem run_induction {P : Tree → Prop}
    (hact : ∀ tree action, P tree → P (tree.act action)) (htree : P tree)
    (actions : List Action) : P (tree.run actions) := by
  induction actions generalizing tree with
  | nil => exact htree
  | cons action actions ih => exact ih (hact tree action htree)

theorem Reachable.run (h : Reachable tree) (actions : List Action) :
    Reachable (tree.run actions) :=
  run_induction (fun _ action htree => htree.act action) h actions

theorem Regular.counted_act {stars : Nat} (h : tree.Regular)
    (hcounted : tree.Counted stars) (action : Action) :
    (tree.act action).Regular ∧ (tree.act action).Counted stars := by
  apply act_induction (P := fun tree => tree.Regular ∧ tree.Counted stars)
    _ _ ⟨h, hcounted⟩ action
  · intro tree next star htree hinsert
    exact ⟨htree.1.insert hinsert, htree.2.insert htree.1 hinsert⟩
  · intro tree next htree halike
    exact ⟨htree.1.alike halike, htree.2.alike halike⟩

/-- What becomes of a star and of the tree is the same in columns as it is in
rows. -/
theorem Regular.receive?_eq (h : tree.Regular)
    (hcounts : ∀ o, (tree.octants o).All fun _ cell => cell.count + 1 < 2 ^ 32)
    (star : Star) :
    tree.flat.receive? star =
      some ((tree.receive star).1.flat, (tree.receive star).2) := by
  by_cases hwidth : star.length ≠ tree.layout.width
  · rw [receive_of_length_ne hwidth]
    exact if_pos hwidth
  have hstar : star.length = tree.layout.width := Decidable.not_not.mp hwidth
  have hlayout := h.valid.three_le_position
  let target := tree.domain.cube.octantOf star.point
  have hfits := @FlatNode.fits?_flat tree.settings tree.layout star
    (tree.domain.child target) _ hlayout (h.cells target)
  rw [FlatTree.receive?]
  refine (if_neg hwidth).trans ?_
  rw [point?_of_width hlayout hstar]
  simp only [Option.bind_eq_bind, Option.bind_some]
  refine (congrArg (Option.bind · _) hfits).trans ?_
  rw [Option.bind_some]
  cases hnode : (tree.octants target).insert? tree.settings tree.layout star
      (tree.domain.child target) with
  | none =>
      rw [receive_of_none hstar hnode]
      rfl
  | some taken =>
      obtain ⟨node, growth⟩ := taken
      have hflat := FlatNode.insert?_flat hlayout h.valid.starsPerCell_pos hstar
        (h.cells target) (h.within target) (hcounts target) hnode tree.census
      rw [receive_of_some hstar hnode]
      refine (congrArg (Option.bind · _) hflat).trans ?_
      exact congrArg (fun octants =>
          some (({ tree.flat with
            octants
            census := tree.census.grow growth } : FlatTree), none))
        (Node.flat_replace tree.layout tree.domain.cube tree.octants target
          node).symm

end Tree

/-! ## What is found in a node -/

def Entry.columns (layout : Layout) (entry : Entry) : Columns :=
  (entry.cell.flat layout entry.place.cube).columns

namespace Tree

variable {start tree : Tree}

/-- An archive with an inner node that boasts of as many stars as a record can
say, and has none. -/
def boastful : Bytes :=
  encode {
    settings := crowdedSettings
    layout := {}
    octants := fun o =>
      if o = .ofIndex 0 then .inner { count := 2 ^ 31 - 1 } fun _ => .leaf {}
      else .leaf {} }

end Tree

end Starfield
