import Starfield.Proofs.Flat.Frames
import Starfield.Proofs.Flat.Reading
import Starfield.Proofs.Replies

/-!
# Sessions in columns

Whatever is done with a tree in columns, the replies are those that the tree gives
in rows, and it stays the same tree.  So nothing is ever missing, every node stays
in the part of the cube that its path leads to, and the three words on its slot
agree, although nothing ties them to each other.  This holds as long as the stars
taken are fewer than half the numbers that a word has and the values of a full
cell can be counted with one.
-/

namespace Starfield

namespace FlatNode

def clear : FlatNode → FlatNode
  | leaf cell => leaf { cell with slot := none, drawn := 0, sampled := 0 }
  | inner cell children =>
    inner { cell with slot := none, drawn := 0, sampled := 0 } fun o =>
      (children o).clear

end FlatNode

namespace FlatTree

def insertStars? (tree : FlatTree) :
    List Star → Option (FlatTree × Option Fault)
  | [] => some (tree, none)
  | star :: stars =>
    match tree.receive? star with
    | none => none
    | some (tree, some fault) => some (tree, some fault)
    | some (tree, none) => tree.insertStars? stars

def insertFlat? (tree : FlatTree) (values : List Value) :
    Option (FlatTree × Option Fault) :=
  let width := tree.layout.width
  if width = 0 then none
  else if values.length % width ≠ 0 then
    some (tree, some (.starWidth width (values.length % width)))
  else tree.insertStars? (rows width (values.length / width) values)

def resizeBuffer (tree : FlatTree) (capacity : Nat) : FlatTree :=
  { tree with
    octants := fun o => (tree.octants o).clear
    slots := .ofCapacity capacity }

/-- The tree after an action, and the reply.  There is neither when something is
missing. -/
def act? (tree : FlatTree) : Action → Option (FlatTree × Reply)
  | .insert star =>
    (tree.receive? star).map fun (tree, fault) => (tree, .inserted fault)
  | .insertFlat values =>
    (tree.insertFlat? values).map fun (tree, fault) => (tree, .inserted fault)
  | .resizeBuffer capacity => some (tree.resizeBuffer capacity, .resized)
  | .runFrame oracle detail time =>
    let (tree, asked, outcome) := tree.runFrame oracle detail time
    some (tree, .ran asked outcome)

/-- The tree after actions that are done one after the other, and the replies. -/
def run? (tree : FlatTree) : List Action → Option (FlatTree × List Reply)
  | [] => some (tree, [])
  | action :: actions => do
    let (tree, reply) ← tree.act? action
    let (tree, replies) ← tree.run? actions
    return (tree, reply :: replies)

end FlatTree

/-! ## Single actions -/

theorem Node.clear_flat (node : Node) (layout : Layout) (cube : Cube) :
    (node.flat layout cube).clear = node.clear.flat layout cube := by
  induction node generalizing cube with
  | leaf cell => rfl
  | inner cell children ih =>
      rw [clear_inner, flat, FlatNode.clear]
      simp only [ih]
      rfl

namespace Tree

variable {start tree : Tree} {stars : Nat}

theorem resizeBuffer_flat (tree : Tree) (capacity : Nat) :
    tree.flat.resizeBuffer capacity = (tree.resizeBuffer capacity).flat := by
  rw [FlatTree.resizeBuffer, resizeBuffer, withOctants, Octet.get_ofFamily]
  exact congrArg (fun octants => ({ tree.flat with
      octants, slots := .ofCapacity capacity } : FlatTree))
    (funext fun o => (tree.octants o).clear_flat tree.layout _)

/-! ## Stars -/

theorem stars_insert {next : Tree} {star : Star}
    (h : tree.insert star = .ok next) :
    next.census.stars = tree.census.stars + 1 := by
  obtain ⟨_, _, _, _, rfl⟩ := insert_eq_ok_iff.mp h
  rfl

theorem stars_le_insertStars (tree : Tree) (more : List Star) :
    tree.census.stars ≤ (tree.insertStars more).1.census.stars := by
  apply insertStars_taken_induction (P := fun next =>
    tree.census.stars ≤ next.census.stars) _ (Nat.le_refl _)
  intro before next star hbefore hinsert
  rw [stars_insert hinsert]
  exact Nat.le_succ_of_le hbefore

theorem stars_le_act (tree : Tree) (action : Action) :
    tree.census.stars ≤ (tree.act action).census.stars := by
  apply act_induction (P := fun next =>
    tree.census.stars ≤ next.census.stars) _ _ (Nat.le_refl _)
  · intro before next star hbefore hinsert
    rw [stars_insert hinsert]
    exact Nat.le_succ_of_le hbefore
  · intro before next hbefore halike
    rw [halike.census]
    exact hbefore

theorem stars_le_run (tree : Tree) (actions : List Action) :
    tree.census.stars ≤ (tree.run actions).census.stars :=
  run_induction (P := fun next => tree.census.stars ≤ next.census.stars)
    (fun next action h => Nat.le_trans h (next.stars_le_act action))
    (Nat.le_refl _) actions

section

variable (hregular : tree.Regular) (hcounted : tree.Counted stars)

include hregular hcounted

theorem insertStars?_flat (more : List Star)
    (hfew : (tree.insertStars more).1.census.stars < stars + 2 ^ 31) :
    tree.flat.insertStars? more =
      some ((tree.insertStars more).1.flat, (tree.insertStars more).2) := by
  induction more generalizing tree with
  | nil => rfl
  | cons star more ih =>
      have hbefore := Nat.lt_of_le_of_lt
        (tree.stars_le_insertStars (star :: more)) hfew
      rw [FlatTree.insertStars?,
        hregular.receive?_eq (hcounted.count_lt hbefore)]
      rw [insertStars] at hfew ⊢
      cases hinsert : tree.insert star with
      | error fault =>
          rw [receive_of_error hinsert]
      | ok next =>
          rw [receive_of_ok hinsert] at hfew ⊢
          exact ih (hregular.insert hinsert) (hcounted.insert hregular hinsert)
            hfew

theorem insertFlat?_flat (values : List Value)
    (hfew : (tree.insertFlat values).1.census.stars < stars + 2 ^ 31) :
    tree.flat.insertFlat? values =
      some ((tree.insertFlat values).1.flat, (tree.insertFlat values).2) := by
  have hwidth := Nat.ne_of_gt hregular.valid.width_pos
  have hlayout : tree.flat.layout = tree.layout := rfl
  simp only [FlatTree.insertFlat?, hlayout, if_neg hwidth]
  rw [insertFlat] at hfew ⊢
  split
  · rfl
  · rename_i hwhole
    simp only [if_neg hwhole] at hfew
    exact insertStars?_flat hregular hcounted _ hfew

end

/-! ## Sessions -/

theorem reply_insert (tree : Tree) (star : Star) :
    tree.reply (.insert star) = .inserted (tree.receive star).2 := by
  rw [reply]
  cases hinsert : tree.insert star with
  | error fault => rw [receive_of_error hinsert]
  | ok next => rw [receive_of_ok hinsert]

/-- An action on a tree in columns does to it what it does to the tree, and the
reply is the same. -/
theorem Reachable.act?_flat (h : Reachable tree) (hcounted : tree.Counted stars)
    (hwords : tree.settings.starsPerCell * tree.layout.width < 2 ^ 32)
    (action : Action)
    (hfew : (tree.act action).census.stars < stars + 2 ^ 31) :
    tree.flat.act? action = some ((tree.act action).flat, tree.reply action) := by
  have hbefore := Nat.lt_of_le_of_lt (tree.stars_le_act action) hfew
  cases action with
  | insert star =>
      rw [FlatTree.act?, h.regular.receive?_eq (hcounted.count_lt hbefore),
        reply_insert]
      rfl
  | insertFlat values =>
      rw [FlatTree.act?, insertFlat?_flat h.regular hcounted values hfew]
      rfl
  | resizeBuffer capacity =>
      rw [FlatTree.act?, resizeBuffer_flat]
      rfl
  | runFrame oracle detail time =>
      rw [FlatTree.act?, h.runFrame_flat hwords]
      rfl

/-- Settings and layout stay as they are. -/
theorem same_act (tree : Tree) (action : Action) :
    (tree.act action).settings = tree.settings ∧
      (tree.act action).layout = tree.layout := by
  apply act_induction (P := fun next =>
    next.settings = tree.settings ∧ next.layout = tree.layout) _ _ ⟨rfl, rfl⟩
  · intro before next star hbefore hinsert
    have hgains := gains_of_insert hinsert
    rw [hgains.settings, hgains.layout]
    exact hbefore
  · intro before next hbefore halike
    rw [halike.settings, halike.layout]
    exact hbefore

theorem Reachable.run?_flat (h : Reachable tree) (hcounted : tree.Counted stars)
    (hwords : tree.settings.starsPerCell * tree.layout.width < 2 ^ 32)
    (actions : List Action)
    (hfew : (tree.run actions).census.stars < stars + 2 ^ 31) :
    tree.flat.run? actions =
      some ((tree.run actions).flat, tree.replies actions) := by
  induction actions generalizing tree with
  | nil => rfl
  | cons action actions ih =>
      have hafter := (h.regular.counted_act hcounted action).2
      have hfirst := Nat.lt_of_le_of_lt
        ((tree.act action).stars_le_run actions) hfew
      obtain ⟨hsettings, hlayout⟩ := tree.same_act action
      rw [FlatTree.run?, h.act?_flat hcounted hwords action hfirst,
        Option.bind_eq_bind, Option.bind_some]
      dsimp only
      rw [ih (h.act action) hafter (by rwa [hsettings, hlayout]) hfew]
      rfl

/-- From a tree that a session can begin with, the same actions lead to the same
tree in columns and in rows, and to the same replies. -/
theorem Fresh.run?_flat (h : Fresh start)
    (hwords : start.settings.starsPerCell * start.layout.width < 2 ^ 32)
    (actions : List Action)
    (hfew : (start.run actions).census.stars < start.census.stars + 2 ^ 31) :
    start.flat.run? actions =
      some ((start.run actions).flat, start.replies actions) :=
  (Reachable.fresh h).run?_flat h.counted hwords actions hfew

end Tree

/-! ## What the nodes say of themselves -/

/-- A node without a slot shows nothing, and a leaf shows no sample. -/
structure FlatCell.Coherent (isLeaf : Bool) (cell : FlatCell) : Prop where
  vacant : cell.slot = none → cell.drawn = 0 ∧ cell.sampled = 0
  leaf : isLeaf = true → cell.sampled = 0

/-- The root of the subtree fills the cube, the words of every node agree, and
the children of every inner node fill the parts of its cube. -/
def FlatNode.Coherent (cube : Cube) : FlatNode → Prop
  | leaf cell => cell.cube = cube ∧ cell.Coherent true
  | inner cell children =>
    cell.cube = cube ∧ cell.Coherent false ∧
      ∀ o, (children o).Coherent (cube.child o)

def FlatTree.Coherent (tree : FlatTree) : Prop :=
  ∀ o, (tree.octants o).Coherent (tree.cube.child o)

theorem Cell.Fits.coherent {layout : Layout} {capacity : Nat} {isLeaf : Bool}
    {cell : Cell} (h : cell.Fits layout capacity isLeaf) (cube : Cube) :
    (cell.flat layout cube).Coherent isLeaf := by
  rw [flat]
  cases htenancy : cell.tenancy with
  | none =>
      rw [shown_of_vacant htenancy]
      exact ⟨fun _ => ⟨rfl, rfl⟩, fun _ => rfl⟩
  | some tenancy =>
      refine ⟨?_, fun hleaf => ?_⟩
      · rintro ⟨⟩
      · exact congrArg Nat.toUInt32 ((h tenancy htenancy).leaf hleaf)

theorem Node.coherent_flat {node : Node} {layout : Layout} {capacity : Nat}
    (h : node.All (Cell.Fits layout capacity)) (cube : Cube) :
    (node.flat layout cube).Coherent cube := by
  induction node generalizing cube with
  | leaf cell => exact ⟨rfl, Cell.Fits.coherent h cube⟩
  | inner cell children ih =>
      exact ⟨rfl, h.1.coherent cube, fun o => ih o (h.2 o) _⟩

theorem Tree.Reachable.coherent_flat {tree : Tree} (h : tree.Reachable) :
    tree.flat.Coherent :=
  fun o => Node.coherent_flat (h.fits o) _

/-- Whatever is done with a tree in columns, a tree in rows gives the same
replies.  Every node is where its path leads, and the three words on its slot
agree. -/
theorem FlatTree.Fresh.exists_rows {start : FlatTree} (h : start.Fresh)
    (hwords : start.settings.starsPerCell * start.layout.width < 2 ^ 32) :
    ∃ rows : Tree, rows.Fresh ∧ rows.flat = start ∧
      ∀ actions,
        (rows.run actions).census.stars < start.census.stars + 2 ^ 31 →
        start.run? actions =
            some ((rows.run actions).flat, rows.replies actions) ∧
          (rows.run actions).flat.Coherent := by
  obtain ⟨rows, hrows, rfl⟩ := h.exists_flat
  refine ⟨rows, hrows, rfl, fun actions hfew => ?_⟩
  exact ⟨hrows.run?_flat hwords actions hfew,
    ((Tree.Reachable.fresh hrows).run actions).coherent_flat⟩

end Starfield
