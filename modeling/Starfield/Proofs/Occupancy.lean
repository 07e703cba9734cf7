import Starfield.Proofs.Frame.Outcome
import Starfield.Proofs.Growth

/-!
# Slots outside of frames

Only frames give slots to nodes.  A fresh tree has none, a new buffer size takes
all of them away, and insertion leaves every slot with the node that holds it,
even when that node is split.  In particular no session can come to a tree where
a seated node lies below another one.
-/

namespace Starfield

namespace Node

/-- The slots that the nodes of a subtree hold, in pre-order. -/
def held : Node → List Nat
  | leaf cell => cell.held
  | inner cell children =>
      cell.held ++ Octant.all.flatMap fun o => (children o).held

theorem flatMap_held_listing (node : Node) (path : List Octant)
    (place : Place) :
    (node.listing path place).flatMap (fun entry => entry.cell.held) =
      node.held := by
  induction node generalizing path place with
  | leaf cell => simp [listing, held]
  | inner cell children ih =>
      rw [listing, List.flatMap_cons, List.flatMap_assoc, held]
      simp only [ih]

theorem Vacant.held_eq {node : Node} (hnode : node.Vacant) :
    node.held = [] := by
  induction node with
  | leaf cell => exact Cell.held_of_vacant hnode
  | inner cell children ih =>
      rw [held, Cell.held_of_vacant hnode.1, List.nil_append,
        List.flatMap_eq_nil_iff]
      exact fun o _ => ih o (hnode.2 o)

/-! ## Insertion -/

section

variable {settings : Settings} {layout : Layout} {star : Star} {place : Place}
  {node next : Node}

theorem vacant_partLeaf (place : Place) (stars : Array Star) (o : Octant) :
    (partLeaf place stars o).Vacant :=
  rfl

theorem Gains.vacant (h : Gains settings layout star place node next)
    (hnode : node.Vacant) : next.Vacant := by
  induction h with
  | joined => exact hnode
  | parted _ _ ih =>
      exact ⟨hnode, forall_replace (ih (vacant_partLeaf _ _ _))
        (vacant_partLeaf _ _)⟩
  | passed _ ih =>
      exact ⟨hnode.1, forall_replace (ih (hnode.2 _)) hnode.2⟩

theorem Gains.unnested (h : Gains settings layout star place node next)
    (hnode : node.Unnested) : next.Unnested := by
  induction h with
  | joined => trivial
  | @parted place cell child _ hchild _ =>
      have hchildren : ∀ o, (replace (partLeaf place cell.stars)
          (place.cube.octantOf star.point) child o).Vacant :=
        forall_replace (hchild.vacant (vacant_partLeaf _ _ _))
          (vacant_partLeaf _ _)
      exact ⟨fun _ => hchildren, fun o => (hchildren o).unnested⟩
  | passed hchild ih =>
      refine ⟨fun hseated => ?_, forall_replace (ih (hnode.2 _)) hnode.2⟩
      exact forall_replace (hchild.vacant (hnode.1 hseated _))
        (hnode.1 hseated)

theorem Gains.held_eq (h : Gains settings layout star place node next) :
    next.held = node.held := by
  induction h with
  | joined => rfl
  | @parted place cell child _ hchild _ =>
      have hchildren : ∀ o, (replace (partLeaf place cell.stars)
          (place.cube.octantOf star.point) child o).Vacant :=
        forall_replace (hchild.vacant (vacant_partLeaf _ _ _))
          (vacant_partLeaf _ _)
      have hbelow : Octant.all.flatMap (fun o =>
          (replace (partLeaf place cell.stars)
            (place.cube.octantOf star.point) child o).held) = [] :=
        List.flatMap_eq_nil_iff.mpr fun o _ => (hchildren o).held_eq
      rw [held, held, hbelow, List.append_nil]
      rfl
  | @passed place cell children child _ ih =>
      rw [held, held]
      congr 1
      apply List.flatMap_congr
      intro o _
      exact forall_replace (P := fun o child => child.held = (children o).held)
        ih (fun _ => rfl) o

end

end Node

/-! ## Archives -/

namespace Archive

variable {layout : Layout} {depth : Nat} {bytes rest : Bytes}

theorem tenancy_takeCell {capacity : Nat} {taken : Bool × Cell}
    (h : takeCell layout capacity depth bytes = .ok (taken, rest)) :
    taken.2.tenancy = none := by
  rw [takeCell] at h
  obtain ⟨⟨isLeaf, bytes⟩, _, h⟩ := ok_of_bind h
  obtain ⟨⟨count, bytes⟩, _, h⟩ := ok_of_bind h
  obtain ⟨⟨size, bytes⟩, _, h⟩ := ok_of_bind h
  obtain ⟨_, h⟩ := ok_of_check h
  obtain ⟨_, h⟩ := ok_of_check h
  obtain ⟨_, h⟩ := ok_of_check h
  obtain ⟨⟨values, bytes⟩, _, h⟩ := ok_of_bind h
  cases h
  rfl

/-- Nothing of the drawing buffer is stored. -/
theorem vacant_takeNode {settings : Settings} {levels : Nat} {node : Node}
    (h : takeNode settings layout levels depth bytes = .ok (node, rest)) :
    node.Vacant := by
  induction levels generalizing depth bytes rest node with
  | zero =>
      rw [takeNode] at h
      obtain ⟨⟨⟨isLeaf, cell⟩, bytes⟩, hcell, h⟩ := ok_of_bind h
      cases isLeaf with
      | true =>
          cases h
          exact tenancy_takeCell hcell
      | false => cases h
  | succ levels ih =>
      rw [takeNode] at h
      obtain ⟨⟨⟨isLeaf, cell⟩, bytes⟩, hcell, h⟩ := ok_of_bind h
      cases isLeaf with
      | true =>
          cases h
          exact tenancy_takeCell hcell
      | false =>
          obtain ⟨⟨children, bytes⟩, hchildren, h⟩ := ok_of_bind h
          cases h
          refine ⟨tenancy_takeCell hcell, fun o => ?_⟩
          obtain ⟨_, _, ho⟩ := Octet.exists_get_thread? hchildren o
          exact ih ho

end Archive

namespace Tree

/-! ## Whole trees -/

def held (tree : Tree) : List Nat :=
  tree.listing.flatMap fun entry => entry.cell.held

theorem held_eq (tree : Tree) :
    tree.held = Octant.all.flatMap fun o => (tree.octants o).held := by
  rw [held, listing, List.flatMap_assoc]
  simp only [Node.flatMap_held_listing]

def Vacant (tree : Tree) : Prop := ∀ o, (tree.octants o).Vacant

/-- The settings and the layout can describe a tree. -/
structure Valid (tree : Tree) : Prop where
  settings : tree.settings.validate = .ok ()
  layout : tree.layout.validate = .ok ()

variable {tree next : Tree}

theorem Valid.starsPerCell_pos (h : tree.Valid) :
    0 < tree.settings.starsPerCell := by
  have hsettings := h.settings
  rw [Settings.validate] at hsettings
  split at hsettings
  · cases hsettings
  · split at hsettings
    · cases hsettings
    · omega

theorem Valid.three_le_position (h : tree.Valid) :
    3 ≤ tree.layout.position := by
  have hlayout := h.layout
  rw [Layout.validate] at hlayout
  split at hlayout
  · cases hlayout
  · omega

theorem Valid.position_pos (h : tree.Valid) : 0 < tree.layout.position :=
  Nat.lt_of_lt_of_le (by decide) h.three_le_position

theorem Valid.width_pos (h : tree.Valid) : 0 < tree.layout.width :=
  Nat.add_pos_left (Nat.add_pos_left h.position_pos _) _

theorem Valid.three_le_width (h : tree.Valid) : 3 ≤ tree.layout.width :=
  Nat.le_trans h.three_le_position
    (Nat.le_trans (Nat.le_add_right _ _) (Nat.le_add_right _ _))

theorem Vacant.unnested (htree : tree.Vacant) : tree.Unnested :=
  fun o => (htree o).unnested

theorem Vacant.held_eq (htree : tree.Vacant) : tree.held = [] := by
  rw [Tree.held_eq, List.flatMap_eq_nil_iff]
  exact fun o _ => (htree o).held_eq

theorem vacant_resizeBuffer (tree : Tree) (capacity : Nat) :
    (tree.resizeBuffer capacity).Vacant := by
  intro o
  simp only [resizeBuffer, withOctants, Octet.get_ofFamily]
  exact (tree.octants o).vacant_clear

/-- What a new tree looks like. -/
theorem create_eq_ok {settings : Settings} {layout : Layout}
    (h : Tree.create settings layout = .ok tree) :
    tree = { settings, layout } ∧ tree.Valid := by
  rw [create] at h
  obtain ⟨_, hsettings, h⟩ := ok_of_bind h
  obtain ⟨_, hlayout, h⟩ := ok_of_bind h
  cases h
  exact ⟨rfl, hsettings, hlayout⟩

/-- A tree that no action was done on has valid settings, no slots and no node
that holds one. -/
theorem Fresh.start (h : Fresh tree) :
    tree.Valid ∧ tree.slots = {} ∧ tree.Vacant := by
  cases h with
  | created h =>
      obtain ⟨rfl, hvalid⟩ := create_eq_ok h
      exact ⟨hvalid, rfl, fun _ => rfl⟩
  | decoded h =>
      rw [decode] at h
      obtain ⟨⟨width, bytes⟩, _, h⟩ := ok_of_bind h
      obtain ⟨_, h⟩ := ok_of_check h
      obtain ⟨⟨capacity, bytes⟩, _, h⟩ := ok_of_bind h
      obtain ⟨_, h⟩ := ok_of_check h
      obtain ⟨begun, hbegun, h⟩ := ok_of_bind h
      obtain ⟨⟨octants, bytes⟩, hoctants, h⟩ := ok_of_bind h
      obtain ⟨rfl, hvalid⟩ := create_eq_ok hbegun
      cases h
      refine ⟨⟨hvalid.settings, hvalid.layout⟩, rfl, fun o => ?_⟩
      obtain ⟨_, _, ho⟩ := Octet.exists_get_thread? hoctants o
      exact Archive.vacant_takeNode ho

/-! ## Actions -/

theorem Gains.held_eq {star : Star} (h : tree.Gains star next) :
    next.held = tree.held := by
  obtain ⟨child, hchild, hoctants⟩ := h.octants
  rw [Tree.held_eq, Tree.held_eq, hoctants]
  apply List.flatMap_congr
  intro o _
  exact Node.forall_replace
    (P := fun o child => child.held = (tree.octants o).held)
    hchild.held_eq (fun _ => rfl) o

theorem Gains.unnested {star : Star} (h : tree.Gains star next)
    (htree : tree.Unnested) : next.Unnested := by
  obtain ⟨child, hchild, hoctants⟩ := h.octants
  intro o
  rw [hoctants]
  exact Node.forall_replace (P := fun _ child => child.Unnested)
    (hchild.unnested (htree _)) htree o

theorem Valid.congr (h : tree.Valid) (hsettings : next.settings = tree.settings)
    (hlayout : next.layout = tree.layout) : next.Valid :=
  ⟨by rw [hsettings]; exact h.settings, by rw [hlayout]; exact h.layout⟩

theorem Valid.act (htree : tree.Valid) (action : Action) :
    (tree.act action).Valid := by
  cases action with
  | insert star =>
      exact act_insert_induction
        (fun htree h => htree.congr h.settings h.layout) htree star
  | insertFlat values =>
      exact insertFlat_induction
        (fun htree h => htree.congr h.settings h.layout) htree values
  | resizeBuffer capacity => exact htree.congr rfl rfl
  | runFrame oracle detail time =>
      obtain ⟨log, hframe⟩ := exists_runFrame_eq oracle detail time
      rw [Tree.act, hframe]
      exact htree.congr rfl rfl

theorem Unnested.act (htree : tree.Unnested) (action : Action) :
    (tree.act action).Unnested := by
  cases action with
  | insert star =>
      exact act_insert_induction (fun htree h => h.unnested htree) htree star
  | insertFlat values =>
      exact insertFlat_induction (fun htree h => h.unnested htree) htree values
  | resizeBuffer capacity =>
      exact (vacant_resizeBuffer tree capacity).unnested
  | runFrame oracle detail time =>
      obtain ⟨log, hframe⟩ := exists_runFrame_eq oracle detail time
      rw [Tree.act, hframe]
      exact htree.frame oracle detail

theorem Reachable.valid (h : Reachable tree) : tree.Valid := by
  induction h with
  | fresh h => exact h.start.1
  | act _ action ih => exact ih.act action

theorem Reachable.unnested (h : Reachable tree) : tree.Unnested := by
  induction h with
  | fresh h => exact h.start.2.2.unnested
  | act _ action ih => exact ih.act action

end Tree

end Starfield
