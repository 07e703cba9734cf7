import Starfield.Proofs.Session

/-!
# How a subtree takes a star

A star joins a leaf with room, splits a full one or passes an inner node on the
way to one of its children.  This file states the three cases as a relation and
proves that every insertion is an instance of it, so what insertion preserves is
proved by induction on the relation.
-/

namespace Starfield

variable {settings : Settings} {layout : Layout} {star : Star}

/-- A star is stored as far below the leaf that it has come to as there are
splits. -/
theorem Cell.depth_of_grow? {levels : Nat} {place : Place} {cell : Cell}
    {next : Node} {growth : Growth}
    (h : cell.grow? settings layout star levels place = some (next, growth)) :
    growth.depth = place.depth + growth.splits := by
  induction levels generalizing place cell next growth with
  | zero =>
      rw [grow?] at h
      split at h <;> cases h
      rfl
  | succ levels ih =>
      rw [grow?] at h
      split at h
      · cases h
        rfl
      · obtain ⟨⟨child, below⟩, hchild, hnext⟩ := Option.map_eq_some_iff.mp h
        cases hnext
        exact (ih hchild).trans (Nat.add_right_comm _ _ _)

namespace Node

def replace (children : Octant → Node) (target : Octant) (child : Node) :
    Octant → Node :=
  fun o => if o = target then child else children o

theorem replace_self (children : Octant → Node) (target : Octant)
    (child : Node) : replace children target child target = child :=
  if_pos rfl

theorem replace_of_ne (children : Octant → Node) {target o : Octant}
    (child : Node) (ho : o ≠ target) :
    replace children target child o = children o :=
  if_neg ho

/-- A property of all members holds after the replacement when it holds of the
new member and of the others. -/
theorem forall_replace {P : Octant → Node → Prop} {children : Octant → Node}
    {target : Octant} {child : Node} (hchild : P target child)
    (hchildren : ∀ o, P o (children o)) (o : Octant) :
    P o (replace children target child o) := by
  by_cases ho : o = target
  · subst o
    rw [replace_self]
    exact hchild
  · rw [replace_of_ne children child ho]
    exact hchildren o

/-- The leaf for one octant of a leaf that is split. -/
def partLeaf (place : Place) (stars : Array Star) (o : Octant) : Node :=
  leaf (.ofStars (place.cube.part stars o))

/-- The second subtree is the first one after it has taken the star. -/
inductive Gains (settings : Settings) (layout : Layout) (star : Star) :
    Place → Node → Node → Prop
  | joined {place : Place} {cell : Cell}
      (hroom : cell.count < settings.starsPerCell) :
      Gains settings layout star place (leaf cell) (leaf (cell.joined star))
  | parted {place : Place} {cell : Cell} {child : Node}
      (hfull : settings.starsPerCell ≤ cell.count)
      (hchild : Gains settings layout star
        (place.child (place.cube.octantOf star.point))
        (partLeaf place cell.stars (place.cube.octantOf star.point)) child) :
      Gains settings layout star place (leaf cell)
        (inner ((cell.subdivided settings layout place).passed settings star place)
          (replace (partLeaf place cell.stars)
            (place.cube.octantOf star.point) child))
  | passed {place : Place} {cell : Cell} {children : Octant → Node}
      {child : Node}
      (hchild : Gains settings layout star
        (place.child (place.cube.octantOf star.point))
        (children (place.cube.octantOf star.point)) child) :
      Gains settings layout star place (inner cell children)
        (inner (cell.passed settings star place)
          (replace children (place.cube.octantOf star.point) child))

/-- A property of all cells of a subtree, which may depend on whether the cell is
that of a leaf. -/
def All (P : Bool → Cell → Prop) : Node → Prop
  | leaf cell => P true cell
  | inner cell children => P false cell ∧ ∀ o, (children o).All P

theorem All.mono {P Q : Bool → Cell → Prop}
    (hPQ : ∀ isLeaf cell, P isLeaf cell → Q isLeaf cell) {node : Node}
    (h : node.All P) : node.All Q := by
  induction node with
  | leaf cell => exact hPQ true cell h
  | inner cell children ih =>
      exact ⟨hPQ false cell h.1, fun o => ih o (h.2 o)⟩

theorem all_iff {P : Bool → Cell → Prop} (node : Node) (path : List Octant)
    (place : Place) :
    node.All P ↔
      ∀ entry ∈ node.listing path place, P entry.isLeaf entry.cell := by
  induction node generalizing path place with
  | leaf cell => simp [All, listing]
  | inner cell children ih =>
      simp only [All, listing, List.forall_mem_cons, List.mem_flatMap,
        fun o => ih o (path ++ [o]) (place.child o)]
      constructor
      · rintro ⟨hcell, hchildren⟩
        exact ⟨hcell, fun entry ⟨o, _, ho⟩ => hchildren o entry ho⟩
      · rintro ⟨hcell, hchildren⟩
        exact ⟨hcell, fun o entry ho =>
          hchildren entry ⟨o, Octant.mem_all o, ho⟩⟩

/-- What every cell keeps when a star comes its way, and a new leaf has, holds
after the star of all cells of which it held before. -/
theorem Gains.all {P : Bool → Cell → Prop} {place : Place} {node next : Node}
    (h : Gains settings layout star place node next)
    (hjoined : ∀ cell, P true cell → P true (cell.joined star))
    (hparted : ∀ place cell, P true cell →
      P false
        ((cell.subdivided settings layout place).passed settings star place))
    (hpassed : ∀ place cell, P false cell →
      P false (cell.passed settings star place))
    (hnew : ∀ stars, P true (.ofStars stars)) (hnode : node.All P) :
    next.All P := by
  induction h with
  | joined => exact hjoined _ hnode
  | parted _ _ ih =>
      exact ⟨hparted _ _ hnode,
        forall_replace (ih (hnew _)) fun _ => hnew _⟩
  | passed _ ih =>
      exact ⟨hpassed _ _ hnode.1, forall_replace (ih (hnode.2 _)) hnode.2⟩

theorem gains_of_grow? {levels : Nat} {place : Place} {cell : Cell}
    {node : Node} {growth : Growth}
    (h : cell.grow? settings layout star levels place = some (node, growth)) :
    Gains settings layout star place (leaf cell) node := by
  induction levels generalizing place cell node growth with
  | zero =>
      rw [Cell.grow?] at h
      split at h
      · cases h
        exact .joined ‹_›
      · cases h
  | succ levels ih =>
      rw [Cell.grow?] at h
      split at h
      · cases h
        exact .joined ‹_›
      · rename_i hfull
        rw [Option.map_eq_some_iff] at h
        obtain ⟨⟨child, below⟩, hchild, hnode⟩ := h
        cases hnode
        rw [ofFamily_eq]
        exact .parted (Nat.le_of_not_lt hfull) (ih hchild)

theorem gains_of_insert? {node next : Node} {place : Place} {growth : Growth}
    (h : node.insert? settings layout star place = some (next, growth)) :
    Gains settings layout star place node next := by
  induction node generalizing place next growth with
  | leaf cell => exact gains_of_grow? h
  | inner cell children ih =>
      rw [insert?, Option.map_eq_some_iff] at h
      obtain ⟨⟨child, below⟩, hchild, hnext⟩ := h
      cases hnext
      rw [ofFamily_eq]
      exact .passed (ih _ hchild)

end Node

namespace Tree

structure Gains (star : Star) (tree next : Tree) : Prop where
  width : star.length = tree.layout.width
  settings : next.settings = tree.settings
  layout : next.layout = tree.layout
  slots : next.slots = tree.slots
  octants : ∃ child,
    Node.Gains tree.settings tree.layout star
        (tree.domain.child (tree.domain.cube.octantOf star.point))
        (tree.octants (tree.domain.cube.octantOf star.point)) child ∧
      next.octants = Node.replace tree.octants
        (tree.domain.cube.octantOf star.point) child

/-- A star is taken when it is as wide as it has to be and the subtree that it
belongs to takes it. -/
theorem insert_eq_ok_iff {tree next : Tree} :
    tree.insert star = .ok next ↔
      star.length = tree.layout.width ∧
        ∃ node growth,
          (tree.octants (tree.domain.cube.octantOf star.point)).insert?
              tree.settings tree.layout star
              (tree.domain.child (tree.domain.cube.octantOf star.point)) =
            some (node, growth) ∧
          next =
            { tree with
              octants := Node.replace tree.octants
                (tree.domain.cube.octantOf star.point) node
              census := tree.census.grow growth } := by
  by_cases hwidth : star.length = tree.layout.width
  · rw [and_iff_right hwidth]
    cases hnode : (tree.octants (tree.domain.cube.octantOf star.point)).insert?
        tree.settings tree.layout star
        (tree.domain.child (tree.domain.cube.octantOf star.point)) with
    | none =>
        rw [insert_of_none hwidth hnode]
        refine iff_of_false ?_ ?_
        · rintro ⟨⟩
        · rintro ⟨_, _, ⟨⟩, _⟩
    | some taken =>
        rw [insert, receive_of_some hwidth hnode]
        constructor
        · rintro ⟨⟩
          exact ⟨taken.1, taken.2, rfl, rfl⟩
        · rintro ⟨_, _, ⟨⟩, rfl⟩
          rfl
  · rw [insert_of_length_ne hwidth]
    refine iff_of_false ?_ fun h => hwidth h.1
    rintro ⟨⟩

theorem gains_of_insert {tree next : Tree} (h : tree.insert star = .ok next) :
    tree.Gains star next := by
  obtain ⟨hwidth, node, growth, hnode, rfl⟩ := insert_eq_ok_iff.mp h
  exact ⟨hwidth, rfl, rfl, rfl, node, Node.gains_of_insert? hnode, rfl⟩

section

variable {P : Tree → Prop}

/-- What every star that is taken preserves is preserved by inserting any number
of stars. -/
theorem insertStars_taken_induction
    (hstep : ∀ {tree next : Tree} {star : Star}, P tree →
      tree.insert star = .ok next → P next)
    {tree : Tree} (htree : P tree) (stars : List Star) :
    P (tree.insertStars stars).1 := by
  induction stars generalizing tree with
  | nil => exact htree
  | cons star stars ih =>
      rw [insertStars]
      cases hinsert : tree.insert star with
      | error fault =>
          rw [receive_of_error hinsert]
          exact htree
      | ok next =>
          rw [receive_of_ok hinsert]
          exact ih (hstep htree hinsert)

theorem insertFlat_taken_induction
    (hstep : ∀ {tree next : Tree} {star : Star}, P tree →
      tree.insert star = .ok next → P next)
    {tree : Tree} (htree : P tree) (values : List Value) :
    P (tree.insertFlat values).1 := by
  simp only [insertFlat]
  split
  · exact htree
  · exact insertStars_taken_induction hstep htree _

theorem act_insert_taken_induction
    (hstep : ∀ {tree next : Tree} {star : Star}, P tree →
      tree.insert star = .ok next → P next)
    {tree : Tree} (htree : P tree) (star : Star) :
    P (tree.act (.insert star)) := by
  cases hinsert : tree.insert star with
  | error fault =>
      rw [act_insert_of_error hinsert]
      exact htree
  | ok next =>
      rw [act_insert hinsert]
      exact hstep htree hinsert

/-- What every star preserves is preserved by inserting any number of them. -/
theorem insertFlat_induction
    (hstep : ∀ {tree next : Tree} {star : Star}, P tree →
      tree.Gains star next → P next)
    {tree : Tree} (htree : P tree) (values : List Value) :
    P (tree.insertFlat values).1 :=
  insertFlat_taken_induction
    (fun htree h => hstep htree (gains_of_insert h)) htree values

theorem act_insert_induction
    (hstep : ∀ {tree next : Tree} {star : Star}, P tree →
      tree.Gains star next → P next)
    {tree : Tree} (htree : P tree) (star : Star) :
    P (tree.act (.insert star)) :=
  act_insert_taken_induction
    (fun htree h => hstep htree (gains_of_insert h)) htree star

end

end Tree

end Starfield
