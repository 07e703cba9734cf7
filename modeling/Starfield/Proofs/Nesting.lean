import Starfield.Proofs.Family
import Starfield.Proofs.Frame.Equations

/-!
# No seated node below a seated one

A subtree is drawn either by its root or through the nodes below, never by both,
so the nodes that hold slots are never nested.  This file proves that a walk
keeps it so, whether or not it runs out of slots, and that it changes nothing of
a node but the slot held.
-/

namespace Starfield

namespace Node

theorem clear_leaf (cell : Cell) : (leaf cell).clear = leaf cell.clear := rfl

theorem clear_inner (cell : Cell) (children : Octant → Node) :
    (inner cell children).clear =
      inner cell.clear fun o => (children o).clear := by
  rw [clear, ofFamily_eq]
  rfl

theorem clear_clear (node : Node) : node.clear.clear = node.clear := by
  induction node with
  | leaf cell => rfl
  | inner cell children ih =>
      rw [clear_inner, clear_inner]
      exact congrArg (inner cell.clear) (funext ih)

/-- No node of the subtree holds a slot. -/
def Vacant : Node → Prop
  | leaf cell => cell.tenancy = none
  | inner cell children => cell.tenancy = none ∧ ∀ o, (children o).Vacant

/-- No node of the subtree that holds a slot has one below it that does. -/
def Unnested : Node → Prop
  | leaf _ => True
  | inner cell children =>
      (cell.tenancy ≠ none → ∀ o, (children o).Vacant) ∧
        ∀ o, (children o).Unnested

theorem Vacant.unnested {node : Node} (hnode : node.Vacant) :
    node.Unnested := by
  induction node with
  | leaf cell => trivial
  | inner cell children ih =>
      exact ⟨fun _ => hnode.2, fun o => ih o (hnode.2 o)⟩

theorem vacant_clear (node : Node) : node.clear.Vacant := by
  induction node with
  | leaf cell => rfl
  | inner cell children ih =>
      rw [clear_inner]
      exact ⟨rfl, ih⟩

/-! ## A walk changes slots only -/

variable {pass : Pass}

theorem clear_vacate (node : Node) (walk : Walk) :
    (node.vacate pass.compacting walk).1.clear = node.clear := by
  induction node generalizing walk with
  | leaf cell =>
      rw [vacate_leaf, clear_leaf, clear_leaf,
        (Cell.vacates_vacate pass cell walk).clear_eq]
  | inner cell children ih =>
      rw [vacate_inner, clear_inner, clear_inner,
        (Cell.vacates_vacate pass cell walk).clear_eq]
      congr 1
      funext o
      exact Octet.forall_get_thread
        (P := fun o (child : Node) => child.clear = (children o).clear) ih _ o

/-- A walk leaves every node where it is, with the same count and the same
stars. -/
theorem clear_walk (node : Node) (place : Place) (walk : Walk) :
    (node.walk pass place walk).1.clear = node.clear := by
  cases hwalk : walk.exhausted with
  | true => rw [walk_of_exhausted _ _ hwalk]
  | false =>
  induction node generalizing place walk with
  | leaf cell =>
      rw [walk_leaf [] hwalk, clear_leaf, clear_leaf]
      congr 1
      cases (pass.oracle.sees pass.settings place walk.asked).1 &&
          cell.count ≠ 0 with
      | true => exact (Cell.seats_seat _ _ _ _ _).clear_eq
      | false => exact (Cell.vacates_vacate _ _ _).clear_eq
  | inner cell children ih =>
      cases hseen : (pass.oracle.sees pass.settings place walk.asked).1 with
      | false => rw [walk_unseen hwalk hseen, clear_vacate]
      | true =>
      cases hsmall : (pass.oracle.prefersSample pass.settings place cell
          (pass.oracle.sees pass.settings place walk.asked).2).1 with
      | true =>
          cases hnew : (cell.seat pass cell.stars.size cell.valueCount
              { walk with asked := _ }).2.2 with
          | true =>
              obtain ⟨slot, claimed, hclaim, _⟩ := Cell.exists_claim_of_new hnew
              rw [walk_small_of_new hwalk hseen hsmall hclaim]
              dsimp only
              rw [clear_inner, clear_inner]
              congr 1
              funext o
              exact Octet.forall_get_thread
                (P := fun o (child : Node) => child.clear = (children o).clear)
                (fun o => (children o).clear_vacate) _ o
          | false =>
              rw [walk_small hwalk hseen hsmall hnew, clear_inner, clear_inner,
                (Cell.seats_seat pass _ _ cell _).clear_eq]
      | false =>
          rw [walk_through hwalk hseen hsmall]
          dsimp only
          rw [clear_inner, clear_inner,
            (Cell.vacates_vacate pass cell _).clear_eq]
          congr 1
          funext o
          refine Octet.forall_get_thread
            (P := fun o (child : Node) => child.clear = (children o).clear)
            (fun o before => ?_) _ o
          cases hbefore : before.exhausted with
          | true => rw [walk_of_exhausted _ _ hbefore]
          | false => exact ih o _ before hbefore

/-! ## Walks keep seated nodes apart -/

theorem vacant_vacate (node : Node) (walk : Walk) :
    (node.vacate pass.compacting walk).1.Vacant := by
  induction node generalizing walk with
  | leaf cell => exact (Cell.vacates_vacate pass cell walk).tenancy_eq
  | inner cell children ih =>
      rw [vacate_inner]
      exact ⟨(Cell.vacates_vacate pass cell walk).tenancy_eq,
        Octet.forall_get_thread (P := fun _ (child : Node) => child.Vacant) ih _⟩

theorem Unnested.walk {node : Node} (hnode : node.Unnested) (place : Place)
    (walk : Walk) : (node.walk pass place walk).1.Unnested := by
  induction node generalizing place walk with
  | leaf cell =>
      cases hwalk : walk.exhausted with
      | true => rw [walk_of_exhausted _ _ hwalk]; exact hnode
      | false => rw [walk_leaf [] hwalk]; trivial
  | inner cell children ih =>
      cases hwalk : walk.exhausted with
      | true => rw [walk_of_exhausted _ _ hwalk]; exact hnode
      | false =>
      cases hseen : (pass.oracle.sees pass.settings place walk.asked).1 with
      | false =>
          rw [walk_unseen hwalk hseen]
          exact (vacant_vacate _ _).unnested
      | true =>
      cases hsmall : (pass.oracle.prefersSample pass.settings place cell
          (pass.oracle.sees pass.settings place walk.asked).2).1 with
      | true =>
          cases hnew : (cell.seat pass cell.stars.size cell.valueCount
              { walk with asked := _ }).2.2 with
          | true =>
              obtain ⟨slot, claimed, hclaim, _⟩ := Cell.exists_claim_of_new hnew
              rw [walk_small_of_new hwalk hseen hsmall hclaim]
              have hbelow := Octet.forall_get_thread
                (P := fun _ (child : Node) => child.Vacant)
                (fun o => @vacant_vacate pass (children o))
              exact ⟨fun _ => hbelow _, fun o => (hbelow _ o).unnested⟩
          | false =>
              rw [walk_small hwalk hseen hsmall hnew]
              refine ⟨fun hseated => hnode.1 ?_, hnode.2⟩
              exact (Cell.seats_seat _ _ _ _ _).tenancy_of_not_new hnew hseated
      | false =>
          rw [walk_through hwalk hseen hsmall]
          refine ⟨fun h => absurd (Cell.vacates_vacate _ _ _).tenancy_eq h, ?_⟩
          exact Octet.forall_get_thread (P := fun _ (child : Node) => child.Unnested)
            (fun o => ih o (hnode.2 o) _) _

/-! ## Seated nodes in a listing -/

theorem Vacant.tenancy_of_mem_listing {node : Node} (hnode : node.Vacant)
    {path : List Octant} {place : Place} {entry : Entry}
    (hentry : entry ∈ node.listing path place) :
    entry.cell.tenancy = none := by
  induction node generalizing path place with
  | leaf cell =>
      rw [listing, List.mem_singleton] at hentry
      subst entry
      exact hnode
  | inner cell children ih =>
      rw [listing, List.mem_cons, List.mem_flatMap] at hentry
      rcases hentry with rfl | ⟨o, _, ho⟩
      · exact hnode.1
      · exact ih o (hnode.2 o) ho

/-- Every path of a listing goes on from the path of its root. -/
theorem prefix_of_mem_listing {node : Node} {path : List Octant} {place : Place}
    {entry : Entry} (hentry : entry ∈ node.listing path place) :
    path <+: entry.path := by
  induction node generalizing path place with
  | leaf cell =>
      rw [listing, List.mem_singleton] at hentry
      subst entry
      exact List.prefix_rfl
  | inner cell children ih =>
      rw [listing, List.mem_cons, List.mem_flatMap] at hentry
      rcases hentry with rfl | ⟨o, _, ho⟩
      · exact List.prefix_rfl
      · exact (List.prefix_append path [o]).trans (ih o ho)

/-- A node and another one below it belong to the same octant. -/
theorem octant_eq_of_path {child other : Node} {path : List Octant}
    {o p : Octant} {place place' : Place} {above below : Entry}
    (habove : above ∈ child.listing (path ++ [o]) place)
    (hbelow : below ∈ other.listing (path ++ [p]) place')
    (hpath : above.path <+: below.path) : o = p := by
  have ho := (prefix_of_mem_listing habove).trans hpath
  have hp := prefix_of_mem_listing hbelow
  have hsame : path ++ [o] = path ++ [p] :=
    List.IsPrefix.eq_of_length
      (List.prefix_of_prefix_length_le ho hp (by simp)) (by simp)
  simpa using hsame

/-- Of two seated nodes of a listing, neither lies below the other. -/
theorem Unnested.eq_of_path {node : Node} (hnode : node.Unnested)
    {path : List Octant} {place : Place} {above below : Entry}
    (habove : above ∈ node.listing path place)
    (hbelow : below ∈ node.listing path place)
    (hseated : above.cell.tenancy ≠ none) (hseated' : below.cell.tenancy ≠ none)
    (hpath : above.path <+: below.path) : above = below := by
  induction node generalizing path place with
  | leaf cell =>
      rw [listing, List.mem_singleton] at habove hbelow
      rw [habove, hbelow]
  | inner cell children ih =>
      rw [listing, List.mem_cons, List.mem_flatMap] at habove hbelow
      rcases habove with rfl | ⟨o, _, ho⟩ <;> rcases hbelow with rfl | ⟨p, _, hp⟩
      · rfl
      · exact absurd ((hnode.1 hseated p).tenancy_of_mem_listing hp) hseated'
      · have hlong := (prefix_of_mem_listing ho).trans hpath
        exact absurd hlong.length_le (by simp)
      · obtain rfl := octant_eq_of_path ho hp hpath
        exact ih o (hnode.2 o) ho hp

end Node

end Starfield
