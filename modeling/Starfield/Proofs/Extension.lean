import Mathlib.Data.Finset.Card
import Mathlib.Data.List.Nodup
import Starfield.Proofs.Successive

/-!
# What insertions make of a listing

A node is known by its path.  A star that is taken finds the nodes on its way
where they were and leaves them there, each with the slot that it holds; a leaf
may become an inner node, and what a node stores for itself only grows while it
stays what it is.  Nodes that were not there before hold no slot.
-/

namespace Starfield

/-! ## Paths -/

namespace Node

/-- Nodes below a node have longer paths. -/
theorem path_ne_of_mem_descendants {children : Octant → Node}
    {path : List Octant} {place : Place} {entry : Entry}
    (hentry : entry ∈ descendants path place children) :
    path ≠ entry.path := by
  obtain ⟨o, _, ho⟩ := List.mem_flatMap.mp hentry
  intro hpath
  have hlength := (prefix_of_mem_listing ho).length_le
  rw [← hpath, List.length_append, List.length_singleton] at hlength
  omega

/-- When the nodes below each octant have different paths, so have all of
them. -/
theorem nodup_paths_descendants {children : Octant → Node}
    {path : List Octant} {place : Place}
    (h : ∀ o, (((children o).listing (path ++ [o]) (place.child o)).map
      Entry.path).Nodup) :
    ((descendants path place children).map Entry.path).Nodup := by
  rw [descendants, List.map_flatMap, List.nodup_flatMap]
  refine ⟨fun o _ => h o, ?_⟩
  have hall : Octant.all.Nodup := by decide
  refine hall.imp fun {o p} hne => ?_
  intro target ho hp
  obtain ⟨above, habove, rfl⟩ := List.mem_map.mp ho
  obtain ⟨below, hbelow, hpath⟩ := List.mem_map.mp hp
  exact hne (octant_eq_of_path habove hbelow (hpath ▸ List.prefix_rfl))

theorem nodup_paths (node : Node) (path : List Octant) (place : Place) :
    ((node.listing path place).map Entry.path).Nodup := by
  induction node generalizing path place with
  | leaf cell => exact List.nodup_singleton _
  | inner cell children ih =>
      rw [listing, List.map_cons, List.nodup_cons]
      refine ⟨fun hpath => ?_, nodup_paths_descendants fun o => ih o _ _⟩
      obtain ⟨entry, hentry, hsame⟩ := List.mem_map.mp hpath
      exact path_ne_of_mem_descendants hentry hsame.symm

end Node

namespace Tree

/-- No two nodes have the same path. -/
theorem nodup_paths (tree : Tree) : (tree.listing.map Entry.path).Nodup :=
  @Node.nodup_paths_descendants tree.octants [] tree.domain
    fun o => (tree.octants o).nodup_paths [o] (tree.domain.child o)

theorem eq_of_path {tree : Tree} {entry other : Entry}
    (hentry : entry ∈ tree.listing) (hother : other ∈ tree.listing)
    (hpath : other.path = entry.path) : other = entry :=
  List.inj_on_of_nodup_map tree.nodup_paths hother hentry hpath

/-- The paths of the nodes that hold slots. -/
def holders (tree : Tree) : Finset (List Octant) :=
  (tree.residents.map Entry.path).toFinset

theorem path_mem_holders_iff {tree : Tree} {entry : Entry}
    (hentry : entry ∈ tree.listing) :
    entry.path ∈ tree.holders ↔ entry.isResident = true := by
  rw [holders, List.mem_toFinset, List.mem_map]
  constructor
  · rintro ⟨other, hother, hpath⟩
    obtain ⟨hlisted, hresident⟩ := List.mem_filter.mp hother
    rwa [← eq_of_path hentry hlisted hpath]
  · intro hresident
    exact ⟨entry, List.mem_filter.mpr ⟨hentry, hresident⟩, rfl⟩

end Tree

/-! ## Nodes that take stars -/

/-- The second node is the first one after stars have come its way. -/
structure Entry.Grows (before after : Entry) : Prop where
  path : after.path = before.path
  tenancy : after.cell.tenancy = before.cell.tenancy
  /-- An inner node does not become a leaf. -/
  inner : before.isLeaf = false → after.isLeaf = false
  /-- Unless it is split, a node keeps what it stores and adds to it. -/
  stars : after.isLeaf = before.isLeaf →
    before.cell.stars.toList <+: after.cell.stars.toList

namespace Entry.Grows

variable {before after last : Entry}

theorem refl (entry : Entry) : entry.Grows entry :=
  ⟨rfl, rfl, id, fun _ => List.prefix_rfl⟩

theorem trans (h : before.Grows after) (hlast : after.Grows last) :
    before.Grows last where
  path := hlast.path.trans h.path
  tenancy := hlast.tenancy.trans h.tenancy
  inner := fun hbefore => hlast.inner (h.inner hbefore)
  stars := by
    intro hsame
    -- A node that ends as what it was has been that all the time.
    have hmiddle : after.isLeaf = before.isLeaf := by
      cases hafter : after.isLeaf with
      | false => rw [← hsame, hlast.inner hafter]
      | true =>
          cases hbefore : before.isLeaf with
          | false => rw [← hafter, h.inner hbefore]
          | true => rfl
    exact (h.stars hmiddle).trans (hlast.stars (hsame.trans hmiddle.symm))

end Entry.Grows

/-- The second list is the first one after stars have been taken: its nodes are
still there, and the new ones hold no slot. -/
structure Extends (before after : List Entry) : Prop where
  kept : ∀ old ∈ before, ∃ entry ∈ after, old.Grows entry
  origin : ∀ entry ∈ after, (∃ old ∈ before, old.Grows entry) ∨
    entry.cell.tenancy = none ∧ ∀ old ∈ before, old.path ≠ entry.path

namespace Extends

variable {before after last : List Entry}

theorem refl (entries : List Entry) : Extends entries entries where
  kept := fun old hold => ⟨old, hold, .refl old⟩
  origin := fun entry hentry => .inl ⟨entry, hentry, .refl entry⟩

theorem trans (h : Extends before after) (hlast : Extends after last) :
    Extends before last where
  kept := by
    intro old hold
    obtain ⟨entry, hentry, hgrows⟩ := h.kept old hold
    obtain ⟨latest, hlatest, hgrows'⟩ := hlast.kept entry hentry
    exact ⟨latest, hlatest, hgrows.trans hgrows'⟩
  origin := by
    intro latest hlatest
    rcases hlast.origin latest hlatest with
      ⟨entry, hentry, hgrows'⟩ | ⟨hvacant, hnew⟩
    · rcases h.origin entry hentry with
        ⟨old, hold, hgrows⟩ | ⟨hvacant, hnew⟩
      · exact .inl ⟨old, hold, hgrows.trans hgrows'⟩
      · rw [← hgrows'.tenancy] at hvacant
        rw [← hgrows'.path] at hnew
        exact .inr ⟨hvacant, hnew⟩
    · refine .inr ⟨hvacant, fun old hold hpath => ?_⟩
      obtain ⟨entry, hentry, hgrows⟩ := h.kept old hold
      exact hnew entry hentry (hgrows.path.trans hpath)

end Extends

namespace Node

variable {settings : Settings} {layout : Layout} {star : Star} {place : Place}
  {node next : Node} {path : List Octant}

/-- Families whose members extend those of another one do so as a whole. -/
theorem extends_descendants {children grown : Octant → Node}
    (h : ∀ o, Extends ((children o).listing (path ++ [o]) (place.child o))
      ((grown o).listing (path ++ [o]) (place.child o))) :
    Extends (descendants path place children)
      (descendants path place grown) where
  kept := by
    intro old hold
    obtain ⟨o, ho, hold⟩ := List.mem_flatMap.mp hold
    obtain ⟨entry, hentry, hgrows⟩ := (h o).kept old hold
    exact ⟨entry, List.mem_flatMap.mpr ⟨o, ho, hentry⟩, hgrows⟩
  origin := by
    intro entry hentry
    obtain ⟨o, ho, hentry⟩ := List.mem_flatMap.mp hentry
    rcases (h o).origin entry hentry with
      ⟨old, hold, hgrows⟩ | ⟨hvacant, hnew⟩
    · exact .inl ⟨old, List.mem_flatMap.mpr ⟨o, ho, hold⟩, hgrows⟩
    · refine .inr ⟨hvacant, fun old hold hpath => ?_⟩
      obtain ⟨p, _, hold⟩ := List.mem_flatMap.mp hold
      obtain rfl := octant_eq_of_path hold hentry (hpath ▸ List.prefix_rfl)
      exact hnew old hold hpath

/-- A node that is met extends to the node that it becomes with what lies below
it. -/
theorem extends_cons {old entry : Entry} {before after : List Entry}
    (hroot : old.Grows entry) (hbelow : Extends before after)
    (hpath : ∀ other ∈ after, old.path ≠ other.path) :
    Extends (old :: before) (entry :: after) where
  kept := by
    rw [List.forall_mem_cons]
    refine ⟨⟨entry, List.mem_cons_self, hroot⟩, fun other hother => ?_⟩
    obtain ⟨later, hlater, hgrows⟩ := hbelow.kept other hother
    exact ⟨later, List.mem_cons_of_mem _ hlater, hgrows⟩
  origin := by
    rw [List.forall_mem_cons]
    refine ⟨.inl ⟨old, List.mem_cons_self, hroot⟩, fun later hlater => ?_⟩
    rcases hbelow.origin later hlater with
      ⟨other, hother, hgrows⟩ | ⟨hvacant, hnew⟩
    · exact .inl ⟨other, List.mem_cons_of_mem _ hother, hgrows⟩
    · exact .inr ⟨hvacant,
        List.forall_mem_cons.mpr ⟨hpath later hlater, hnew⟩⟩

/-- Nodes without slots extend the empty list. -/
theorem extends_nil_descendants {children : Octant → Node}
    (h : ∀ o, (children o).Vacant) :
    Extends [] (descendants path place children) where
  kept := fun old hold => absurd hold List.not_mem_nil
  origin := by
    intro entry hentry
    obtain ⟨o, _, ho⟩ := List.mem_flatMap.mp hentry
    exact .inr ⟨(h o).tenancy_of_mem_listing ho,
      fun old hold => absurd hold List.not_mem_nil⟩

/-! ### The nodes on the way of a star -/

section

variable (star : Star) (path : List Octant) (place : Place) (cell : Cell)

theorem grows_joined :
    Entry.Grows ⟨path, place, true, cell⟩
      ⟨path, place, true, cell.joined star⟩ := by
  refine ⟨rfl, rfl, id, fun _ => ?_⟩
  rw [Cell.joined, Cell.push, Array.toList_push]
  exact List.prefix_append _ _

/-- A leaf that is split hands its stars down and keeps its slot. -/
theorem grows_subdivided (settings : Settings) (layout : Layout) :
    Entry.Grows ⟨path, place, true, cell⟩
      ⟨path, place, false,
        (cell.subdivided settings layout place).passed settings star place⟩ :=
  ⟨rfl, rfl, fun _ => rfl, fun hsame => absurd hsame (by simp)⟩

theorem grows_passed (settings : Settings) :
    Entry.Grows ⟨path, place, false, cell⟩
      ⟨path, place, false, cell.passed settings star place⟩ := by
  refine ⟨rfl, rfl, id, fun _ => ?_⟩
  simp only [Cell.passed, Cube.offer]
  split
  · split
    · rw [Array.toList_push]
      exact List.prefix_append _ _
    · exact List.prefix_rfl
  · exact List.prefix_rfl

end

theorem Gains.extends (h : Gains settings layout star place node next)
    (path : List Octant) :
    Extends (node.listing path place) (next.listing path place) := by
  induction h generalizing path with
  | @joined place cell _ =>
      exact extends_cons (grows_joined star path place cell) (.refl [])
        fun _ hother => absurd hother List.not_mem_nil
  | @parted place cell child _ hchild _ =>
      have hchildren : ∀ o, (replace (partLeaf place cell.stars)
          (place.cube.octantOf star.point) child o).Vacant :=
        forall_replace (hchild.vacant (vacant_partLeaf _ _ _))
          (vacant_partLeaf _ _)
      exact extends_cons (grows_subdivided star path place cell settings layout)
        (extends_nil_descendants hchildren) fun _ =>
          path_ne_of_mem_descendants
  | @passed place cell children child _ ih =>
      refine extends_cons (grows_passed star path place cell settings)
        (extends_descendants ?_) fun _ => path_ne_of_mem_descendants
      exact forall_replace
        (P := fun o child => Extends
          ((children o).listing (path ++ [o]) (place.child o))
          (child.listing (path ++ [o]) (place.child o)))
        (ih _) fun o => .refl _

end Node

namespace Tree

variable {tree next : Tree} {star : Star}

theorem Gains.extends (h : tree.Gains star next) :
    Extends tree.listing next.listing := by
  have hdomain : next.domain = tree.domain := by
    rw [domain, domain, h.settings]
  obtain ⟨child, hchild, hoctants⟩ := h.octants
  rw [listing, listing, hoctants, hdomain]
  refine @Node.extends_descendants tree.domain [] tree.octants _ ?_
  exact Node.forall_replace
    (P := fun o child => Extends
      ((tree.octants o).listing [o] (tree.domain.child o))
      (child.listing [o] (tree.domain.child o)))
    (hchild.extends [_]) fun o => .refl _

/-- Any number of insertions, refused ones among them, extends the listing. -/
theorem extends_run {between : List Action}
    (hbetween : ∀ action ∈ between, action.inserts = true) :
    Extends tree.listing (tree.run between).listing :=
  run_insertions_induction
    (P := fun next => Extends tree.listing next.listing)
    (fun h hgains => h.trans hgains.extends) hbetween (.refl _)

end Tree

end Starfield
