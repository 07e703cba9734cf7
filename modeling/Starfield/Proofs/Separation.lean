import Starfield.Proofs.Archive.Reload
import Starfield.Proofs.Extension
import Starfield.Proofs.Lag
import Starfield.Proofs.Restart

/-!
# Building and drawing keep apart

Insertions and frames work on the same nodes.  Still neither touches what the
other one keeps there: a frame leaves everything that is stored as it is, even
when it fails half-way, and an insertion leaves every slot with the node that
holds it, even when it splits that node.
-/

namespace Starfield

namespace Tree

variable {tree next : Tree}

/-- The second tree stores what the first one does: the same nodes in the same
cubes with the same counts and stars, and the same figures.  So both are written
as the same bytes. -/
structure KeepsStore (tree next : Tree) : Prop where
  settings : next.settings = tree.settings
  layout : next.layout = tree.layout
  listing : next.listing.map Entry.clear = tree.listing.map Entry.clear
  census : next.census = tree.census
  encode : next.encode = tree.encode

theorem Alike.keepsStore (h : tree.Alike next) : tree.KeepsStore next where
  settings := h.settings
  layout := h.layout
  listing := by
    rw [← listing_bare next, ← listing_bare tree, listing, listing]
    apply List.flatMap_congr
    intro o _
    change (next.octants o).clear.listing [o] (next.domain.child o) = _
    rw [h.domain, h.octants o]
    rfl
  census := h.census
  encode := by
    rw [← encode_bare next, ← encode_bare tree, bare, bare, h.settings, h.layout,
      h.census, funext h.octants]

/-- In the second tree the nodes of the first one are still there and hold what
they held, and no other node holds a slot. -/
structure KeepsSlots (tree next : Tree) : Prop where
  slots : next.slots = tree.slots
  log : next.log = tree.log
  kept : tree.listing.map Entry.path ⊆ next.listing.map Entry.path
  tenancy : ∀ old ∈ tree.listing, ∀ entry ∈ next.listing,
    entry.path = old.path → entry.cell.tenancy = old.cell.tenancy
  created : ∀ entry ∈ next.listing,
    entry.path ∉ tree.listing.map Entry.path → entry.isResident = false

theorem keepsSlots_of_extends (hslots : next.slots = tree.slots)
    (hlog : next.log = tree.log)
    (hlisting : Extends tree.listing next.listing) : tree.KeepsSlots next where
  slots := hslots
  log := hlog
  kept := by
    intro path hpath
    obtain ⟨old, hold, rfl⟩ := List.mem_map.mp hpath
    obtain ⟨entry, hentry, hgrows⟩ := hlisting.kept old hold
    exact hgrows.path ▸ List.mem_map_of_mem hentry
  tenancy := by
    intro old hold entry hentry hpath
    obtain ⟨later, hlater, hgrows⟩ := hlisting.kept old hold
    obtain rfl := eq_of_path hlater hentry (hpath.trans hgrows.path.symm)
    exact hgrows.tenancy
  created := by
    intro entry hentry hnew
    rcases hlisting.origin entry hentry with
      ⟨old, hold, hgrows⟩ | ⟨hvacant, _⟩
    · exact absurd (hgrows.path ▸ List.mem_map_of_mem hold) hnew
    · exact Entry.isResident_of_vacant hvacant

theorem log_of_insert {star : Star} (h : tree.insert star = .ok next) :
    next.log = tree.log := by
  obtain ⟨_, node, growth, _, rfl⟩ := insert_eq_ok_iff.mp h
  rfl

/-- Frames and new buffer sizes, however they end, leave all that is stored as
it was.  Insertions, whether taken or refused, leave the slots and the log as
they were, and every slot with its node. -/
theorem building_and_drawing_apart (tree : Tree) (actions : List Action) :
    ((∀ action ∈ actions, action.isDrawing = true) →
      tree.KeepsStore (tree.run actions)) ∧
    ((∀ action ∈ actions, action.inserts = true) →
      tree.KeepsSlots (tree.run actions)) := by
  constructor
  · intro hactions
    exact (tree.alike_run_of_isDrawing hactions).keepsStore
  · intro hactions
    refine keepsSlots_of_extends (slots_run hactions) ?_ (extends_run hactions)
    exact run_insertions_taken_induction
      (P := fun next => next.log = tree.log)
      (fun h hinsert => (log_of_insert hinsert).trans h) hactions rfl

/-- A frame fails to place the leaves anew, and the buffer gets a new size.  Of
three insertions one is refused, one splits the leaf that holds the only slot
and one stops at a star too many in one point. -/
theorem apart_crowdedOnce :
    let drawn := crowdedOnce.run
      [.runFrame openView.oracle .positions none, .resizeBuffer 5,
        .runFrame (seesAfter 7) .positions (some 3)]
    let built := crowdedOnce.run
      [.insert [], .insert farStar,
        .insertFlat (cornerStar (.ofIndex 0) ++ farStar)]
    crowdedOnce.KeepsStore drawn ∧ crowdedOnce.KeepsSlots built ∧
      built.census.splits = 1 ∧
      built.holdings = [([.ofIndex 7], 0)] := by
  intro drawn built
  refine ⟨(building_and_drawing_apart crowdedOnce _).1 (by decide),
    (building_and_drawing_apart crowdedOnce _).2 (by decide), ?_, ?_⟩
  · decide +kernel
  · decide +kernel

end Tree

end Starfield
