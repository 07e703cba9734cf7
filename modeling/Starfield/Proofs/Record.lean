import Starfield.Proofs.Extension
import Starfield.Proofs.Mirror

/-!
# What was written last

To tell what a frame has to send, one keeps a record of every node as it was
when its chunk was last written.  As long as all frames succeed, the slot of a
node shows what the record says, and the node has only taken stars since.  So
whether the slot shows too little can be read off the record.
-/

namespace Starfield

/-! ## What is recorded of a node -/

/-- The node stores more stars than it did when it was written, or it was a leaf
and is none any more. -/
def Entry.Outgrows (entry written : Entry) : Prop :=
  written.cell.stars.size < entry.cell.stars.size ∨
    written.isLeaf = true ∧ entry.isLeaf = false

/-- A cell with stars has values. -/
theorem Cell.valueCount_pos {layout : Layout} {capacity : Nat} {cell : Cell}
    (h : Stocked layout capacity cell.stars) (hwidth : 0 < layout.width)
    (hstars : 0 < cell.stars.size) : 0 < cell.valueCount := by
  have hfirst : cell.stars[0] ∈ cell.stars := Array.getElem_mem hstars
  have hlength : 0 < cell.stars[0].length := by
    rwa [h.whole _ hfirst]
  obtain ⟨value, hvalue⟩ := List.exists_mem_of_length_pos hlength
  rw [valueCount_eq]
  exact List.length_pos_of_mem (List.mem_flatten.mpr
    ⟨_, Array.mem_toList_iff.mpr hfirst, hvalue⟩)

namespace Entry.Grows

variable {layout : Layout} {capacity : Nat} {written entry : Entry}

/-- A node that stays what it is shows the same just as long as it stores the
same number of stars. -/
theorem shows_eq_iff (h : written.Grows entry)
    (hwritten : written.cell.Regular layout capacity written.isLeaf)
    (hentry : entry.cell.Regular layout capacity entry.isLeaf)
    (hsame : entry.isLeaf = written.isLeaf) :
    written.shows = entry.shows ↔
      written.cell.stars.size = entry.cell.stars.size := by
  cases hleaf : written.isLeaf with
  | true =>
      have hleaf' := hsame.trans hleaf
      simp [shows, Cell.shows, hleaf, hleaf', hwritten.count hleaf,
        hentry.count hleaf']
  | false =>
      have hleaf' := hsame.trans hleaf
      refine ⟨fun hshows => ?_, fun hsize => ?_⟩
      · simpa [shows, Cell.shows, hleaf, hleaf'] using congrArg Prod.fst hshows
      · have hstars : written.cell.stars = entry.cell.stars :=
          Array.toList_inj.mp ((h.stars hsame).eq_of_length (by simpa using hsize))
        simp [shows, Cell.shows, hleaf, hleaf', Cell.valueCount, hstars]

/-- A node shows something else than when it was written just when it has
outgrown that. -/
theorem shows_ne_iff (h : written.Grows entry)
    (hwritten : written.cell.Regular layout capacity written.isLeaf)
    (hentry : entry.cell.Regular layout capacity entry.isLeaf)
    (hwidth : 0 < layout.width) (hshows : 0 < entry.shows.1) :
    written.shows ≠ entry.shows ↔ entry.Outgrows written := by
  by_cases hsame : entry.isLeaf = written.isLeaf
  · have hsize := (h.stars hsame).length_le
    rw [Array.length_toList, Array.length_toList] at hsize
    rw [Ne, h.shows_eq_iff hwritten hentry hsame, Outgrows, ← hsame]
    cases entry.isLeaf <;> simp <;> omega
  · -- A leaf shows no values of a sample, an inner node shows some.
    have hleaf : written.isLeaf = true ∧ entry.isLeaf = false := by
      cases hleaf : written.isLeaf with
      | false => exact absurd ((h.inner hleaf).trans hleaf.symm) hsame
      | true =>
          rw [hleaf] at hsame
          exact ⟨rfl, eq_false_of_ne_true hsame⟩
    refine iff_of_true (fun hshown => ?_) (.inr hleaf)
    have hvalues := congrArg Prod.snd hshown
    simp only [shows, Cell.shows, hleaf, if_true, if_neg Bool.false_ne_true]
      at hvalues hshows
    have hpos := Cell.valueCount_pos hentry.stocked hwidth hshows
    omega

end Entry.Grows

/-! ## Updates and records -/

namespace Update

def fills (update : Update) (slot : Nat) : Bool :=
  update.changes[slot]?.any fun change => change.content.isSome

def empties (update : Update) (slot : Nat) : Bool :=
  update.changes[slot]?.any fun change => change.content.isNone

end Update

/-- The nodes as they were when their chunks were last written, by their
paths. -/
abbrev Record := List Octant → Option Entry

namespace Record

def empty : Record := fun _ => none

/-- The record after an update that has left the given tree: a node whose chunk
is written is recorded as it is. -/
def after (record : Record) (tree : Tree) (update : Update) : Record :=
  fun path =>
    (tree.listing.find? fun entry =>
      entry.path = path && entry.cell.held.any update.fills).or (record path)

variable {record : Record} {tree : Tree} {update : Update} {entry : Entry}

theorem after_of_written (hentry : entry ∈ tree.listing)
    (hwritten : entry.cell.held.any update.fills = true) :
    record.after tree update entry.path = some entry := by
  cases hfound : tree.listing.find? fun other =>
      other.path = entry.path && other.cell.held.any update.fills with
  | none =>
      have hunfit := List.find?_eq_none.mp hfound entry hentry
      exact absurd hwritten (by simpa using hunfit)
  | some other =>
      have hfit := List.find?_some hfound
      rw [Bool.and_eq_true, decide_eq_true_iff] at hfit
      rw [after, hfound, Option.some_or,
        Tree.eq_of_path hentry (List.mem_of_find?_eq_some hfound) hfit.1]

theorem after_of_not_written (hentry : entry ∈ tree.listing)
    (hunwritten : entry.cell.held.any update.fills = false) :
    record.after tree update entry.path = record entry.path := by
  have hnone : (tree.listing.find? fun other =>
      other.path = entry.path && other.cell.held.any update.fills) = none := by
    rw [List.find?_eq_none]
    intro other hother hfound
    rw [Bool.and_eq_true, decide_eq_true_iff] at hfound
    rw [Tree.eq_of_path hentry hother hfound.1, hunwritten] at hfound
    cases hfound.2
  rw [after, hnone, Option.none_or]

end Record

namespace Tree

/-- The record of a session in which all frames since the last change of the
buffer's size have succeeded. -/
inductive Recorded : Tree → Record → Prop
  | fresh {tree : Tree} (h : Fresh tree) : Recorded tree .empty
  | insert {tree : Tree} {record : Record} (h : Recorded tree record)
      (star : Star) : Recorded (tree.act (.insert star)) record
  | insertFlat {tree : Tree} {record : Record} (h : Recorded tree record)
      (values : List Value) : Recorded (tree.act (.insertFlat values)) record
  | resizeBuffer {tree : Tree} (h : Reachable tree) (capacity : Nat) :
      Recorded (tree.act (.resizeBuffer capacity)) .empty
  | runFrame {tree : Tree} {record : Record} {oracle : Oracle}
      {detail : Detail} {time : Option Nat} {update : Update}
      (h : Recorded tree record)
      (hframe : (tree.runFrame oracle detail time).outcome = .ok update) :
      Recorded (tree.act (.runFrame oracle detail time))
        (record.after (tree.act (.runFrame oracle detail time)) update)

variable {tree next : Tree} {record : Record} {oracle : Oracle}
  {detail : Detail} {time : Option Nat} {update : Update}

/-- A frame that succeeds does not stall. -/
theorem stalls_of_ok
    (hframe : (tree.runFrame oracle detail time).outcome = .ok update) :
    tree.stalls oracle detail = false := by
  obtain ⟨log, hrun⟩ := @exists_runFrame_eq tree oracle detail time
  rw [hrun] at hframe
  rw [stalls, hframe]
  exact Bool.and_false _

theorem Recorded.tidy (h : Recorded tree record) : Tidy tree := by
  induction h with
  | fresh h => exact .fresh h
  | insert _ star ih => exact ih.insert star
  | insertFlat _ values ih => exact ih.insertFlat values
  | resizeBuffer h capacity => exact .resizeBuffer h capacity
  | runFrame _ hframe ih => exact ih.runFrame _ (stalls_of_ok hframe)

/-- The slot of a node still shows what the node was when it was written, and
the node has only taken stars since. -/
structure Shown (tree : Tree) (written entry : Entry) : Prop where
  grows : written.Grows entry
  shown : written.shown? = some written.shows
  regular : written.cell.Regular tree.layout tree.settings.starsPerCell
    written.isLeaf

/-- Every node with a slot is recorded as it was when its slot was filled. -/
def Remembers (tree : Tree) (record : Record) : Prop :=
  ∀ entry ∈ tree.listing, entry.isResident = true →
    ∃ written, record entry.path = some written ∧ tree.Shown written entry

theorem Vacant.remembers (h : tree.Vacant) (record : Record) :
    tree.Remembers record := by
  intro entry hentry hresident
  obtain ⟨o, _, ho⟩ := List.mem_flatMap.mp hentry
  rw [Entry.isResident_of_vacant ((h o).tenancy_of_mem_listing ho)] at hresident
  cases hresident

theorem Remembers.gains {star : Star} (h : tree.Remembers record)
    (hgains : tree.Gains star next) : next.Remembers record := by
  intro entry hentry hresident
  rcases hgains.extends.origin entry hentry with
    ⟨old, hold, hgrows⟩ | ⟨hvacant, _⟩
  · rw [Entry.isResident, hgrows.tenancy] at hresident
    obtain ⟨written, hrecord, hshown⟩ := h old hold hresident
    refine ⟨written, hgrows.path ▸ hrecord, ?_⟩
    refine ⟨hshown.grows.trans hgrows, hshown.shown, ?_⟩
    rw [hgains.layout, hgains.settings]
    exact hshown.regular
  · rw [Entry.isResident_of_vacant hvacant] at hresident
    cases hresident

end Tree

end Starfield
