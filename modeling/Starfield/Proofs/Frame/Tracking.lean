import Starfield.Proofs.Frame.Accounting
import Starfield.Proofs.Frame.Agreement

/-!
# Following a frame from outside

Whoever draws keeps a copy of the buffer and learns of a frame only by its
changes.  This file follows such a copy along the settling of a plan.  When the
buffer is kept, the slots of all nodes are tracked from the beginning; when it is
compacted, a slot is tracked as soon as it has been placed anew.
-/

namespace Starfield

/-- What the slots of a drawing buffer hold; an empty slot holds nothing. -/
abbrev Buffer := Nat → Option (List Value)

namespace Buffer

def empty : Buffer := fun _ => none

end Buffer

/-- What a change leaves in its slot.  An empty chunk empties the slot. -/
def Change.content : Change → Option (List Value)
  | fill chunk => if chunk.isEmpty then none else some chunk
  | vacate => none

def Buffer.after (buffer : Buffer) (changes : Std.TreeMap Nat Change) :
    Buffer := fun slot =>
  match changes[slot]? with
  | none => buffer slot
  | some change => change.content

namespace Buffer

variable (buffer : Buffer) (changes : Std.TreeMap Nat Change)

theorem after_empty : buffer.after ∅ = buffer := by
  funext slot
  rw [after, Std.TreeMap.getElem?_emptyc]

theorem after_insert (slot : Nat) (change : Change) (other : Nat) :
    buffer.after (changes.insert slot change) other =
      if slot = other then change.content
      else buffer.after changes other := by
  by_cases hslot : slot = other
  · subst other
    simp [after]
  · simp [after, Std.TreeMap.getElem?_insert, hslot]

theorem after_insert_self (slot : Nat) (change : Change) :
    buffer.after (changes.insert slot change) slot = change.content := by
  rw [after_insert, if_pos rfl]

theorem after_insert_of_ne {slot other : Nat} (change : Change)
    (hother : slot ≠ other) :
    buffer.after (changes.insert slot change) other =
      buffer.after changes other := by
  rw [after_insert, if_neg hother]

/-- Stale slots are emptied unless they have been filled anew. -/
theorem getElem?_stale (stale : List Nat) (changes : Std.TreeMap Nat Change)
    (slot : Nat) :
    (stale.foldl (fun changes slot => changes.insertIfNew slot .vacate)
        changes)[slot]? =
      (changes[slot]?).or (if slot ∈ stale then some .vacate else none) := by
  induction stale generalizing changes with
  | nil => simp
  | cons first stale ih =>
      rw [List.foldl_cons, ih, Std.TreeMap.getElem?_insertIfNew]
      by_cases hfirst : first = slot
      · subst slot
        cases hchange : changes[first]? with
        | none =>
            have hnew : first ∉ changes := by
              rw [← Std.TreeMap.isSome_getElem?_iff_mem, hchange]
              exact Bool.false_ne_true
            simp [hnew]
        | some change =>
            have hold : first ∈ changes := by
              rw [← Std.TreeMap.isSome_getElem?_iff_mem, hchange]
              rfl
            simp [hold]
      · simp [hfirst, Ne.symm hfirst]

/-- When all filled slots are stale, a compacted buffer is what its changes make
of an empty one. -/
theorem after_stale (stale : List Nat)
    (hstale : ∀ slot, (buffer slot).isSome → slot ∈ stale) :
    buffer.after (stale.foldl
        (fun changes slot => changes.insertIfNew slot .vacate) changes) =
      empty.after changes := by
  funext slot
  simp only [after]
  rw [getElem?_stale]
  cases changes[slot]? with
  | some change => rfl
  | none =>
      by_cases hslot : slot ∈ stale
      · simp [hslot, Change.content, empty]
      · have hempty : buffer slot = none := by
          rw [← Option.not_isSome_iff_eq_none]
          exact fun hfilled => hslot (hstale slot hfilled)
        simp [hslot, empty, hempty]

end Buffer

/-! ## One node -/

/-- The slots of a list of nodes that are tracked before a frame has come to
them. -/
def trackedBy (pass : Pass) (entries : List Entry) : List Nat :=
  if pass.compacting then [] else heldBy entries

/-- The pool accounts for the tracked slots, and after the changes these are the
filled ones. -/
structure Tracks (base : Buffer) (tracked : List Nat) (pool : SlotPool)
    (changes : Std.TreeMap Nat Change) : Prop where
  accounts : pool.Accounts tracked
  filled : ∀ slot, (base.after changes slot).isSome ↔ slot ∈ tracked

namespace Tracks

variable {base : Buffer} {tracked others : List Nat} {pool next : SlotPool}
  {changes : Std.TreeMap Nat Change} {slot : Nat}

theorem perm (h : Tracks base tracked pool changes)
    (hothers : others.Perm tracked) : Tracks base others pool changes :=
  ⟨h.accounts.perm hothers,
    fun slot => (h.filled slot).trans hothers.mem_iff.symm⟩

theorem ne_of_mem (hnext : next.Accounts (slot :: others)) {other : Nat}
    (hother : other ∈ others) : slot ≠ other := by
  rintro rfl
  exact (List.nodup_cons.mp hnext.nodup_held).1 hother

/-- Writing a slot that no other node holds. -/
theorem written {chunk : List Value} (hnext : next.Accounts (slot :: others))
    (hchunk : chunk ≠ [])
    (hfilled : ∀ other, other ≠ slot →
      ((base.after changes other).isSome ↔ other ∈ others)) :
    Tracks base (slot :: others) next (changes.insert slot (.fill chunk)) ∧
      base.after (changes.insert slot (.fill chunk)) slot = some chunk ∧
      ∀ other ∈ others,
        base.after (changes.insert slot (.fill chunk)) other =
          base.after changes other := by
  have hslot : base.after (changes.insert slot (.fill chunk)) slot =
      some chunk := by
    rw [Buffer.after_insert_self]
    simp [Change.content, hchunk]
  refine ⟨⟨hnext, fun other => ?_⟩, hslot, fun other hother =>
    Buffer.after_insert_of_ne _ _ _ (ne_of_mem hnext hother)⟩
  by_cases hother : other = slot
  · subst other
    simp [hslot]
  · rw [Buffer.after_insert_of_ne _ _ _ (Ne.symm hother),
      hfilled other hother, List.mem_cons, or_iff_right hother]

/-- Emptying a slot that no other node holds. -/
theorem emptied (h : Tracks base (slot :: others) pool changes)
    (hnext : next.Accounts others) :
    Tracks base others next (changes.insert slot .vacate) ∧
      ∀ other ∈ others,
        base.after (changes.insert slot .vacate) other =
          base.after changes other := by
  refine ⟨⟨hnext, fun other => ?_⟩, fun other hother =>
    Buffer.after_insert_of_ne _ _ _ (ne_of_mem h.accounts hother)⟩
  by_cases hother : other = slot
  · subst other
    have hslot := (List.nodup_cons.mp h.accounts.nodup_held).1
    simp [Buffer.after_insert_self, Change.content, hslot]
  · rw [Buffer.after_insert_of_ne _ _ _ (Ne.symm hother), h.filled,
      List.mem_cons, or_iff_right hother]

end Tracks

/-- The slot of the node, if any, holds what the node would write into it. -/
def Entry.Mirrored (pass : Pass) (buffer : Buffer) (entry : Entry) : Prop :=
  ∀ tenancy, entry.cell.tenancy = some tenancy →
    buffer tenancy.slot = some (pass.chunk entry.cell)

/-- When the node shows what it would show now, then its slot holds what the
node would write into it. -/
def Entry.Recorded (pass : Pass) (buffer : Buffer) (entry : Entry) : Prop :=
  ∀ tenancy, entry.cell.tenancy = some tenancy →
    (tenancy.stars, tenancy.sampled) = entry.shows →
      buffer tenancy.slot = some (pass.chunk entry.cell)

theorem Entry.mem_held {entry : Entry} {tenancy : Tenancy}
    (hentry : entry.cell.tenancy = some tenancy) :
    tenancy.slot ∈ entry.cell.held := by
  rw [Cell.held_of_tenancy hentry]
  exact List.mem_singleton_self _

theorem Entry.Mirrored.congr {pass : Pass} {buffer other : Buffer}
    {entry : Entry} (h : entry.Mirrored pass buffer)
    (hother : ∀ slot ∈ entry.cell.held, other slot = buffer slot) :
    entry.Mirrored pass other := by
  intro tenancy hentry
  rw [hother _ (Entry.mem_held hentry)]
  exact h tenancy hentry

theorem Entry.Recorded.congr {pass : Pass} {buffer other : Buffer}
    {entry : Entry} (h : entry.Recorded pass buffer)
    (hother : ∀ slot ∈ entry.cell.held, other slot = buffer slot) :
    entry.Recorded pass other := by
  intro tenancy hentry hshows
  rw [hother _ (Entry.mem_held hentry)]
  exact h tenancy hentry hshows

section

variable {pass : Pass} {base : Buffer} {others : List Nat} {walk : Walk}
  {entry : Entry} {settled : Entry × Walk} {drawn : Bool}

theorem trackedBy_of_kept (hpass : pass.compacting = false)
    (entries : List Entry) : trackedBy pass entries = heldBy entries := by
  simp [trackedBy, hpass]

theorem trackedBy_of_compacting (hpass : pass.compacting = true)
    (entries : List Entry) : trackedBy pass entries = [] := by
  simp [trackedBy, hpass]

theorem heldBy_singleton (entry : Entry) :
    heldBy [entry] = entry.cell.held :=
  List.flatMap_singleton _ _

/-- A node that gets a new slot was not tracked before. -/
theorem trackedBy_of_unplaced
    (hcell : entry.cell.tenancy = none ∨ pass.compacting = true) :
    trackedBy pass [entry] = [] := by
  cases hpass : pass.compacting with
  | true => exact trackedBy_of_compacting hpass _
  | false =>
      rw [hpass] at hcell
      rw [trackedBy_of_kept hpass, heldBy_singleton,
        Cell.held_of_vacant (hcell.resolve_right Bool.false_ne_true)]

theorem trackedBy_of_tenancy {tenancy : Tenancy}
    (hcell : entry.cell.tenancy = some tenancy)
    (hpass : pass.compacting = false) :
    trackedBy pass [entry] = [tenancy.slot] := by
  rw [trackedBy_of_kept hpass, heldBy_singleton, Cell.held_of_tenancy hcell]

/-- After a walk the slot of the node is tracked, the node is mirrored, and the
slots of the others are as they were before. -/
structure Entry.Tracked (pass : Pass) (base : Buffer) (others : List Nat)
    (before after : Walk) (entry : Entry) : Prop where
  tracks : Tracks base (entry.cell.held ++ others) after.slots after.changes
  mirrored : entry.Mirrored pass (base.after after.changes)
  others : ∀ slot ∈ others,
    base.after after.changes slot = base.after before.changes slot

theorem Entry.mirrored_of_tenancy {buffer : Buffer} {tenancy : Tenancy}
    (hcell : entry.cell.tenancy = some tenancy)
    (hslot : buffer tenancy.slot = some (pass.chunk entry.cell)) :
    entry.Mirrored pass buffer := by
  intro other hother
  obtain rfl := Option.some.inj (hcell.symm.trans hother)
  exact hslot

theorem Entry.mirrored_of_vacant {buffer : Buffer}
    (hcell : entry.cell.tenancy = none) : entry.Mirrored pass buffer := by
  intro other hother
  exact absurd (hcell.symm.trans hother) (by simp)

/-- A node that is seated in its old slot is written again only when it shows
something else. -/
theorem Entry.tracked_of_seats {seated : Cell × Walk × Bool}
    (hchunk : ∀ cell, pass.chunk cell ≠ [])
    (h : entry.cell.Seats pass entry.shows.1 entry.shows.2 walk seated)
    (hdone : seated.2.1.exhausted = false)
    (hrecorded : pass.compacting = false →
      entry.Recorded pass (base.after walk.changes))
    (hwalk : Tracks base (trackedBy pass [entry] ++ others) walk.slots
      walk.changes) :
    Entry.Tracked pass base others walk seated.2.1
      { entry with cell := seated.1 } := by
  cases h with
  | @kept tenancy hcell hpass hsame =>
      rw [trackedBy_of_tenancy hcell hpass, ← Cell.held_of_tenancy hcell]
        at hwalk
      have hslot := hrecorded hpass tenancy hcell
        (Prod.ext hsame.1 hsame.2)
      exact ⟨hwalk, mirrored_of_tenancy hcell hslot, fun _ _ => rfl⟩
  | @rewritten tenancy hcell hpass =>
      rw [trackedBy_of_tenancy hcell hpass, List.singleton_append] at hwalk
      obtain ⟨htracks, hslot, hothers⟩ :=
        Tracks.written hwalk.accounts (hchunk entry.cell)
          fun other hother => by
            rw [hwalk.filled, List.mem_cons, or_iff_right hother]
      exact ⟨htracks, mirrored_of_tenancy rfl hslot, hothers⟩
  | placed hcell hacquire =>
      rw [trackedBy_of_unplaced hcell] at hwalk
      obtain ⟨htracks, hslot, hothers⟩ :=
        Tracks.written (hwalk.accounts.acquire hacquire)
          (hchunk entry.cell) fun other _ => hwalk.filled other
      exact ⟨htracks, mirrored_of_tenancy rfl hslot, hothers⟩
  | refused _ _ => cases hdone

theorem Entry.tracked_of_vacates {vacated : Cell × Walk}
    (h : entry.cell.Vacates pass walk vacated)
    (hwalk : Tracks base (trackedBy pass [entry] ++ others) walk.slots
      walk.changes) :
    Entry.Tracked pass base others walk vacated.2
      { entry with cell := vacated.1 } := by
  cases h with
  | idle hcell =>
      rw [trackedBy_of_unplaced (.inl hcell), ← Cell.held_of_vacant hcell]
        at hwalk
      exact ⟨hwalk, mirrored_of_vacant hcell, fun _ _ => rfl⟩
  | released hcell hpass =>
      rw [trackedBy_of_tenancy hcell hpass] at hwalk
      obtain ⟨htracks, hothers⟩ := hwalk.emptied hwalk.accounts.release
      exact ⟨htracks, mirrored_of_vacant rfl, hothers⟩
  | dropped hcell hpass =>
      rw [trackedBy_of_compacting hpass] at hwalk
      exact ⟨hwalk, mirrored_of_vacant rfl, fun _ _ => rfl⟩

/-- Settling a node mirrors it and leaves the slots of the others alone. -/
theorem Entry.Settles.tracked (hchunk : ∀ cell, pass.chunk cell ≠ [])
    (h : entry.Settles pass walk drawn settled)
    (hdone : settled.2.exhausted = false)
    (hrecorded : pass.compacting = false →
      entry.Recorded pass (base.after walk.changes))
    (hwalk : Tracks base (trackedBy pass [entry] ++ others) walk.slots
      walk.changes) :
    settled.1.Tracked pass base others walk settled.2 := by
  cases h with
  | seated hseats =>
      exact Entry.tracked_of_seats hchunk hseats hdone hrecorded hwalk
  | vacated hvacates => exact Entry.tracked_of_vacates hvacates hwalk

end

/-! ## All nodes -/

variable {pass : Pass} {base : Buffer} {others : List Nat} {walk : Walk}

theorem trackedBy_cons (entry : Entry) (entries : List Entry) :
    trackedBy pass (entry :: entries) =
      trackedBy pass [entry] ++ trackedBy pass entries := by
  simp only [trackedBy]
  split
  · rfl
  · rw [heldBy_singleton, heldBy_cons]

theorem held_subset_heldBy {entry : Entry} {entries : List Entry}
    (hentry : entry ∈ entries) : entry.cell.held ⊆ heldBy entries :=
  fun _ hslot => List.mem_flatMap.mpr ⟨entry, hentry, hslot⟩

/-- A copy that mirrors all nodes cannot tell whether slots have been filled that
should be empty: a node that holds a slot has filled it. -/
theorem Tracks.after_eq {entries : List Entry} {pool : SlotPool}
    {settled walked : Std.TreeMap Nat Change}
    (h : Tracks base (heldBy entries) pool settled)
    (hoverwrites : Overwrites pass entries settled walked) :
    base.after walked = base.after settled := by
  funext slot
  have hsame : walked[slot]? = settled[slot]? := by
    apply hoverwrites.getElem?_eq
    intro hvacate entry hentry hheld
    have hfilled := (h.filled slot).mpr (held_subset_heldBy hentry hheld)
    rw [Buffer.after, hvacate] at hfilled
    cases hfilled
  rw [Buffer.after, Buffer.after, hsame]

/-- When a plan is settled to the end, the copy has in its filled slots what the
nodes that hold them would write there, and nothing else. -/
theorem tracks_settleAll (hchunk : ∀ cell, pass.chunk cell ≠ [])
    (plan : List (Entry × Bool))
    (hdone : (settleAll pass plan walk).2.exhausted = false)
    (hrecorded : pass.compacting = false → ∀ entry ∈ plan.map Prod.fst,
      entry.Recorded pass (base.after walk.changes))
    (hwalk : Tracks base (trackedBy pass (plan.map Prod.fst) ++ others)
      walk.slots walk.changes) :
    let settled := settleAll pass plan walk
    Tracks base (heldBy settled.1 ++ others) settled.2.slots
        settled.2.changes ∧
      (∀ entry ∈ settled.1,
        entry.Mirrored pass (base.after settled.2.changes)) ∧
      ∀ slot ∈ others, base.after settled.2.changes slot =
        base.after walk.changes slot := by
  induction plan generalizing walk others with
  | nil =>
      refine ⟨?_, fun _ hentry => absurd hentry List.not_mem_nil,
        fun _ _ => rfl⟩
      rw [trackedBy] at hwalk
      split at hwalk <;> exact hwalk
  | cons head plan ih =>
      obtain ⟨entry, drawn⟩ := head
      have hrunning := running_of_done hdone
      rw [settleAll_cons hrunning] at hdone
      rw [List.map_cons] at hrecorded hwalk
      rw [trackedBy_cons, List.append_assoc] at hwalk
      obtain ⟨htracks, hmirrored, hothers⟩ :=
        (Entry.settles_settle pass drawn entry walk).tracked hchunk
          (running_of_done hdone)
          (fun hpass => hrecorded hpass entry List.mem_cons_self) hwalk
      have hrest : pass.compacting = false → ∀ other ∈ plan.map Prod.fst,
          other.Recorded pass
            (base.after (entry.settle pass drawn walk).2.changes) := by
        intro hpass other hother
        apply (hrecorded hpass other (List.mem_cons_of_mem _ hother)).congr
        intro slot hslot
        apply hothers slot
        rw [trackedBy_of_kept hpass]
        exact List.mem_append_left _ (held_subset_heldBy hother hslot)
      obtain ⟨htracks', hmirrored', hothers'⟩ := ih hdone hrest
        (htracks.perm (List.perm_append_comm_assoc _ _ _))
      rw [settleAll_cons hrunning]
      refine ⟨?_, ?_, ?_⟩
      · rw [heldBy_cons, List.append_assoc]
        exact htracks'.perm (List.perm_append_comm_assoc _ _ _)
      · intro other hother
        rcases List.mem_cons.mp hother with rfl | hother
        · exact hmirrored.congr fun slot hslot =>
            hothers' slot (List.mem_append_left _ hslot)
        · exact hmirrored' other hother
      · intro slot hslot
        rw [hothers' slot (List.mem_append_right _ hslot)]
        exact hothers slot (List.mem_append_right _ hslot)

/-! ## Stale slots -/

theorem Entry.Settles.stale_eq {entry : Entry} {settled : Entry × Walk}
    {drawn : Bool} (h : entry.Settles pass walk drawn settled) :
    settled.2.stale =
      (if pass.compacting then entry.cell.held else []) ++ walk.stale := by
  cases h with
  | seated hseats =>
      cases hseats with
      | kept _ hpass _ | rewritten _ hpass => simp [hpass, Cell.write]
      | placed hcell _ | refused hcell _ =>
          cases hpass : pass.compacting with
          | true => rfl
          | false =>
              rw [hpass] at hcell
              have hvacant := hcell.resolve_right Bool.false_ne_true
              simp [Cell.write, Cell.held_of_vacant hvacant]
  | vacated hvacates =>
      cases hvacates with
      | idle hcell => simp [Cell.held_of_vacant hcell]
      | released _ hpass => simp [hpass]
      | dropped hcell hpass => simp [hpass, Cell.held_of_tenancy hcell]

/-- A frame that compacts the buffer collects just the slots held before it. -/
theorem mem_stale_settleAll_iff (hpass : pass.compacting = true)
    (plan : List (Entry × Bool))
    (hdone : (settleAll pass plan walk).2.exhausted = false) (slot : Nat) :
    slot ∈ (settleAll pass plan walk).2.stale ↔
      slot ∈ heldBy (plan.map Prod.fst) ∨ slot ∈ walk.stale := by
  induction plan generalizing walk with
  | nil => exact (or_iff_right List.not_mem_nil).symm
  | cons head plan ih =>
      obtain ⟨entry, drawn⟩ := head
      have hrunning := running_of_done hdone
      rw [settleAll_cons hrunning] at hdone ⊢
      have hstale := (Entry.settles_settle pass drawn entry walk).stale_eq
      rw [hpass, if_pos rfl] at hstale
      rw [ih hdone, hstale, List.map_cons, heldBy_cons, List.mem_append,
        List.mem_append, or_assoc]
      exact or_left_comm

/-- A frame that keeps the buffer collects no slots. -/
theorem stale_settleAll (hpass : pass.compacting = false)
    (plan : List (Entry × Bool)) (walk : Walk) :
    (settleAll pass plan walk).2.stale = walk.stale := by
  apply settleAll_induction
    (P := fun _ walk settled => settled.2.stale = walk.stale)
  case stopped => exact fun _ _ => rfl
  case step =>
    intro entry drawn plan walk here rest hsettles hrest
    have hstale := hsettles.stale_eq
    rw [hpass, if_neg Bool.false_ne_true, List.nil_append] at hstale
    exact hrest.trans hstale

end Starfield
