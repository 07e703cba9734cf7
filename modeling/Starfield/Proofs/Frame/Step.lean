import Starfield.Frame.Walk

/-!
# One step of a walk

A walk changes a tree one cell at a time.  A cell that is to be drawn is
seated, any other is vacated.  This file lists everything that either can come
to, so later proofs go through these cases and never open the operations
themselves.
-/

namespace Starfield

variable {pass : Pass} {stars sampled : Nat} {cell : Cell} {walk : Walk}

namespace Cell

/-- The slot that a cell holds, as a list of at most one. -/
def held (cell : Cell) : List Nat :=
  (cell.tenancy.map Tenancy.slot).toList

theorem held_of_tenancy {tenancy : Tenancy}
    (hcell : cell.tenancy = some tenancy) : cell.held = [tenancy.slot] := by
  simp [held, hcell]

theorem held_of_vacant (hcell : cell.tenancy = none) : cell.held = [] := by
  simp [held, hcell]

theorem mem_held_iff {cell : Cell} {slot : Nat} :
    slot ∈ cell.held ↔
      ∃ tenancy, cell.tenancy = some tenancy ∧ tenancy.slot = slot := by
  simp [held]

theorem shown_of_tenancy {tenancy : Tenancy}
    (hcell : cell.tenancy = some tenancy) : cell.shown = tenancy.stars := by
  rw [shown, hcell]
  rfl

theorem shown_of_vacant (hcell : cell.tenancy = none) : cell.shown = 0 := by
  rw [shown, hcell]
  rfl

def clear (cell : Cell) : Cell := { cell with tenancy := none }

/-- What seating a cell can come to.  The last component tells whether the slot
is a new one. -/
inductive Seats (pass : Pass) (stars sampled : Nat) (cell : Cell)
    (walk : Walk) : Cell × Walk × Bool → Prop
  | kept {tenancy : Tenancy} (hcell : cell.tenancy = some tenancy)
      (hpass : pass.compacting = false)
      (hsame : tenancy.stars = stars ∧ tenancy.sampled = sampled) :
      Seats pass stars sampled cell walk (cell, walk, false)
  | rewritten {tenancy : Tenancy} (hcell : cell.tenancy = some tenancy)
      (hpass : pass.compacting = false)
      (hchanged : ¬(tenancy.stars = stars ∧ tenancy.sampled = sampled)) :
      Seats pass stars sampled cell walk
        ((cell.write pass tenancy.slot stars sampled walk).1,
          (cell.write pass tenancy.slot stars sampled walk).2, false)
  | placed {slot : Nat} {slots : SlotPool}
      (hcell : cell.tenancy = none ∨ pass.compacting = true)
      (hslot : walk.slots.acquire? = some (slot, slots)) :
      Seats pass stars sampled cell walk
        ((cell.write pass slot stars sampled
            { walk with slots, stale := cell.held ++ walk.stale }).1,
          (cell.write pass slot stars sampled
            { walk with slots, stale := cell.held ++ walk.stale }).2, true)
  | refused (hcell : cell.tenancy = none ∨ pass.compacting = true)
      (hslot : walk.slots.acquire? = none) :
      Seats pass stars sampled cell walk
        (cell,
          { walk with stale := cell.held ++ walk.stale, exhausted := true },
          false)

theorem seats_seat (pass : Pass) (stars sampled : Nat) (cell : Cell)
    (walk : Walk) :
    Seats pass stars sampled cell walk
      (cell.seat pass stars sampled walk) := by
  have hrefused := @Seats.refused pass stars sampled cell walk
  have hplaced := @Seats.placed pass stars sampled cell walk
  rw [seat, claim]
  cases hcell : cell.tenancy with
  | none =>
      rw [held_of_vacant hcell, List.nil_append] at hrefused
      simp only [held_of_vacant hcell, List.nil_append] at hplaced
      dsimp only
      cases hslot : walk.slots.acquire? with
      | none => exact hrefused (.inl hcell) hslot
      | some taken => exact hplaced (.inl hcell) hslot
  | some tenancy =>
      rw [held_of_tenancy hcell, List.singleton_append] at hrefused
      simp only [held_of_tenancy hcell, List.singleton_append] at hplaced
      cases hpass : pass.compacting with
      | true =>
          dsimp only
          rw [if_pos rfl]
          cases hslot : walk.slots.acquire? with
          | none => exact hrefused (.inr hpass) hslot
          | some taken => exact hplaced (.inr hpass) hslot
      | false =>
          dsimp only
          rw [if_neg Bool.false_ne_true]
          by_cases hsame : tenancy.stars = stars ∧ tenancy.sampled = sampled
          · rw [if_pos hsame]
            exact .kept hcell hpass hsame
          · rw [if_neg hsame]
            exact .rewritten hcell hpass hsame

/-- A cell gets a new slot when it has claimed one. -/
theorem exists_claim_of_new
    (hnew : (cell.seat pass stars sampled walk).2.2 = true) :
    ∃ slot claimed,
      cell.claim pass stars sampled walk = (some (slot, true), claimed) ∧
        cell.seat pass stars sampled walk =
          ((cell.write pass slot stars sampled claimed).1,
            (cell.write pass slot stars sampled claimed).2, true) := by
  rw [seat] at hnew ⊢
  rcases hclaim : cell.claim pass stars sampled walk with
    ⟨_ | ⟨slot, isNew⟩, claimed⟩ <;> rw [hclaim] at hnew <;> cases hnew
  exact ⟨slot, claimed, rfl, rfl⟩

inductive Vacates (pass : Pass) (cell : Cell) (walk : Walk) :
    Cell × Walk → Prop
  | idle (hcell : cell.tenancy = none) : Vacates pass cell walk (cell, walk)
  | released {tenancy : Tenancy} (hcell : cell.tenancy = some tenancy)
      (hpass : pass.compacting = false) :
      Vacates pass cell walk
        ({ cell with tenancy := none },
          { walk with
            slots := walk.slots.release tenancy.slot
            changes := walk.changes.insert tenancy.slot .vacate
            delta := walk.delta - tenancy.stars })
  | dropped {tenancy : Tenancy} (hcell : cell.tenancy = some tenancy)
      (hpass : pass.compacting = true) :
      Vacates pass cell walk
        ({ cell with tenancy := none },
          { walk with
            stale := tenancy.slot :: walk.stale
            delta := walk.delta - tenancy.stars })

theorem vacates_vacate (pass : Pass) (cell : Cell) (walk : Walk) :
    Vacates pass cell walk (cell.vacate pass.compacting walk) := by
  rw [vacate]
  cases hcell : cell.tenancy with
  | none => exact .idle hcell
  | some tenancy =>
      cases hpass : pass.compacting with
      | true => exact .dropped hcell hpass
      | false => exact .released hcell hpass

/-! ## What every step leaves alone -/

namespace Seats

variable {seated : Cell × Walk × Bool}

theorem asked_eq (h : Seats pass stars sampled cell walk seated) :
    seated.2.1.asked = walk.asked := by
  cases h <;> rfl

theorem clear_eq (h : Seats pass stars sampled cell walk seated) :
    seated.1.clear = cell.clear := by
  cases h <;> rfl

theorem exhausted_of_new (h : Seats pass stars sampled cell walk seated)
    (hwalk : walk.exhausted = false) (hnew : seated.2.2 = true) :
    seated.2.1.exhausted = false := by
  cases h with
  | placed => exact hwalk
  | kept | rewritten | refused => cases hnew

/-- A cell that did not get a new slot held one before, or there was none
left. -/
theorem exhausted_or_of_not_new (h : Seats pass stars sampled cell walk seated)
    (hnew : seated.2.2 = false) :
    seated.2.1.exhausted = true ∨ cell.tenancy ≠ none := by
  cases h with
  | kept hcell | rewritten hcell => exact .inr (by simp [hcell])
  | placed => cases hnew
  | refused => exact .inl rfl

/-- A cell that did not get a new slot holds one only if it did before. -/
theorem tenancy_of_not_new (h : Seats pass stars sampled cell walk seated)
    (hnew : seated.2.2 = false) (hseated : seated.1.tenancy ≠ none) :
    cell.tenancy ≠ none := by
  cases h with
  | kept hcell | rewritten hcell => simp [hcell]
  | placed => cases hnew
  | refused => exact hseated

end Seats

namespace Vacates

variable {vacated : Cell × Walk}

theorem asked_eq (h : Vacates pass cell walk vacated) :
    vacated.2.asked = walk.asked := by
  cases h <;> rfl

theorem clear_eq (h : Vacates pass cell walk vacated) :
    vacated.1.clear = cell.clear := by
  cases h <;> rfl

theorem tenancy_eq (h : Vacates pass cell walk vacated) :
    vacated.1.tenancy = none := by
  cases h with
  | idle hcell => exact hcell
  | released | dropped => rfl

theorem exhausted_eq (h : Vacates pass cell walk vacated) :
    vacated.2.exhausted = walk.exhausted := by
  cases h <;> rfl

end Vacates

end Cell

end Starfield
