import Starfield.Proofs.Frame.Settling
import Starfield.Proofs.Ledger

/-!
# The account of slots during a frame

A frame that keeps the buffer as it is moves every slot between the nodes and
the pool, so the pool goes on accounting for what the nodes hold.  A frame that
compacts the buffer starts with all slots free and accounts for the slots that
were placed anew; nodes it has not come to still name their old slots.
-/

namespace Starfield

variable {pass : Pass}

/-- The slots that a list of nodes holds. -/
def heldBy (entries : List Entry) : List Nat :=
  entries.flatMap fun entry => entry.cell.held

theorem heldBy_cons (entry : Entry) (entries : List Entry) :
    heldBy (entry :: entries) = entry.cell.held ++ heldBy entries :=
  List.flatMap_cons

/-! ## Keeping the buffer -/

section

variable {others : List Nat} {walk : Walk}

theorem Cell.Seats.accounts {stars sampled : Nat} {cell : Cell}
    {seated : Cell × Walk × Bool} (hpass : pass.compacting = false)
    (h : cell.Seats pass stars sampled walk seated)
    (hwalk : walk.slots.Accounts (cell.held ++ others)) :
    seated.2.1.slots.Accounts (seated.1.held ++ others) := by
  cases h with
  | kept hcell _ _ => exact hwalk
  | rewritten hcell _ =>
      rw [held_of_tenancy hcell] at hwalk
      exact hwalk
  | placed hcell hslot =>
      have hvacant : cell.tenancy = none :=
        hcell.resolve_right (by simp [hpass])
      rw [held_of_vacant hvacant, List.nil_append] at hwalk
      exact hwalk.acquire hslot
  | refused hcell hslot => exact hwalk

theorem Cell.Vacates.accounts {cell : Cell} {vacated : Cell × Walk}
    (hpass : pass.compacting = false) (h : cell.Vacates pass walk vacated)
    (hwalk : walk.slots.Accounts (cell.held ++ others)) :
    vacated.2.slots.Accounts (vacated.1.held ++ others) := by
  cases h with
  | idle hcell => exact hwalk
  | released hcell _ =>
      rw [held_of_tenancy hcell] at hwalk
      exact hwalk.release
  | dropped hcell hcompacting =>
      rw [hpass] at hcompacting
      cases hcompacting

theorem Entry.Settles.accounts {drawn : Bool} {entry : Entry}
    {settled : Entry × Walk} (hpass : pass.compacting = false)
    (h : entry.Settles pass walk drawn settled)
    (hwalk : walk.slots.Accounts (entry.cell.held ++ others)) :
    settled.2.slots.Accounts (settled.1.cell.held ++ others) := by
  cases h with
  | seated hseats => exact hseats.accounts hpass hwalk
  | vacated hvacates => exact hvacates.accounts hpass hwalk

/-- As long as the buffer is kept, the pool accounts for what the nodes hold,
also when the slots run out on the way. -/
theorem accounts_settleAll (hpass : pass.compacting = false)
    (plan : List (Entry × Bool))
    (hwalk : walk.slots.Accounts (heldBy (plan.map Prod.fst) ++ others)) :
    (settleAll pass plan walk).2.slots.Accounts
      (heldBy (settleAll pass plan walk).1 ++ others) := by
  induction plan generalizing walk others with
  | nil => exact hwalk
  | cons head plan ih =>
      obtain ⟨entry, drawn⟩ := head
      cases hexhausted : walk.exhausted with
      | true =>
          rw [settleAll_of_exhausted _ hexhausted]
          exact hwalk
      | false =>
          rw [List.map_cons, heldBy_cons, List.append_assoc] at hwalk
          have hhere := (Entry.settles_settle pass drawn entry walk).accounts
            hpass hwalk
          have hrest := ih (hhere.perm (List.perm_append_comm_assoc _ _ _))
          rw [settleAll_cons hexhausted, heldBy_cons, List.append_assoc]
          exact hrest.perm (List.perm_append_comm_assoc _ _ _)

end

/-! ## Compacting the buffer -/

/-- How the slots stand while a frame places every node anew.  Of the slots now
held by the nodes that it has come to, some were placed by it; the others were
held before. -/
structure Rebuilds (before after placed others : List Nat) (walk : Walk) :
    Prop where
  accounts : walk.slots.Accounts (placed ++ others)
  idle : walk.slots.pending.toList = []
  sublist : placed.Sublist after
  origin : ∀ slot ∈ after, slot ∈ placed ∨ slot ∈ before
  complete : walk.exhausted = false → placed = after
  full : walk.exhausted = true → walk.slots.free = []

variable {others : List Nat} {walk : Walk}

theorem Entry.Settles.rebuilds {drawn : Bool} {entry : Entry}
    {settled : Entry × Walk} (hpass : pass.compacting = true)
    (h : entry.Settles pass walk drawn settled)
    (hexhausted : walk.exhausted = false)
    (hwalk : walk.slots.Accounts others)
    (hidle : walk.slots.pending.toList = []) :
    ∃ placed, Rebuilds entry.cell.held settled.1.cell.held placed others
      settled.2 := by
  cases h with
  | seated hseats =>
      cases hseats with
      | kept _ hkept _ | rewritten _ hkept =>
          rw [hpass] at hkept
          cases hkept
      | placed _ hslot =>
          exact ⟨[_], hwalk.acquire hslot,
            (congrArg _ (SlotPool.pending_acquire? hslot)).trans hidle,
            .refl _, fun slot hheld => .inl hheld, fun _ => rfl,
            fun hdone => absurd (hexhausted.symm.trans hdone) (by decide)⟩
      | refused _ hslot =>
          exact ⟨[], hwalk, hidle, List.nil_sublist _,
            fun slot hheld => .inr hheld, fun hdone => absurd hdone (by simp),
            fun _ => (SlotPool.acquire?_eq_none_iff _).mp hslot⟩
  | vacated hvacates =>
      cases hvacates with
      | released _ hkept =>
          rw [hpass] at hkept
          cases hkept
      | idle hcell =>
          exact ⟨[], hwalk, hidle, List.nil_sublist _,
            fun slot hheld => .inr hheld,
            fun _ => (Cell.held_of_vacant hcell).symm,
            fun hdone => absurd (hexhausted.symm.trans hdone) (by decide)⟩
      | dropped _ _ =>
          exact ⟨[], hwalk, hidle, List.nil_sublist _,
            fun slot hheld => absurd hheld List.not_mem_nil, fun _ => rfl,
            fun hdone => absurd (hexhausted.symm.trans hdone) (by decide)⟩

/-- A frame that places every node anew accounts for what it has placed. -/
theorem rebuilds_settleAll (hpass : pass.compacting = true)
    (plan : List (Entry × Bool))
    (hwalk : walk.slots.Accounts others)
    (hidle : walk.slots.pending.toList = [])
    (hfull : walk.exhausted = true → walk.slots.free = []) :
    ∃ placed, Rebuilds (heldBy (plan.map Prod.fst))
      (heldBy (settleAll pass plan walk).1) placed others
      (settleAll pass plan walk).2 := by
  induction plan generalizing walk others with
  | nil =>
      exact ⟨[], hwalk, hidle, List.nil_sublist _, fun _ hheld => .inr hheld,
        fun _ => rfl, hfull⟩
  | cons head plan ih =>
      obtain ⟨entry, drawn⟩ := head
      cases hexhausted : walk.exhausted with
      | true =>
          rw [settleAll_of_exhausted _ hexhausted]
          exact ⟨[], hwalk, hidle, List.nil_sublist _,
            fun _ hheld => .inr hheld,
            fun hdone => absurd (hexhausted.symm.trans hdone) (by decide),
            hfull⟩
      | false =>
          obtain ⟨first, hfirst⟩ :=
            (Entry.settles_settle pass drawn entry walk).rebuilds hpass
              hexhausted hwalk hidle
          obtain ⟨rest, hrest⟩ := ih hfirst.accounts hfirst.idle hfirst.full
          rw [settleAll_cons hexhausted, List.map_cons, heldBy_cons,
            heldBy_cons]
          refine ⟨first ++ rest, ?_, hrest.idle,
            hfirst.sublist.append hrest.sublist, ?_, ?_, hrest.full⟩
          · rw [List.append_assoc]
            exact hrest.accounts.perm (List.perm_append_comm_assoc _ _ _)
          · intro slot hslot
            simp only [List.mem_append] at hslot ⊢
            rcases hslot with hslot | hslot
            · exact (hfirst.origin slot hslot).imp .inl .inl
            · exact (hrest.origin slot hslot).imp .inr .inr
          · intro hdone
            rw [hfirst.complete (running_of_done hdone), hrest.complete hdone]

/-! ## The size of the buffer -/

theorem Entry.Settles.capacity_eq {drawn : Bool} {entry : Entry}
    {settled : Entry × Walk} (h : entry.Settles pass walk drawn settled) :
    settled.2.slots.capacity = walk.slots.capacity := by
  cases h with
  | seated hseats =>
      cases hseats with
      | placed _ hslot => exact SlotPool.capacity_acquire? hslot
      | kept | rewritten | refused => rfl
  | vacated hvacates => cases hvacates <;> rfl

/-- No frame changes the number of slots. -/
theorem capacity_settleAll (plan : List (Entry × Bool)) (walk : Walk) :
    (settleAll pass plan walk).2.slots.capacity = walk.slots.capacity :=
  settleAll_induction
    (P := fun _ walk settled => settled.2.slots.capacity = walk.slots.capacity)
    (fun _ _ => rfl) (fun hsettles hrest => hrest.trans hsettles.capacity_eq)
    plan walk

end Starfield
