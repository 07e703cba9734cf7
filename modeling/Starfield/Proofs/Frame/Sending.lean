import Starfield.Proofs.Frame.Drawn
import Starfield.Proofs.Frame.Tenure

/-!
# What a frame sends

In a frame that keeps the buffer, every change of a slot is sent by one node:
by a node that is seated and did not show before what it shows now, or by a node
that gives its slot up.  No two nodes send a change of the same slot, so all
that is sent is found among the changes, and nothing else.
-/

namespace Starfield

variable {pass : Pass} {walk next last : Walk}

/-- What is sent by a node, given as it is before a frame and after it. -/
inductive Entry.Sends (pass : Pass) (before after : Entry) :
    Nat → Change → Prop
  | filled {tenancy : Tenancy} (hafter : after.cell.tenancy = some tenancy)
      (hnew : before.shown? ≠ some before.shows) :
      Sends pass before after tenancy.slot (.fill (pass.chunk after.cell))
  | emptied {tenancy : Tenancy} (hbefore : before.cell.tenancy = some tenancy)
      (hafter : after.cell.tenancy = none) :
      Sends pass before after tenancy.slot .vacate

namespace Entry

variable {before after : Entry} {tenancy : Tenancy}

theorem sends_iff_of_filled (hafter : after.cell.tenancy = some tenancy)
    (hnew : before.shown? ≠ some before.shows) (slot : Nat) (change : Change) :
    before.Sends pass after slot change ↔
      slot = tenancy.slot ∧ change = .fill (pass.chunk after.cell) := by
  constructor
  · rintro (⟨hafter', _⟩ | ⟨_, hafter'⟩)
    · rw [hafter] at hafter'
      cases hafter'
      exact ⟨rfl, rfl⟩
    · exact absurd (hafter.symm.trans hafter') (by simp)
  · rintro ⟨rfl, rfl⟩
    exact .filled hafter hnew

theorem sends_iff_of_emptied (hbefore : before.cell.tenancy = some tenancy)
    (hafter : after.cell.tenancy = none) (slot : Nat) (change : Change) :
    before.Sends pass after slot change ↔
      slot = tenancy.slot ∧ change = .vacate := by
  constructor
  · rintro (⟨hafter', _⟩ | ⟨hbefore', _⟩)
    · exact absurd (hafter.symm.trans hafter') (by simp)
    · rw [hbefore] at hbefore'
      cases hbefore'
      exact ⟨rfl, rfl⟩
  · rintro ⟨rfl, rfl⟩
    exact .emptied hbefore hafter

theorem sends_vacate_iff {slot : Nat} :
    before.Sends pass after slot .vacate ↔
      slot ∈ before.cell.held ∧ after.cell.tenancy = none := by
  rw [Cell.mem_held_iff]
  constructor
  · intro h
    cases h with
    | emptied hbefore hafter => exact ⟨⟨_, hbefore, rfl⟩, hafter⟩
  · rintro ⟨⟨tenancy, hbefore, rfl⟩, hafter⟩
    exact .emptied hbefore hafter

end Entry

/-- What comes of the changes and of the pending slots while nodes are settled,
each given as it is before and after. -/
structure Trades (pass : Pass) (nodes : List (Entry × Entry))
    (walk next : Walk) : Prop where
  changes : ∀ (slot : Nat) (change : Change),
    next.changes[slot]? = some change ↔
      walk.changes[slot]? = some change ∨
        ∃ node ∈ nodes, node.1.Sends pass node.2 slot change
  /-- A slot that is given up is pending. -/
  pending : ∀ slot, next.slots.isPending slot = true ↔
    walk.slots.isPending slot = true ∨
      ∃ node ∈ nodes, node.1.Sends pass node.2 slot .vacate
  /-- A node that had a slot and has one still has the same one. -/
  kept : ∀ node ∈ nodes, ∀ slot ∈ node.1.cell.held,
    ∀ slot' ∈ node.2.cell.held, slot' = slot

theorem Trades.nil (pass : Pass) (walk : Walk) : Trades pass [] walk walk where
  changes := by simp
  pending := by simp
  kept := by simp

theorem Trades.append {nodes nodes' : List (Entry × Entry)}
    (h : Trades pass nodes walk next) (hlast : Trades pass nodes' next last) :
    Trades pass (nodes ++ nodes') walk last where
  changes := by
    intro slot change
    rw [hlast.changes, h.changes, or_assoc]
    simp only [List.mem_append, or_and_right, exists_or]
  pending := by
    intro slot
    rw [hlast.pending, h.pending, or_assoc]
    simp only [List.mem_append, or_and_right, exists_or]
  kept := List.forall_mem_append.mpr ⟨h.kept, hlast.kept⟩

/-! ## One node -/

/-- A node that sends nothing changes nothing. -/
theorem trades_of_silent {before after : Entry}
    (hsilent : ∀ slot change, ¬before.Sends pass after slot change)
    (hkept : ∀ slot ∈ before.cell.held, ∀ slot' ∈ after.cell.held,
      slot' = slot) :
    Trades pass [(before, after)] walk walk where
  changes := by simp [hsilent]
  pending := by simp [hsilent]
  kept := by simpa using hkept

theorem getElem?_insert_eq_some_iff {changes : Std.TreeMap Nat Change}
    {slot other : Nat} {change new : Change} (hold : changes[other]? = none) :
    (changes.insert other new)[slot]? = some change ↔
      changes[slot]? = some change ∨ slot = other ∧ change = new := by
  rw [Std.TreeMap.getElem?_insert]
  by_cases hslot : other = slot
  · subst other
    simp [hold, eq_comm]
  · simp [hslot, Ne.symm hslot]

/-- A node that sends a change of a slot that no change was sent of before. -/
theorem trades_of_sends {before after : Entry} {slot : Nat} {change : Change}
    (hsends : ∀ slot' change', before.Sends pass after slot' change' ↔
      slot' = slot ∧ change' = change)
    (hold : walk.changes[slot]? = none)
    (hchanges : next.changes = walk.changes.insert slot change)
    (hpending : ∀ slot', next.slots.isPending slot' = true ↔
      walk.slots.isPending slot' = true ∨ slot' = slot ∧ .vacate = change)
    (hkept : ∀ slot ∈ before.cell.held, ∀ slot' ∈ after.cell.held,
      slot' = slot) :
    Trades pass [(before, after)] walk next where
  changes := by
    intro slot' change'
    rw [hchanges, getElem?_insert_eq_some_iff hold]
    simp [hsends]
  pending := by
    intro slot'
    rw [hpending]
    simp [hsends]
  kept := by simpa using hkept

section

variable {entry : Entry} (hpass : pass.compacting = false)
  (hclear : ∀ slot, slot ∈ entry.cell.held ∨ slot ∈ walk.slots.free →
    walk.changes[slot]? = none)

include hpass hclear

/-- A node that is seated has its slot filled, unless it shows already what it
is to show. -/
theorem Cell.Seats.trades {seated : Cell × Walk × Bool}
    (h : entry.cell.Seats pass entry.shows.1 entry.shows.2 walk seated)
    (hdone : seated.2.1.exhausted = false) :
    Trades pass [(entry, { entry with cell := seated.1 })] walk
      seated.2.1 := by
  cases h with
  | @kept tenancy hcell _ hsame =>
      have hshown : entry.shown? = some entry.shows := by
        simp [Entry.shown?, hcell, hsame]
      refine trades_of_silent ?_ ?_
      · rintro slot change (⟨_, hnew⟩ | ⟨_, hafter⟩)
        · exact hnew hshown
        · exact absurd (hcell.symm.trans hafter) (by simp)
      · simp [held_of_tenancy hcell]
  | @rewritten tenancy hcell _ hchanged =>
      have hnew : entry.shown? ≠ some entry.shows := by
        rw [Entry.shown?, hcell]
        exact fun hsame => hchanged (Prod.mk.inj (Option.some.inj hsame))
      have hheld : tenancy.slot ∈ entry.cell.held := Entry.mem_held hcell
      refine trades_of_sends (Entry.sends_iff_of_filled rfl hnew)
        (hclear _ (.inl hheld)) rfl (by simp [write]) ?_
      simp [write, held, hcell]
  | @placed slot slots hcell hslot =>
      have hvacant : entry.cell.tenancy = none :=
        hcell.resolve_right (by simp [hpass])
      have hnew : entry.shown? ≠ some entry.shows := by
        simp [Entry.shown?, hvacant]
      have hfree : slot ∈ walk.slots.free := by
        obtain ⟨free, hfree, _⟩ := SlotPool.acquire?_eq_some hslot
        simp [hfree]
      have hpending : slots.pending = walk.slots.pending :=
        SlotPool.pending_acquire? hslot
      refine trades_of_sends (Entry.sends_iff_of_filled rfl hnew)
        (hclear _ (.inr hfree)) rfl ?_ ?_
      · simp [write, SlotPool.isPending, hpending]
      · simp [held_of_vacant hvacant]
  | refused => cases hdone

/-- A node that is vacated has the slot emptied that it held. -/
theorem Cell.Vacates.trades {vacated : Cell × Walk}
    (h : entry.cell.Vacates pass walk vacated) :
    Trades pass [(entry, { entry with cell := vacated.1 })] walk
      vacated.2 := by
  cases h with
  | idle hcell =>
      refine trades_of_silent ?_ ?_
      · rintro slot change (⟨hafter, _⟩ | ⟨hbefore, _⟩)
        · exact absurd (hcell.symm.trans hafter) (by simp)
        · exact absurd (hcell.symm.trans hbefore) (by simp)
      · simp [held_of_vacant hcell]
  | @released tenancy hcell _ =>
      have hheld : tenancy.slot ∈ entry.cell.held := Entry.mem_held hcell
      refine trades_of_sends (Entry.sends_iff_of_emptied hcell rfl)
        (hclear _ (.inl hheld)) rfl (fun slot => ?_) ?_
      · rw [SlotPool.isPending_release, or_comm, and_iff_left rfl,
          @eq_comm _ slot]
      · simp [held]
  | dropped _ hcompacting =>
      rw [hpass] at hcompacting
      cases hcompacting

theorem Entry.Settles.trades {drawn : Bool} {settled : Entry × Walk}
    (h : entry.Settles pass walk drawn settled)
    (hdone : settled.2.exhausted = false) :
    Trades pass [(entry, settled.1)] walk settled.2 := by
  cases h with
  | seated hseats => exact hseats.trades hpass hclear hdone
  | vacated hvacates => exact hvacates.trades hpass hclear

end

/-! ## All nodes -/

/-- After a node has sent a change of a slot, the slot is neither free nor held
by any other node. -/
theorem Trades.apart_of_sends {before after : Entry} {others : List Nat}
    (h : Trades pass [(before, after)] walk next)
    (hnext : next.slots.Accounts (after.cell.held ++ others)) {slot : Nat}
    {change : Change} (hsends : before.Sends pass after slot change) :
    slot ∉ others ∧ slot ∉ next.slots.free := by
  cases hsends with
  | filled hafter =>
      have hheld := (Cell.held_of_tenancy hafter).symm ▸
        List.mem_singleton_self _
      refine ⟨fun hother => ?_, fun hfree => ?_⟩
      · exact (List.nodup_append.mp hnext.nodup_held).2.2 _ hheld _ hother rfl
      · exact hnext.not_mem_of_held (List.mem_append_left _ hheld)
          (List.mem_append_right _ hfree)
  | @emptied tenancy hbefore hafter =>
      have hpending : next.slots.isPending tenancy.slot = true :=
        (h.pending _).mpr (.inr
          ⟨_, List.mem_singleton_self _, .emptied hbefore hafter⟩)
      refine ⟨fun hother => ?_, hnext.not_mem_free_of_pending hpending⟩
      rw [hnext.isPending_eq_false (List.mem_append_right _ hother)] at hpending
      cases hpending

/-- All changes of a frame that keeps the buffer and does not run out of slots
are sent by its nodes. -/
theorem trades_settleAll (hpass : pass.compacting = false)
    (plan : List (Entry × Bool)) {others : List Nat}
    (hdone : (settleAll pass plan walk).2.exhausted = false)
    (hwalk : walk.slots.Accounts (heldBy (plan.map Prod.fst) ++ others))
    (hclear : ∀ slot, slot ∈ heldBy (plan.map Prod.fst) ∨
      slot ∈ walk.slots.free → walk.changes[slot]? = none) :
    Trades pass ((plan.map Prod.fst).zip (settleAll pass plan walk).1) walk
      (settleAll pass plan walk).2 := by
  induction plan generalizing walk others with
  | nil => exact .nil pass walk
  | cons head plan ih =>
      obtain ⟨entry, drawn⟩ := head
      have hrunning := running_of_done hdone
      rw [settleAll_cons hrunning] at hdone ⊢
      rw [List.map_cons, heldBy_cons, List.append_assoc] at hwalk
      have hsettles := Entry.settles_settle pass drawn entry walk
      have haccounts := hsettles.accounts hpass hwalk
      have hhere := hsettles.trades hpass (fun slot hslot =>
        hclear slot (hslot.imp_left (List.mem_append_left _)))
        (running_of_done hdone)
      refine hhere.append (ih hdone
        (haccounts.perm (List.perm_append_comm_assoc _ _ _)) ?_)
      -- What has been sent is not about slots that the rest of the plan is about.
      intro slot hslot
      rw [Option.eq_none_iff_forall_ne_some]
      intro change hchange
      rcases (hhere.changes slot change).mp hchange with hold | ⟨_, hnode, hsends⟩
      · rw [hclear slot (hslot.imp (List.mem_append_right _)
          (hsettles.free_subset ·))] at hold
        cases hold
      · cases List.mem_singleton.mp hnode
        obtain ⟨hothers, hfree⟩ := hhere.apart_of_sends haccounts hsends
        exact hslot.elim (fun hheld => hothers (List.mem_append_left _ hheld))
          hfree

end Starfield
