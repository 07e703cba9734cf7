import Starfield.Proofs.Clients

/-!
# How far up a buffer is used

The mark of a pool is meant to lie just above the highest slot in use.  When
pending slots are reclaimed it comes down past those of them that lie on top, one
after the other, but it stops at a slot that has been reclaimed before.  So it
lies just above the highest slot that is held or was free already below the mark.
It is never too low, and it is too high when slots on top have been given up in
several turns, the lower ones first.
-/

namespace Starfield

/-- One more than the highest of some slots, and zero if there are none. -/
def extent (slots : List Nat) : Nat :=
  slots.foldr (fun slot bound => max (slot + 1) bound) 0

theorem extent_le_iff {slots : List Nat} {bound : Nat} :
    extent slots ≤ bound ↔ ∀ slot ∈ slots, slot < bound := by
  induction slots with
  | nil => exact iff_of_true (Nat.zero_le bound) (List.forall_mem_nil _)
  | cons slot slots ih =>
      rw [List.forall_mem_cons, ← ih]
      exact Nat.max_le

theorem lt_extent {slots : List Nat} {slot : Nat} (hslot : slot ∈ slots) :
    slot < extent slots :=
  extent_le_iff.mp (Nat.le_refl _) slot hslot

/-- More slots do not reach higher just when they lie below the highest one. -/
theorem extent_append_eq_left_iff {slots others : List Nat} :
    extent (slots ++ others) = extent slots ↔
      ∀ slot ∈ others, slot < extent slots := by
  constructor
  · intro hextent slot hslot
    rw [← hextent]
    exact lt_extent (List.mem_append_right _ hslot)
  · intro hbelow
    apply Nat.le_antisymm
    · exact extent_le_iff.mpr
        (List.forall_mem_append.mpr ⟨fun _ => lt_extent, hbelow⟩)
    · exact extent_le_iff.mpr fun slot hslot =>
        lt_extent (List.mem_append_left _ hslot)

namespace SlotPool

/-- The mark stays where it is when no slot just below it is reclaimed. -/
theorem lowerMark_eq_self {slots : List Nat} {mark : Nat}
    (hslots : ∀ slot ∈ slots, slot + 1 ≠ mark) :
    lowerMark mark slots = mark := by
  induction slots with
  | nil => rfl
  | cons first slots ih =>
      rw [List.forall_mem_cons] at hslots
      rw [lowerMark, List.foldl_cons, if_neg hslots.1]
      exact ih hslots.2

/-- When the highest slots come first, the mark comes down as far as it can: the
slot just below it is not among them. -/
theorem succ_ne_lowerMark {slots : List Nat} {mark : Nat}
    (hslots : slots.Pairwise (· > ·)) :
    ∀ slot ∈ slots, slot + 1 ≠ lowerMark mark slots := by
  induction slots generalizing mark with
  | nil => exact List.forall_mem_nil _
  | cons first slots ih =>
      obtain ⟨hfirst, hrest⟩ := List.pairwise_cons.mp hslots
      rw [List.forall_mem_cons, lowerMark, List.foldl_cons]
      refine ⟨?_, ih hrest⟩
      split
      · have hle := Accounts.lowerMark_le slots first
        change first + 1 ≠ lowerMark first slots
        omega
      · -- The other slots are lower still, so they leave the mark alone or it is
        -- not above the first one.
        rename_i hmark
        change first + 1 ≠ lowerMark mark slots
        by_cases habove : first + 1 < mark
        · rw [lowerMark_eq_self]
          · exact hmark
          · intro slot hslot
            have hlower := hfirst slot hslot
            omega
        · have hle := Accounts.lowerMark_le slots mark
          omega

/-- The pending slots are reclaimed from the highest one down. -/
theorem pairwise_pending (pool : SlotPool) :
    pool.pending.toList.reverse.Pairwise (· > ·) := by
  rw [List.pairwise_reverse]
  exact pool.pairwise_lt_pending

end SlotPool

namespace Client

variable {client : Client}

/-- The slots below the mark that are free. -/
def gaps (client : Client) : List Nat :=
  client.pool.free.filter (· < client.pool.highWater)

theorem mem_gaps {slot : Nat} :
    slot ∈ client.gaps ↔
      slot ∈ client.pool.free ∧ slot < client.pool.highWater := by
  rw [gaps, List.mem_filter, decide_eq_true_iff]

/-- After the pending slots have been reclaimed, the mark lies just above the
highest slot that is held or was free below it before. -/
theorem Sound.highWater_reclaim (h : client.Sound) :
    (client.serve .reclaim).pool.highWater =
      extent (client.held ++ client.gaps) := by
  let low := SlotPool.lowerMark client.pool.highWater
    client.pool.pending.toList.reverse
  change low = _
  have hlow : low ≤ client.pool.highWater := SlotPool.Accounts.lowerMark_le _ _
  apply Nat.le_antisymm
  · -- The slot just below the mark is not pending, so it is held or free.
    cases hmark : low with
    | zero => exact Nat.zero_le _
    | succ slot =>
        apply lt_extent
        have hcapacity : slot < client.pool.capacity := by
          have hbounded := h.bounded
          omega
        rw [List.mem_append, mem_gaps]
        rcases (h.lt_capacity_iff slot).mp hcapacity with
          hheld | hpending | hfree
        · exact .inl hheld
        · have hslot := List.mem_reverse.mpr
            ((SlotPool.isPending_iff _ _).mp hpending)
          exact absurd hmark.symm
            (SlotPool.succ_ne_lowerMark client.pool.pairwise_pending slot hslot)
        · exact .inr ⟨hfree, by omega⟩
  · rw [extent_le_iff]
    intro slot hslot
    rw [List.mem_append, mem_gaps] at hslot
    rcases hslot with hheld | ⟨hfree, hmark⟩
    · apply SlotPool.Accounts.lt_lowerMark
      · exact h.marked slot (List.mem_append_left _ hheld)
      · intro hpending
        exact h.not_mem_of_held hheld
          (List.mem_append_left _ (List.mem_reverse.mp hpending))
    · apply SlotPool.Accounts.lt_lowerMark hmark
      intro hpending
      exact h.not_mem_free_of_pending ((SlotPool.isPending_iff _ _).mpr
        (List.mem_reverse.mp hpending)) hfree

/-- Right after a reclaim the mark is just above the highest slot that is held or
was free below the mark before it.  So it is what it is meant to be just when no
slot that had been free below the mark lies above all slots that are held. -/
theorem highWater_run (capacity : Nat) (requests : List Request)
    (hpermits : (ofCapacity capacity).Permits requests) :
    let client := (ofCapacity capacity).run requests
    let after := client.serve .reclaim
    after.pool.highWater = extent (client.held ++ client.gaps) ∧
      (after.pool.highWater = extent after.held ↔
        ∀ slot ∈ client.gaps, slot < extent client.held) := by
  intro client after
  have hsound : client.Sound := (sound_ofCapacity capacity).run hpermits
  have hmark := hsound.highWater_reclaim
  refine ⟨hmark, ?_⟩
  rw [hmark]
  exact extent_append_eq_left_iff

/-- After three slots have been handed out, the second one is reclaimed first and
the last one afterwards.  The mark comes down by one slot only. -/
theorem highWater_run_scattered :
    (ofCapacity 3).Permits scattered ∧
      ((ofCapacity 3).run scattered).gaps = [1] ∧
      (((ofCapacity 3).run scattered).serve .reclaim).pool.highWater =
        extent ([0] ++ [1]) := by
  have hpermits : (ofCapacity 3).Permits scattered := by decide +kernel
  have hheld : ((ofCapacity 3).run scattered).held = [0] := by decide +kernel
  have hgaps : ((ofCapacity 3).run scattered).gaps = [1] := by decide +kernel
  have hmark := (highWater_run 3 scattered hpermits).1
  rw [hheld, hgaps] at hmark
  exact ⟨hpermits, hgaps, hmark⟩

/-- So the mark may stay above all slots that are held, with no slot pending. -/
theorem not_forall_highWater_eq_extent :
    ¬ ∀ (capacity : Nat) (requests : List Request),
      (ofCapacity capacity).Permits requests →
        (((ofCapacity capacity).run requests).serve .reclaim).pool.highWater =
          extent (((ofCapacity capacity).run requests).serve .reclaim).held := by
  intro h
  have hmark := h 3 scattered (by decide +kernel)
  have hhigh : (((ofCapacity 3).run scattered).serve
      .reclaim).pool.highWater = 2 := by
    decide +kernel
  have hextent : extent (((ofCapacity 3).run scattered).serve
      .reclaim).held = 1 := by
    decide +kernel
  rw [hhigh, hextent] at hmark
  exact absurd hmark (by decide)

end Client

end Starfield
