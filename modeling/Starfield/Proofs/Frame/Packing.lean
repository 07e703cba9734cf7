import Starfield.Proofs.Frame.Outcome

/-!
# A compacting frame packs the slots in use

A frame that places every node anew starts with all slots free, the lowest
first, and takes slots without giving any back.  The slots in use are then the
lowest ones, as many as there are nodes to be drawn, and the frame fails just
when this is more than the buffer has.
-/

namespace Starfield

namespace SlotPool

/-- A pool whose lowest slots are in use, as many as are given, and whose other
slots are free. -/
def packed (capacity used : Nat) : SlotPool :=
  { free := List.range' used (capacity - used), capacity, highWater := used }

theorem ofCapacity_eq_packed (capacity : Nat) :
    ofCapacity capacity = packed capacity 0 := by
  rw [ofCapacity, packed, List.range_eq_range', Nat.sub_zero]

theorem acquire?_packed_of_lt {capacity used : Nat} (h : used < capacity) :
    (packed capacity used).acquire? =
      some (used, packed capacity (used + 1)) := by
  have hfree : List.range' used (capacity - used) =
      used :: List.range' (used + 1) (capacity - (used + 1)) := by
    rw [← List.range'_succ]
    congr 1
    omega
  simp only [packed, acquire?, hfree]
  rw [Nat.max_eq_right (Nat.le_succ used)]

theorem acquire?_packed_eq_none_iff {capacity used : Nat} :
    (packed capacity used).acquire? = none ↔ capacity ≤ used := by
  rw [acquire?_eq_none_iff, packed, List.range'_eq_nil_iff,
    Nat.sub_eq_zero_iff_le]

/-- Nothing is pending in a packed pool. -/
@[simp]
theorem reclaim_packed (capacity used : Nat) :
    (packed capacity used).reclaim = packed capacity used := rfl

/-- What was pending is reclaimed once. -/
@[simp]
theorem reclaim_reclaim (pool : SlotPool) :
    pool.reclaim.reclaim = pool.reclaim := rfl

theorem length_free_packed (capacity used : Nat) :
    (packed capacity used).freeCount = capacity - used :=
  List.length_range'

end SlotPool

variable {pass : Pass} {walk : Walk}

/-- The number of nodes of a plan that are to be drawn. -/
def drawnCount (plan : List (Entry × Bool)) : Nat := plan.countP Prod.snd

theorem drawnCount_cons (entry : Entry) (drawn : Bool)
    (plan : List (Entry × Bool)) :
    drawnCount ((entry, drawn) :: plan) = drawn.toNat + drawnCount plan := by
  rw [drawnCount, List.countP_cons, Nat.add_comm]
  cases drawn <;> rfl

/-- One node takes the lowest free slot when it is to be drawn, and none
otherwise. -/
theorem Entry.Settles.packs {capacity used : Nat} {drawn : Bool} {entry : Entry}
    {settled : Entry × Walk} (hpass : pass.compacting = true)
    (h : entry.Settles pass walk drawn settled)
    (hrunning : walk.exhausted = false)
    (hslots : walk.slots = .packed capacity used) :
    if drawn = true ∧ capacity ≤ used then
      settled.2.exhausted = true ∧ settled.2.slots = .packed capacity used
    else
      settled.2.exhausted = false ∧
        settled.2.slots = .packed capacity (used + drawn.toNat) ∧
        settled.1.cell.held = List.range' used drawn.toNat := by
  cases h with
  | seated hseats =>
      cases hseats with
      | kept _ hkept _ | rewritten _ hkept =>
          rw [hpass] at hkept
          cases hkept
      | @placed slot slots _ hslot =>
          rw [hslots] at hslot
          have hroom : used < capacity := by
            by_contra hfull
            rw [SlotPool.acquire?_packed_eq_none_iff.mpr (by omega)] at hslot
            cases hslot
          rw [SlotPool.acquire?_packed_of_lt hroom] at hslot
          cases hslot
          rw [if_neg (by omega)]
          exact ⟨hrunning, rfl, rfl⟩
      | refused _ hslot =>
          rw [hslots, SlotPool.acquire?_packed_eq_none_iff] at hslot
          rw [if_pos ⟨rfl, hslot⟩]
          exact ⟨rfl, hslots⟩
  | vacated hvacates =>
      rw [if_neg (by simp)]
      have hheld := Cell.held_of_vacant hvacates.tenancy_eq
      cases hvacates with
      | idle _ | dropped _ _ => exact ⟨hrunning, hslots, hheld⟩
      | released _ hkept =>
          rw [hpass] at hkept
          cases hkept

/-- While every node is placed anew, the slots in use are the lowest ones.  They
run out just when there are more nodes to be drawn. -/
theorem packs_settleAll {capacity used : Nat} (hpass : pass.compacting = true)
    (plan : List (Entry × Bool)) (hrunning : walk.exhausted = false)
    (hslots : walk.slots = .packed capacity used) (hused : used ≤ capacity) :
    (settleAll pass plan walk).2.slots =
        .packed capacity (min capacity (used + drawnCount plan)) ∧
      ((settleAll pass plan walk).2.exhausted = false ↔
        used + drawnCount plan ≤ capacity) := by
  induction plan generalizing walk used with
  | nil =>
      refine ⟨?_, iff_of_true hrunning hused⟩
      rw [settleAll, hslots]
      congr 1
      exact (Nat.min_eq_right hused).symm
  | cons head plan ih =>
      obtain ⟨entry, drawn⟩ := head
      have hhere := (Entry.settles_settle pass drawn entry walk).packs hpass
        hrunning hslots
      rw [settleAll_cons hrunning, drawnCount_cons]
      split at hhere
      · -- There is no slot left: the rest of the plan is not looked at.
        rename_i hfull
        obtain ⟨rfl, hfull⟩ := hfull
        rw [settleAll_of_exhausted _ hhere.1]
        refine ⟨hhere.2.trans ?_, iff_of_false (by simp [hhere.1]) ?_⟩
        · congr 1
          omega
        · change ¬used + (1 + _) ≤ capacity
          omega
      · rename_i hroom
        have hused' : used + drawn.toNat ≤ capacity := by
          cases drawn with
          | false => exact hused
          | true =>
              change used + 1 ≤ capacity
              by_contra hfull
              exact hroom ⟨rfl, by omega⟩
        rw [← Nat.add_assoc]
        exact ih hhere.1 hhere.2.1 hused'

namespace Tree

variable {tree : Tree}

/-- A frame that places every node anew leaves a packed pool behind, and it
succeeds just when there are enough slots. -/
theorem packs_frame (htree : tree.Unnested)
    (hstart : tree.frameStart = (.ofCapacity tree.slots.capacity, true))
    (oracle : Oracle) (detail : Detail) :
    (tree.frame oracle detail).tree.slots =
        .packed tree.slots.capacity
          (min tree.slots.capacity (drawnCount (tree.plan oracle).1)) ∧
      ((tree.settled oracle detail).2.exhausted = false ↔
        drawnCount (tree.plan oracle).1 ≤ tree.slots.capacity) := by
  have hslots : tree.frameStart.1 = .packed tree.slots.capacity 0 := by
    rw [hstart, SlotPool.ofCapacity_eq_packed]
  have hpacks := @packs_settleAll (tree.pass oracle detail)
    { slots := tree.frameStart.1 } _ _ (congrArg Prod.snd hstart)
    (tree.plan oracle).1 rfl hslots (Nat.zero_le _)
  rw [Nat.zero_add] at hpacks
  rw [slots_frame oracle detail htree]
  exact hpacks

end Tree

end Starfield
