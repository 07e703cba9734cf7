import Mathlib.Data.List.Basic
import Starfield.SlotPool

/-!
# Keeping account of slots

A pool knows the free and the pending slots but not who holds the others.  It
accounts for a list of held slots when held, pending and free slots together
are all slots of the buffer, each of them once.  Every operation of the pool
keeps the account for the slots held after it, so a slot is never lost and never
handed out twice.
-/

namespace Starfield

namespace SlotPool

theorem acquire?_eq_some {pool next : SlotPool} {slot : Nat}
    (h : pool.acquire? = some (slot, next)) :
    ∃ free, pool.free = slot :: free ∧
      next = { pool with
        free, highWater := max pool.highWater (slot + 1) } := by
  rw [acquire?] at h
  split at h
  · cases h
  · cases h
    exact ⟨_, ‹_›, rfl⟩

theorem pending_acquire? {pool next : SlotPool} {slot : Nat}
    (h : pool.acquire? = some (slot, next)) : next.pending = pool.pending := by
  obtain ⟨free, _, rfl⟩ := acquire?_eq_some h
  rfl

theorem capacity_acquire? {pool next : SlotPool} {slot : Nat}
    (h : pool.acquire? = some (slot, next)) :
    next.capacity = pool.capacity := by
  obtain ⟨free, _, rfl⟩ := acquire?_eq_some h
  rfl

theorem isPending_iff (pool : SlotPool) (slot : Nat) :
    pool.isPending slot = true ↔ slot ∈ pool.pending.toList :=
  Std.TreeSet.contains_iff_mem.trans Std.TreeSet.mem_toList.symm

/-- The pending slots are kept in ascending order. -/
theorem pairwise_lt_pending (pool : SlotPool) :
    pool.pending.toList.Pairwise (· < ·) :=
  Std.TreeSet.ordered_toList.imp Nat.compare_eq_lt.mp

/-- A slot that is given up is pending, and the others stay as they are. -/
theorem isPending_release (pool : SlotPool) (slot other : Nat) :
    (pool.release slot).isPending other = true ↔
      slot = other ∨ pool.isPending other = true := by
  change (pool.pending.insert slot).contains other = true ↔ _
  rw [Std.TreeSet.contains_insert, Bool.or_eq_true, beq_iff_eq,
    Nat.compare_eq_eq]
  rfl

/-- The pool accounts for exactly these slots as being held. -/
structure Accounts (held : List Nat) (pool : SlotPool) : Prop where
  /-- Every slot is held, pending or free, and only one of these. -/
  partition :
    (held ++ (pool.pending.toList ++ pool.free)).Perm
      (List.range pool.capacity)
  /-- Slots in use lie below the mark. -/
  marked : ∀ slot ∈ held ++ pool.pending.toList, slot < pool.highWater
  bounded : pool.highWater ≤ pool.capacity
  /-- No slot was ever given up that was not held. -/
  sound : pool.misused = false

namespace Accounts

variable {held : List Nat} {pool : SlotPool} {slot : Nat}

theorem nodup (h : pool.Accounts held) :
    (held ++ (pool.pending.toList ++ pool.free)).Nodup :=
  h.partition.nodup_iff.mpr List.nodup_range

theorem nodup_held (h : pool.Accounts held) : held.Nodup :=
  (List.nodup_append.mp h.nodup).1

theorem nodup_free (h : pool.Accounts held) : pool.free.Nodup :=
  (List.nodup_append.mp (List.nodup_append.mp h.nodup).2.1).2.1

theorem not_mem_of_held (h : pool.Accounts held) (hslot : slot ∈ held) :
    slot ∉ pool.pending.toList ++ pool.free := fun hother =>
  (List.nodup_append.mp h.nodup).2.2 slot hslot slot hother rfl

theorem lt_capacity (h : pool.Accounts held) (hslot : slot ∈ held) :
    slot < pool.capacity :=
  List.mem_range.mp (h.partition.subset (List.mem_append_left _ hslot))

theorem isPending_eq_false (h : pool.Accounts held) (hslot : slot ∈ held) :
    pool.isPending slot = false := by
  apply eq_false_of_ne_true
  rw [isPending_iff]
  exact fun hpending =>
    h.not_mem_of_held hslot (List.mem_append_left _ hpending)

theorem not_mem_free_of_pending (h : pool.Accounts held)
    (hslot : pool.isPending slot) : slot ∉ pool.free := fun hfree =>
  (List.nodup_append.mp (List.nodup_append.mp h.nodup).2.1).2.2 slot
    ((isPending_iff pool slot).mp hslot) slot hfree rfl

/-- Every slot of the buffer has an owner. -/
theorem lt_capacity_iff (h : pool.Accounts held) (slot : Nat) :
    slot < pool.capacity ↔
      slot ∈ held ∨ pool.isPending slot ∨ slot ∈ pool.free := by
  rw [← List.mem_range, ← h.partition.mem_iff, List.mem_append,
    List.mem_append, isPending_iff]

theorem length_held_add (h : pool.Accounts held) :
    held.length + (pool.pendingCount + pool.freeCount) = pool.capacity := by
  have hlength := h.partition.length_eq
  rwa [List.length_append, List.length_append, List.length_range,
    Std.TreeSet.length_toList] at hlength

theorem freeCount_add_le (h : pool.Accounts held) :
    pool.freeCount + pool.pendingCount ≤ pool.capacity := by
  have hcount := h.length_held_add
  omega

/-- The slots in use are counted by what is neither free nor pending. -/
theorem inUse_eq (h : pool.Accounts held) : pool.inUse = held.length := by
  have hcount := h.length_held_add
  rw [inUse]
  omega

/-- The order of the held slots does not matter. -/
theorem perm {other : List Nat} (h : pool.Accounts held)
    (hother : other.Perm held) : pool.Accounts other where
  partition := (hother.append_right _).trans h.partition
  marked := fun slot hslot =>
    h.marked slot ((hother.append_right _).subset hslot)
  bounded := h.bounded
  sound := h.sound

/-! ## Operations -/

theorem ofCapacity (capacity : Nat) :
    (SlotPool.ofCapacity capacity).Accounts [] where
  partition := .refl _
  marked := fun _ hslot => absurd hslot List.not_mem_nil
  bounded := Nat.zero_le _
  sound := rfl

theorem acquire {next : SlotPool} (h : pool.Accounts held)
    (hslot : pool.acquire? = some (slot, next)) :
    next.Accounts (slot :: held) := by
  obtain ⟨free, hfree, rfl⟩ := acquire?_eq_some hslot
  have hpartition := h.partition
  rw [hfree] at hpartition
  have hlt : slot < pool.capacity :=
    List.mem_range.mp (hpartition.subset (by simp))
  refine ⟨?_, ?_, Nat.max_le.mpr ⟨h.bounded, hlt⟩, h.sound⟩
  · calc
      (slot :: held ++ (pool.pending.toList ++ free)).Perm
          (held ++ (slot :: (pool.pending.toList ++ free))) :=
        List.perm_middle.symm
      List.Perm _ (held ++ (pool.pending.toList ++ slot :: free)) :=
        List.perm_middle.symm.append_left held
      List.Perm _ (List.range pool.capacity) := hpartition
  · intro other hother
    rcases List.mem_cons.mp hother with rfl | hother
    · exact Nat.lt_of_lt_of_le (Nat.lt_succ_self _) (Nat.le_max_right _ _)
    · exact Nat.lt_of_lt_of_le (h.marked other hother) (Nat.le_max_left _ _)

theorem release (h : pool.Accounts (slot :: held)) :
    (pool.release slot).Accounts held := by
  have hslot : slot ∈ slot :: held := List.mem_cons_self
  have hpending : pool.pending.contains slot = false :=
    h.isPending_eq_false hslot
  have hinsert : (pool.pending.insert slot).toList.Perm
      (slot :: pool.pending.toList) := by
    have hperm := @Std.TreeSet.toList_insert_perm Nat _ pool.pending _ _ _ slot
    rwa [if_neg (by simp [Std.TreeSet.mem_iff_contains, hpending])] at hperm
  refine ⟨?_, ?_, h.bounded, ?_⟩
  · calc
      (held ++ ((pool.pending.insert slot).toList ++ pool.free)).Perm
          (held ++ (slot :: pool.pending.toList ++ pool.free)) :=
        (hinsert.append_right _).append_left held
      List.Perm _ (slot :: held ++ (pool.pending.toList ++ pool.free)) :=
        List.perm_middle
      List.Perm _ (List.range pool.capacity) := h.partition
  · intro other hother
    apply h.marked other
    rw [List.mem_append] at hother ⊢
    rcases hother with hheld | hother
    · exact .inl (List.mem_cons_of_mem _ hheld)
    · rcases List.mem_cons.mp (hinsert.subset hother) with rfl | hother
      · exact .inl hslot
      · exact .inr hother
  · have hlt := h.lt_capacity hslot
    simp only [SlotPool.release, h.sound, hpending, Bool.false_or, Bool.or_false,
      decide_eq_false_iff_not]
    omega

/-! ## Lowering the mark -/

theorem lowerMark_le (slots : List Nat) (mark : Nat) :
    lowerMark mark slots ≤ mark := by
  induction slots generalizing mark with
  | nil => exact Nat.le_refl mark
  | cons first slots ih =>
      rw [lowerMark, List.foldl_cons]
      split
      · exact Nat.le_trans (ih first) (by omega)
      · exact ih mark

/-- The mark stays above every slot that is not reclaimed. -/
theorem lt_lowerMark {slots : List Nat} {mark : Nat} (hslot : slot < mark)
    (hslots : slot ∉ slots) : slot < lowerMark mark slots := by
  induction slots generalizing mark with
  | nil => exact hslot
  | cons first slots ih =>
      rw [List.mem_cons, not_or] at hslots
      rw [lowerMark, List.foldl_cons]
      split
      · exact ih (by omega) hslots.2
      · exact ih hslot hslots.2

theorem reclaim (h : pool.Accounts held) : pool.reclaim.Accounts held where
  partition := h.partition
  marked := by
    intro slot hslot
    rw [show pool.reclaim.pending.toList = [] from rfl, List.append_nil]
      at hslot
    apply lt_lowerMark (h.marked slot (List.mem_append_left _ hslot))
    rw [List.mem_reverse]
    intro hpending
    exact h.not_mem_of_held hslot (List.mem_append_left _ hpending)
  bounded := Nat.le_trans (lowerMark_le _ _) h.bounded
  sound := h.sound

end Accounts

end SlotPool

end Starfield
