import Starfield.Proofs.Frame.Tracking

/-!
# Slots stay with their nodes

In a frame that keeps the buffer, a node takes a slot only from the free ones
and gives it up only to the pending ones.  So a slot that was held when the
frame began is not handed to another node during it, and what the frame writes
is written by the nodes that hold the slots. -/

namespace Starfield

variable {pass : Pass} {walk : Walk}

/-- The slot that a node holds, with the path of the node. -/
def Entry.holding (entry : Entry) : List (List Octant × Nat) :=
  entry.cell.held.map (entry.path, ·)

def holdingsBy (entries : List Entry) : List (List Octant × Nat) :=
  entries.flatMap Entry.holding

theorem Entry.mem_holding {entry : Entry} {path : List Octant} {slot : Nat} :
    (path, slot) ∈ entry.holding ↔
      entry.path = path ∧ slot ∈ entry.cell.held := by
  simp only [holding, List.mem_map, Prod.mk.injEq]
  constructor
  · rintro ⟨_, hslot, hpath, rfl⟩
    exact ⟨hpath, hslot⟩
  · rintro ⟨hpath, hslot⟩
    exact ⟨slot, hslot, hpath, rfl⟩

theorem mem_holdingsBy {entries : List Entry} {path : List Octant}
    {slot : Nat} :
    (path, slot) ∈ holdingsBy entries ↔
      ∃ entry ∈ entries, entry.path = path ∧ slot ∈ entry.cell.held := by
  simp only [holdingsBy, List.mem_flatMap, Entry.mem_holding]

theorem map_snd_holdingsBy (entries : List Entry) :
    (holdingsBy entries).map Prod.snd = heldBy entries := by
  rw [holdingsBy, heldBy, List.map_flatMap]
  apply List.flatMap_congr
  intro entry _
  simp [Entry.holding, Function.comp_def]

theorem holdingsBy_cons (entry : Entry) (entries : List Entry) :
    holdingsBy (entry :: entries) = entry.holding ++ holdingsBy entries :=
  List.flatMap_cons

theorem holdingsBy_singleton (entry : Entry) :
    holdingsBy [entry] = entry.holding := List.flatMap_singleton _ _

theorem holdingsBy_append (entries entries' : List Entry) :
    holdingsBy (entries ++ entries') =
      holdingsBy entries ++ holdingsBy entries' := List.flatMap_append

/-! ## One node -/

namespace Entry.Settles

variable {drawn : Bool} {entry : Entry} {settled : Entry × Walk}

/-- Slots are only ever taken from the free ones. -/
theorem free_subset (h : entry.Settles pass walk drawn settled) :
    settled.2.slots.free ⊆ walk.slots.free := by
  cases h with
  | seated hseats =>
      cases hseats with
      | kept | rewritten | refused => exact List.Subset.refl _
      | placed _ hslot =>
          obtain ⟨free, hfree, rfl⟩ := SlotPool.acquire?_eq_some hslot
          rw [hfree]
          exact List.subset_cons_self _ _
  | vacated hvacates => cases hvacates <;> exact List.Subset.refl _

/-- Slots that are pending stay so until the next frame. -/
theorem pending_of_pending (h : entry.Settles pass walk drawn settled)
    {slot : Nat} (hslot : walk.slots.isPending slot = true) :
    settled.2.slots.isPending slot = true := by
  cases h with
  | seated hseats =>
      cases hseats with
      | kept | rewritten | refused => exact hslot
      | placed _ hacquire =>
          rw [SlotPool.isPending_iff] at hslot ⊢
          rwa [Cell.write, SlotPool.pending_acquire? hacquire]
  | vacated hvacates =>
      cases hvacates with
      | idle | dropped => exact hslot
      | released =>
          exact (SlotPool.isPending_release _ _ _).mpr (.inr hslot)

/-- A node holds what it held before or a slot that was free. -/
theorem holding_of_holding (h : entry.Settles pass walk drawn settled)
    {holding : List Octant × Nat} (hholding : holding ∈ settled.1.holding) :
    holding ∈ entry.holding ∨ holding.2 ∈ walk.slots.free := by
  obtain ⟨path, slot⟩ := holding
  rw [mem_holding] at hholding
  rw [mem_holding]
  cases h with
  | seated hseats =>
      cases hseats with
      | kept => exact .inl hholding
      | rewritten hcell _ =>
          rw [Cell.held_of_tenancy hcell]
          exact .inl hholding
      | @placed taken slots _ hacquire =>
          obtain ⟨free, hfree, _⟩ := SlotPool.acquire?_eq_some hacquire
          have hslot : slot ∈ [taken] := hholding.2
          rw [List.mem_singleton] at hslot
          rw [hfree, hslot]
          exact .inr List.mem_cons_self
      | refused => exact .inl hholding
  | vacated hvacates =>
      cases hvacates with
      | idle => exact .inl hholding
      | released => exact absurd hholding.2 List.not_mem_nil
      | dropped => exact absurd hholding.2 List.not_mem_nil

/-- A node keeps its slot, or the slot is pending. -/
theorem holding_or_pending (hpass : pass.compacting = false)
    (h : entry.Settles pass walk drawn settled) {holding : List Octant × Nat}
    (hholding : holding ∈ entry.holding) :
    holding ∈ settled.1.holding ∨
      settled.2.slots.isPending holding.2 = true := by
  obtain ⟨path, slot⟩ := holding
  rw [mem_holding] at hholding
  rw [mem_holding]
  cases h with
  | seated hseats =>
      cases hseats with
      | kept | refused => exact .inl hholding
      | rewritten hcell _ =>
          rw [Cell.held_of_tenancy hcell] at hholding
          exact .inl hholding
      | placed hcell _ =>
          have hvacant := hcell.resolve_right (by simp [hpass])
          rw [Cell.held_of_vacant hvacant] at hholding
          exact absurd hholding.2 List.not_mem_nil
  | vacated hvacates =>
      cases hvacates with
      | idle => exact .inl hholding
      | released hcell _ =>
          rw [Cell.held_of_tenancy hcell, List.mem_singleton] at hholding
          exact .inr ((SlotPool.isPending_release _ _ _).mpr
            (.inl hholding.2.symm))
      | dropped _ hcompacting =>
          rw [hpass] at hcompacting
          cases hcompacting

end Entry.Settles

/-- What a change says is so: the slot is pending, or a node of the list holds
it and the change brings the chunk of that node. -/
def Change.Sound (pass : Pass) (slots : SlotPool) (entries : List Entry)
    (slot : Nat) (change : Change) : Prop :=
  (change = .vacate ∧ slots.isPending slot = true) ∨
    ∃ entry ∈ entries, slot ∈ entry.cell.held ∧
      change = .fill (pass.chunk entry.cell)

theorem eq_of_getElem?_insert {changes : Std.TreeMap Nat Change}
    {slot other : Nat} {change new : Change}
    (h : (changes.insert other new)[slot]? = some change) :
    changes[slot]? = some change ∨ slot = other ∧ change = new := by
  rw [Std.TreeMap.getElem?_insert] at h
  split at h
  · rename_i hsame
    exact .inr ⟨(Std.LawfulEqCmp.eq_of_compare hsame).symm,
      (Option.some.inj h).symm⟩
  · exact .inl h

theorem Entry.Settles.change_sound {drawn : Bool} {entry : Entry}
    {settled : Entry × Walk} (hpass : pass.compacting = false)
    (h : entry.Settles pass walk drawn settled) {slot : Nat} {change : Change}
    (hchange : settled.2.changes[slot]? = some change) :
    walk.changes[slot]? = some change ∨
      change.Sound pass settled.2.slots [settled.1] slot := by
  cases h with
  | seated hseats =>
      cases hseats with
      | kept | refused => exact .inl hchange
      | rewritten | placed =>
          refine (eq_of_getElem?_insert hchange).imp_right ?_
          rintro ⟨rfl, rfl⟩
          exact .inr ⟨_, List.mem_singleton_self _,
            List.mem_singleton_self _, rfl⟩
  | vacated hvacates =>
      cases hvacates with
      | idle => exact .inl hchange
      | released =>
          refine (eq_of_getElem?_insert hchange).imp_right ?_
          rintro ⟨rfl, rfl⟩
          exact .inl ⟨rfl, (SlotPool.isPending_release _ _ _).mpr (.inl rfl)⟩
      | dropped _ hcompacting =>
          rw [hpass] at hcompacting
          cases hcompacting

/-- When a node is placed anew or loses its slot, nothing is emptied. -/
theorem Entry.Settles.fill_of_compacting {drawn : Bool} {entry : Entry}
    {settled : Entry × Walk} (hpass : pass.compacting = true)
    (h : entry.Settles pass walk drawn settled) {slot : Nat} {change : Change}
    (hchange : settled.2.changes[slot]? = some change) :
    walk.changes[slot]? = some change ∨
      ∃ cell, change = .fill (pass.chunk cell) := by
  cases h with
  | seated hseats =>
      cases hseats with
      | kept _ hkept _ | rewritten _ hkept =>
          rw [hpass] at hkept
          cases hkept
      | placed =>
          apply (eq_of_getElem?_insert hchange).imp_right
          rintro ⟨_, rfl⟩
          exact ⟨entry.cell, rfl⟩
      | refused => exact .inl hchange
  | vacated hvacates =>
      cases hvacates with
      | idle | dropped => exact .inl hchange
      | released _ hkept =>
          rw [hpass] at hkept
          cases hkept

/-- What is said of a slot stays so while other nodes are settled. -/
theorem Change.Sound.mono {change : Change} {slots slots' : SlotPool}
    {entries entries' : List Entry} {slot : Nat}
    (h : change.Sound pass slots entries slot)
    (hslots : slots.isPending slot = true → slots'.isPending slot = true)
    (hentries : entries ⊆ entries') :
    change.Sound pass slots' entries' slot := by
  rcases h with ⟨hchange, hslot⟩ | ⟨entry, hentry, hslot⟩
  · exact .inl ⟨hchange, hslots hslot⟩
  · exact .inr ⟨entry, hentries hentry, hslot⟩

/-! ## All nodes -/

/-- How slots go from hand to hand while nodes are settled in a buffer that is
kept. -/
structure Moves (pass : Pass) (before after : List Entry) (walk next : Walk) :
    Prop where
  free : next.slots.free ⊆ walk.slots.free
  pending : ∀ slot, walk.slots.isPending slot = true →
    next.slots.isPending slot = true
  /-- Nodes hold what they held before or slots that were free. -/
  taken : ∀ holding ∈ holdingsBy after,
    holding ∈ holdingsBy before ∨ holding.2 ∈ walk.slots.free
  /-- Nodes keep their slots, or the slots are pending. -/
  kept : ∀ holding ∈ holdingsBy before,
    holding ∈ holdingsBy after ∨ next.slots.isPending holding.2 = true
  changes : ∀ (slot : Nat) (change : Change),
    next.changes[slot]? = some change →
    walk.changes[slot]? = some change ∨
      change.Sound pass next.slots after slot

theorem Moves.refl (pass : Pass) (entries : List Entry) (walk : Walk) :
    Moves pass entries entries walk walk where
  free := List.Subset.refl _
  pending := fun _ hslot => hslot
  taken := fun _ hholding => .inl hholding
  kept := fun _ hholding => .inl hholding
  changes := fun _ _ hchange => .inl hchange

theorem Moves.append {before after before' after' : List Entry}
    {next last : Walk} (h : Moves pass before after walk next)
    (h' : Moves pass before' after' next last) :
    Moves pass (before ++ before') (after ++ after') walk last where
  free := List.Subset.trans h'.free h.free
  pending := fun slot hslot => h'.pending slot (h.pending slot hslot)
  taken := by
    intro holding hholding
    rw [holdingsBy_append, List.mem_append] at hholding ⊢
    rcases hholding with hhere | hrest
    · exact (h.taken holding hhere).imp_left .inl
    · exact (h'.taken holding hrest).imp .inr (h.free ·)
  kept := by
    intro holding hholding
    rw [holdingsBy_append, List.mem_append] at hholding ⊢
    rcases hholding with hhere | hrest
    · exact (h.kept holding hhere).imp .inl (h'.pending holding.2)
    · exact (h'.kept holding hrest).imp_left .inr
  changes := by
    intro slot change hchange
    rcases h'.changes slot change hchange with hbefore | hsound
    · refine (h.changes slot change hbefore).imp_right fun hsound => ?_
      exact hsound.mono (h'.pending slot) (List.subset_append_left _ _)
    · exact .inr (hsound.mono id (List.subset_append_right _ _))

theorem Entry.Settles.moves {drawn : Bool} {entry : Entry}
    {settled : Entry × Walk} (hpass : pass.compacting = false)
    (h : entry.Settles pass walk drawn settled) :
    Moves pass [entry] [settled.1] walk settled.2 where
  free := h.free_subset
  pending := fun _ => h.pending_of_pending
  taken := by
    simp only [holdingsBy_singleton]
    exact fun _ => h.holding_of_holding
  kept := by
    simp only [holdingsBy_singleton]
    exact fun _ => h.holding_or_pending hpass
  changes := fun _ _ => h.change_sound hpass

theorem moves_settleAll (hpass : pass.compacting = false)
    (plan : List (Entry × Bool)) (walk : Walk) :
    Moves pass (plan.map Prod.fst) (settleAll pass plan walk).1 walk
      (settleAll pass plan walk).2 :=
  settleAll_induction
    (P := fun plan walk settled =>
      Moves pass (plan.map Prod.fst) settled.1 walk settled.2)
    (fun plan walk => .refl pass (plan.map Prod.fst) walk)
    (fun hsettles hrest => (hsettles.moves hpass).append hrest) plan walk

theorem fill_of_settleAll (hpass : pass.compacting = true)
    (plan : List (Entry × Bool)) {slot : Nat} {change : Change}
    (hchange : (settleAll pass plan walk).2.changes[slot]? = some change) :
    walk.changes[slot]? = some change ∨
      ∃ cell, change = .fill (pass.chunk cell) := by
  revert hchange
  apply settleAll_induction (P := fun _ walk settled =>
    settled.2.changes[slot]? = some change →
      walk.changes[slot]? = some change ∨
        ∃ cell, change = .fill (pass.chunk cell))
  case stopped => exact fun _ _ => .inl
  case step =>
    intro entry drawn plan walk here rest hsettles hrest hchange
    rcases hrest hchange with hhere | hfill
    · exact hsettles.fill_of_compacting hpass hhere
    · exact .inr hfill

end Starfield
