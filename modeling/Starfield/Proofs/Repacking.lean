import Starfield.Proofs.Lag
import Starfield.Proofs.Record

/-!
# A compaction is complete

A frame that compacts the buffer comes to every node once: each node that is to
be drawn takes the lowest slot that is left, and every slot that was held before
is collected.  So the nodes hold the lowest slots afterwards, in pre-order, all
of these slots are filled, and those further up that were held before are
emptied.  It does not matter who held which slot before the frame, nor whether
the slots were in order.
-/

namespace Starfield

variable {pass : Pass} {walk : Walk}

/-! ## The slots that are placed -/

/-- The paths of the nodes that hold slots, with the slots. -/
theorem holdingsBy_eq_zip (entries : List Entry) :
    holdingsBy entries =
      ((entries.filter Entry.isResident).map Entry.path).zip
        (heldBy entries) := by
  induction entries with
  | nil => rfl
  | cons entry entries ih =>
      rw [holdingsBy_cons, ih, heldBy_cons, List.filter_cons]
      cases hentry : entry.cell.tenancy with
      | none =>
          simp [Entry.holding, Cell.held_of_vacant hentry,
            Entry.isResident_of_vacant hentry]
      | some tenancy =>
          simp [Entry.holding, Cell.held_of_tenancy hentry, Entry.isResident,
            hentry]

/-- While every node is placed anew, the slots are handed out in order. -/
theorem heldBy_settleAll {capacity used : Nat} (hpass : pass.compacting = true)
    (plan : List (Entry × Bool))
    (hdone : (settleAll pass plan walk).2.exhausted = false)
    (hslots : walk.slots = .packed capacity used) :
    heldBy (settleAll pass plan walk).1 =
      List.range' used (drawnCount plan) := by
  induction plan generalizing walk used with
  | nil => rfl
  | cons head plan ih =>
      obtain ⟨entry, drawn⟩ := head
      have hrunning := running_of_done hdone
      rw [settleAll_cons hrunning] at hdone ⊢
      have hdone' := running_of_done hdone
      have hhere := (Entry.settles_settle pass drawn entry walk).packs hpass
        hrunning hslots
      split at hhere
      · rw [hhere.1] at hdone'
        cases hdone'
      · obtain ⟨_, hslots', hheld⟩ := hhere
        rw [heldBy_cons, hheld, ih hdone hslots', drawnCount_cons,
          List.range'_append_1]

namespace Tree

variable {tree next : Tree} {oracle : Oracle} {detail : Detail}
  {time : Option Nat} {update : Update}

namespace Succeeds

variable (h : tree.Succeeds oracle detail update next)
  (hcompacted : update.compacted = true)

include h hcompacted

/-- The change of a slot that a node holds brings the chunk of the node. -/
theorem content_of_held (htree : tree.Valid) {entry : Entry} {slot : Nat}
    (hentry : entry ∈ next.listing) (hslot : slot ∈ entry.cell.held) :
    ∃ change, update.changes[slot]? = some change ∧
      change.content = some (next.chunkOf detail entry.cell) := by
  obtain ⟨tenancy, htenancy, rfl⟩ := Cell.mem_held_iff.mp hslot
  have hwritten := (h.tracks_of_compacted htree hcompacted).2 entry hentry
    tenancy htenancy
  rw [← h.chunkOf_eq] at hwritten
  rw [h.getElem?_of_compacted hcompacted]
  simp only [Buffer.after] at hwritten
  cases hchange : (tree.settled oracle detail).2.changes[tenancy.slot]? with
  | none =>
      rw [hchange] at hwritten
      cases hwritten
  | some change =>
      rw [hchange] at hwritten
      exact ⟨change, rfl, hwritten⟩

/-- A slot that no node holds afterwards is emptied just when a node held it
before. -/
theorem change_of_not_held (htree : tree.Valid) {slot : Nat}
    (hslot : slot ∉ next.held) :
    update.changes[slot]? =
      if slot ∈ tree.held then some .vacate else none := by
  have hcompacting : tree.frameStart.2 = true := h.compacted ▸ hcompacted
  rw [← (h.tracks_of_compacted htree hcompacted).1.filled, Buffer.after]
    at hslot
  rw [h.getElem?_of_compacted hcompacted]
  simp only [mem_stale_settled_iff hcompacting h.done]
  cases hchange : (tree.settled oracle detail).2.changes[slot]? with
  | none => exact Option.none_or
  | some change =>
      rw [hchange] at hslot
      have hfill := fill_of_settleAll hcompacting _ hchange
      rw [Std.TreeMap.getElem?_emptyc] at hfill
      obtain ⟨cell, rfl⟩ := hfill.resolve_left (by simp)
      exact absurd (htree.isSome_content_chunk cell) hslot

/-- All slots are filled that nodes hold after the frame. -/
theorem fills_iff_of_compacted (htree : tree.Valid) (slot : Nat) :
    update.fills slot = true ↔ slot ∈ next.held := by
  by_cases hslot : slot ∈ next.held
  · obtain ⟨entry, hentry, hheld⟩ := List.mem_flatMap.mp hslot
    obtain ⟨change, hchange, hcontent⟩ :=
      h.content_of_held hcompacted htree hentry hheld
    simp [Update.fills, hchange, hcontent, hslot]
  · rw [Update.fills, h.change_of_not_held hcompacted htree hslot]
    split <;> simp [Change.content, hslot]

/-- All other slots are emptied that nodes held before it. -/
theorem empties_iff_of_compacted (htree : tree.Valid) (slot : Nat) :
    update.empties slot = true ↔ slot ∈ tree.held ∧ slot ∉ next.held := by
  by_cases hslot : slot ∈ next.held
  · obtain ⟨entry, hentry, hheld⟩ := List.mem_flatMap.mp hslot
    obtain ⟨change, hchange, hcontent⟩ :=
      h.content_of_held hcompacted htree hentry hheld
    simp [Update.empties, hchange, hcontent, hslot]
  · rw [Update.empties, h.change_of_not_held hcompacted htree hslot]
    split <;> simp [Change.content, *]

/-- The nodes hold the lowest slots, in pre-order. -/
theorem held_eq_range :
    next.held = List.range' 0 next.residents.length := by
  have hstart := h.start_of_compacted hcompacted
  have hslots : tree.frameStart.1 = .packed tree.slots.capacity 0 := by
    rw [hstart, SlotPool.ofCapacity_eq_packed]
  have hheld := @heldBy_settleAll (tree.pass oracle detail)
    { slots := tree.frameStart.1 } _ _ (congrArg Prod.snd hstart)
    (tree.plan oracle).1 h.done hslots
  have hlength : next.residents.length = drawnCount (tree.plan oracle).1 := by
    rw [← length_held, h.held, settled, hheld, List.length_range']
  rw [hlength, h.held, settled, hheld]

theorem mem_held_iff_lt (slot : Nat) :
    slot ∈ next.held ↔ slot < next.residents.length := by
  rw [h.held_eq_range hcompacted, ← List.range_eq_range', List.mem_range]

theorem slots_eq_packed :
    next.slots = .packed tree.slots.capacity next.residents.length := by
  obtain ⟨used, hused, hslots⟩ := h.packed hcompacted
  have hinUse := (h.accounts_of_compacted hcompacted).inUse_eq
  rw [length_held, hslots, SlotPool.inUse, SlotPool.length_free_packed] at hinUse
  change tree.slots.capacity - (tree.slots.capacity - used) - 0 = _ at hinUse
  rw [hslots]
  congr 1
  omega

end Succeeds

/-! ## The buffer after a compaction -/

/-- What a frame that places every node anew makes of the buffer. -/
structure Repacks (tree next : Tree) (update : Update) : Prop where
  /-- The nodes that hold slots have the lowest ones, in pre-order. -/
  holdings : next.holdings = (next.residents.map Entry.path).zipIdx
  capacity : next.slots.capacity = tree.slots.capacity
  fits : next.residents.length ≤ tree.slots.capacity
  highWater : next.slots.highWater = next.residents.length
  inUse : next.slots.inUse = next.residents.length
  idle : next.slots.pendingCount = 0
  /-- All other slots are free, and the lowest of them is the next one. -/
  free : next.slots.free = List.range' next.residents.length
    (tree.slots.capacity - next.residents.length)
  filled : ∀ slot, update.fills slot = true ↔ slot < next.residents.length
  /-- The slots above that nodes held before are emptied. -/
  emptied : ∀ slot, update.empties slot = true ↔
    next.residents.length ≤ slot ∧ slot ∈ tree.held

theorem Succeeds.repacks (h : tree.Succeeds oracle detail update next)
    (htree : tree.Valid) (hcompacted : update.compacted = true) :
    tree.Repacks next update := by
  have hslots := h.slots_eq_packed hcompacted
  have haccounts := h.accounts_of_compacted hcompacted
  have hcapacity : next.slots.capacity = tree.slots.capacity := by
    rw [hslots]
    rfl
  refine {
    holdings := ?_
    capacity := hcapacity
    fits := hcapacity ▸ length_residents_le haccounts
    highWater := by rw [hslots]; rfl
    inUse := haccounts.inUse_eq.trans next.length_held
    idle := by rw [hslots]; rfl
    free := by rw [hslots]; rfl
    filled := fun slot => ?_
    emptied := fun slot => ?_ }
  · calc
      next.holdings
          = (next.residents.map Entry.path).zip next.held :=
        holdingsBy_eq_zip next.listing
      _ = (next.residents.map Entry.path).zipIdx := by
        rw [h.held_eq_range hcompacted, List.zipIdx_eq_zip_range',
          List.length_map]
  · rw [h.fills_iff_of_compacted hcompacted htree, h.mem_held_iff_lt hcompacted]
  · rw [h.empties_iff_of_compacted hcompacted htree,
      h.mem_held_iff_lt hcompacted, Nat.not_lt, and_comm]

/-- A frame that compacts the buffer leaves no gaps and no remains, in every
session. -/
theorem Reachable.repacking (htree : Reachable tree)
    (hframe : (tree.runFrame oracle detail time).outcome = .ok update)
    (hcompacted : update.compacted = true) :
    tree.Repacks (tree.runFrame oracle detail time).tree update :=
  (succeeds_runFrame htree.unnested hframe).repacks htree.valid hcompacted

/-- All three leaves hold slots. -/
def roomyFull : Tree := roomy.act (.runFrame openView.oracle .positions none)

/-- When the first leaf gets out of sight, the other two move to the front, and
the slot that the last one had is emptied. -/
theorem repacks_roomyFull :
    ∃ update,
      (roomyFull.runFrame (glimpse [1, 7]) .positions none).outcome =
        .ok update ∧
      update.compacted = true ∧
      roomyFull.Repacks
        (roomyFull.runFrame (glimpse [1, 7]) .positions none).tree update ∧
      roomyFull.holdings =
        [([.ofIndex 0], 0), ([.ofIndex 1], 1), ([.ofIndex 7], 2)] ∧
      (roomyFull.runFrame (glimpse [1, 7]) .positions none).tree.holdings =
        [([.ofIndex 1], 0), ([.ofIndex 7], 1)] ∧
      (List.range 4).filter update.empties = [2] := by
  have hok : (roomyFull.runFrame (glimpse [1, 7]) .positions
      none).outcome.isOk = true := by
    decide +kernel
  have hstart : roomyFull.frameStart.2 = true := by decide +kernel
  have hbefore : roomyFull.holdings =
      [([.ofIndex 0], 0), ([.ofIndex 1], 1), ([.ofIndex 7], 2)] := by
    decide +kernel
  have hafter : (roomyFull.runFrame (glimpse [1, 7]) .positions
      none).tree.holdings = [([.ofIndex 1], 0), ([.ofIndex 7], 1)] := by
    decide +kernel
  have hempties : (roomyFull.runFrame (glimpse [1, 7]) .positions
      none).outcome.toOption.map (fun update =>
        (List.range 4).filter update.empties) = some [2] := by
    decide +kernel
  have hreachable : Reachable roomyFull := reachable_roomy.act _
  obtain ⟨update, hframe⟩ := exists_ok_of_isOk hok
  have hcompacted : update.compacted = true :=
    (succeeds_runFrame (@Reachable.unnested roomyFull hreachable)
      hframe).compacted.trans hstart
  rw [hframe] at hempties
  exact ⟨update, hframe, hcompacted,
    @Reachable.repacking roomyFull _ _ _ _ hreachable hframe hcompacted, hbefore,
    hafter, Option.some.inj hempties⟩

end Tree

end Starfield
