import Starfield.Proofs.Frame.Accounting
import Starfield.Proofs.Occupancy

/-!
# Who owns the slots

In every session each slot of the buffer has one owner: a node, the pending
slots or the free ones.  The exception is the time between a frame that failed
to place every node anew and the next change of the buffer's size.  The nodes
which that frame had not come to still name the slots they held before, and those
may have been handed out again.  Even then no slot is lost.
-/

namespace Starfield

def Entry.isResident (entry : Entry) : Bool := entry.cell.tenancy.isSome

theorem Entry.isResident_of_vacant {entry : Entry}
    (h : entry.cell.tenancy = none) : entry.isResident = false := by
  rw [isResident, h]
  rfl

theorem Entry.isResident_iff {entry : Entry} :
    entry.isResident = true ↔ ∃ slot, slot ∈ entry.cell.held := by
  cases hcell : entry.cell.tenancy with
  | none => simp [isResident, Cell.held, hcell]
  | some tenancy => simp [isResident, Cell.held, hcell]

namespace Tree

def residents (tree : Tree) : List Entry :=
  tree.listing.filter Entry.isResident

theorem length_held (tree : Tree) :
    tree.held.length = tree.residents.length := by
  rw [held, residents]
  induction tree.listing with
  | nil => rfl
  | cons entry entries ih =>
      rw [List.flatMap_cons, List.length_append, ih, List.filter_cons]
      cases hentry : entry.cell.tenancy with
      | none => simp [Entry.isResident, Cell.held, hentry]
      | some tenancy =>
          simp [Entry.isResident, Cell.held, hentry, Nat.add_comm]

/-! ## The account of a tree -/

/-- The pool of a tree accounts for the slots that its nodes hold.  While the
tree is stalled, it accounts for a part of them, which is the whole buffer. -/
inductive Balanced (tree : Tree) : Bool → Prop
  | settled (accounts : tree.slots.Accounts tree.held) : Balanced tree false
  | stalled {placed : List Nat} (accounts : tree.slots.Accounts placed)
      (sublist : placed.Sublist tree.held)
      (idle : tree.slots.pending.toList = []) (full : tree.slots.free = [])
      (bounded : ∀ slot ∈ tree.held, slot < tree.slots.capacity) :
      Balanced tree true

variable {tree : Tree}

/-- Being balanced is about the slots held and the pool only. -/
theorem Balanced.congr {other : Tree} {stalled : Bool}
    (h : tree.Balanced stalled) (hheld : other.held = tree.held)
    (hslots : other.slots = tree.slots) : other.Balanced stalled := by
  cases h with
  | settled accounts => exact .settled (by rwa [hheld, hslots])
  | stalled accounts sublist idle full bounded =>
      exact .stalled (by rwa [hslots]) (by rwa [hheld]) (by rwa [hslots])
        (by rwa [hslots]) (by rwa [hheld, hslots])

theorem balanced_of_vacant (htree : tree.Vacant)
    (hslots : tree.slots.Accounts []) : tree.Balanced false :=
  .settled (by rwa [htree.held_eq])

theorem balanced_fresh (h : Fresh tree) : tree.Balanced false := by
  obtain ⟨_, hslots, hvacant⟩ := h.start
  apply balanced_of_vacant hvacant
  rw [hslots]
  exact SlotPool.Accounts.ofCapacity 0

theorem Balanced.gains {next : Tree} {star : Star} {stalled : Bool}
    (h : tree.Balanced stalled) (hgains : tree.Gains star next) :
    next.Balanced stalled :=
  h.congr hgains.held_eq hgains.slots

/-- A frame begins with the pool as it is after reclaiming, or with every slot
free. -/
theorem frameStart_cases (tree : Tree) :
    tree.frameStart = (tree.slots.reclaim, false) ∨
      tree.frameStart = (.ofCapacity tree.slots.capacity, true) := by
  simp only [frameStart]
  split
  · exact .inr rfl
  · exact .inl rfl

theorem held_frame (htree : tree.Unnested) (oracle : Oracle)
    (detail : Detail) :
    (tree.frame oracle detail).tree.held =
      heldBy (tree.settled oracle detail).1 := by
  rw [Tree.held, heldBy, listing_frame oracle detail htree]

/-- The nodes of a plan hold the slots that the tree holds. -/
theorem heldBy_plan (tree : Tree) (oracle : Oracle) :
    heldBy ((tree.plan oracle).1.map Prod.fst) = tree.held := by
  rw [map_fst_plan]
  rfl

/-- A frame that keeps the buffer leaves a settled tree behind, whether or not
it has run out of slots. -/
theorem balanced_frame_of_kept (htree : tree.Unnested)
    (haccounts : tree.slots.Accounts tree.held)
    (hstart : tree.frameStart = (tree.slots.reclaim, false))
    (oracle : Oracle) (detail : Detail) :
    (tree.frame oracle detail).tree.Balanced false := by
  have hbegun : tree.frameStart.1.Accounts
      (heldBy ((tree.plan oracle).1.map Prod.fst) ++ []) := by
    rw [List.append_nil, heldBy_plan, hstart]
    exact haccounts.reclaim
  have hsettled := @accounts_settleAll (tree.pass oracle detail) []
    { slots := tree.frameStart.1 } (congrArg Prod.snd hstart)
    (tree.plan oracle).1 hbegun
  rw [List.append_nil] at hsettled
  apply Balanced.settled
  rw [held_frame htree, slots_frame oracle detail htree]
  exact hsettled

/-- A frame that places every node anew leaves a tree behind that is stalled
when the slots have run out. -/
theorem balanced_frame_of_compacted (htree : tree.Unnested)
    (haccounts : tree.slots.Accounts tree.held)
    (hstart : tree.frameStart = (.ofCapacity tree.slots.capacity, true))
    (oracle : Oracle) (detail : Detail) :
    (tree.frame oracle detail).tree.Balanced
      (tree.settled oracle detail).2.exhausted := by
  have hheld := held_frame htree oracle detail
  have hslots := slots_frame oracle detail htree
  have hbegun : tree.frameStart.1.Accounts [] := by
    rw [hstart]
    exact SlotPool.Accounts.ofCapacity _
  have hidle : tree.frameStart.1.pending.toList = [] := by
    rw [hstart]
    rfl
  obtain ⟨placed, hplaced⟩ := @rebuilds_settleAll (tree.pass oracle detail) []
    { slots := tree.frameStart.1 } (congrArg Prod.snd hstart)
    (tree.plan oracle).1 hbegun hidle
    (fun hstopped => absurd hstopped Bool.false_ne_true)
  have hsettled := hplaced.accounts
  rw [List.append_nil] at hsettled
  rw [heldBy_plan] at hplaced
  cases hexhausted : (tree.settled oracle detail).2.exhausted with
  | false =>
      rw [hplaced.complete hexhausted] at hsettled
      apply Balanced.settled
      rw [hheld, hslots]
      exact hsettled
  | true =>
      have hcapacity : (tree.settled oracle detail).2.slots.capacity =
          tree.slots.capacity := by
        rw [settled, capacity_settleAll, hstart]
        rfl
      apply Balanced.stalled
      · rw [hslots]
        exact hsettled
      · rw [hheld]
        exact hplaced.sublist
      · rw [hslots]
        exact hplaced.idle
      · rw [hslots]
        exact hplaced.full hexhausted
      · rw [hheld, hslots]
        intro slot hslot
        rcases hplaced.origin slot hslot with hnew | hold
        · exact hsettled.lt_capacity hnew
        · rw [hcapacity]
          exact haccounts.lt_capacity hold

/-- A frame leaves a balanced tree behind.  When it has placed every node anew
and run out of slots, the tree is stalled. -/
theorem balanced_frame (htree : tree.Unnested) (h : tree.Balanced false)
    (oracle : Oracle) (detail : Detail) :
    (tree.frame oracle detail).tree.Balanced (tree.stalls oracle detail) := by
  obtain ⟨haccounts⟩ := h
  rw [stalls, isOk_frame oracle detail htree, Bool.not_not]
  rcases frameStart_cases tree with hstart | hstart
  · have hframe := balanced_frame_of_kept htree haccounts hstart oracle detail
    rw [hstart, Bool.false_and]
    exact hframe
  · have hframe := balanced_frame_of_compacted htree haccounts hstart oracle
      detail
    rw [hstart, Bool.true_and]
    exact hframe

theorem Managed.balanced {stalled : Bool} (h : Managed tree stalled) :
    tree.Balanced stalled := by
  induction h with
  | fresh h => exact balanced_fresh h
  | insert _ star ih => exact act_insert_induction Balanced.gains ih star
  | insertFlat _ values ih =>
      exact insertFlat_induction Balanced.gains ih values
  | @resizeBuffer tree _ _ capacity ih =>
      exact balanced_of_vacant (vacant_resizeBuffer tree capacity)
        (.ofCapacity capacity)
  | runFrame h oracle detail time ih =>
      obtain ⟨log, hframe⟩ := exists_runFrame_eq oracle detail time
      have hbalanced := balanced_frame h.reachable.unnested ih oracle detail
      rw [act, hframe]
      exact hbalanced.congr rfl rfl

/-! ## Ownership -/

/-- Of two seated nodes of a tree, neither lies below the other. -/
theorem Unnested.eq_of_path (htree : tree.Unnested) {above below : Entry}
    (habove : above ∈ tree.residents) (hbelow : below ∈ tree.residents)
    (hpath : above.path <+: below.path) : above = below := by
  rw [residents, List.mem_filter, listing, List.mem_flatMap] at habove hbelow
  obtain ⟨⟨o, _, ho⟩, hseated⟩ := habove
  obtain ⟨⟨p, _, hp⟩, hseated'⟩ := hbelow
  obtain rfl : o = p := @Node.octant_eq_of_path _ _ [] _ _ _ _ _ _ ho hp hpath
  exact (htree o).eq_of_path ho hp (Option.isSome_iff_ne_none.mp hseated)
    (Option.isSome_iff_ne_none.mp hseated') hpath

/-- The nodes and the slots of a tree fit together.  Only while the tree is
stalled may a slot be named by two nodes; all slots are in use then. -/
structure Owned (tree : Tree) (stalled : Bool) : Prop where
  /-- Every slot is held, pending or free. -/
  covered : ∀ slot, slot < tree.slots.capacity ↔
    slot ∈ tree.held ∨ tree.slots.isPending slot ∨ slot ∈ tree.slots.free
  /-- A slot that is held is neither pending nor free. -/
  held_apart : ∀ slot ∈ tree.held,
    tree.slots.isPending slot = false ∧ slot ∉ tree.slots.free
  /-- A slot that is pending is not free. -/
  pending_apart : ∀ slot, tree.slots.isPending slot → slot ∉ tree.slots.free
  free_nodup : tree.slots.free.Nodup
  held_nodup : stalled = false → tree.held.Nodup
  /-- There are as many slots as are taken away when those in use are counted. -/
  countable : tree.slots.freeCount + tree.slots.pendingCount ≤
    tree.slots.capacity
  inUse : stalled = false → tree.slots.inUse = tree.residents.length
  inUse_stalled : stalled = true →
    tree.slots.inUse = tree.slots.capacity ∧
      tree.slots.capacity ≤ tree.residents.length
  /-- Slots in use lie below the mark. -/
  marked : ∀ slot, slot ∈ tree.held ∨ tree.slots.isPending slot →
    slot < tree.slots.highWater
  bounded : tree.slots.highWater ≤ tree.slots.capacity
  /-- No node that holds a slot lies below another one. -/
  apart : ∀ above ∈ tree.residents, ∀ below ∈ tree.residents,
    above.path <+: below.path → above = below
  /-- A node without a slot shows nothing. -/
  blank : ∀ entry ∈ tree.listing, entry.isResident = false →
    entry.cell.shown = 0 ∧ (entry.cell.tenancy.map Tenancy.sampled).getD 0 = 0
  /-- No slot was given up that did not exist or was pending already. -/
  sound : tree.slots.misused = false

theorem blank_of_listing (entry : Entry) (hentry : entry.isResident = false) :
    entry.cell.shown = 0 ∧
      (entry.cell.tenancy.map Tenancy.sampled).getD 0 = 0 := by
  have hvacant : entry.cell.tenancy = none :=
    Option.isSome_eq_false_iff.mp hentry |> Option.isNone_iff_eq_none.mp
  simp [Cell.shown, hvacant]

theorem owns_of_settled (htree : tree.Unnested)
    (haccounts : tree.slots.Accounts tree.held) : tree.Owned false where
  covered := haccounts.lt_capacity_iff
  held_apart := fun _ hslot =>
    ⟨haccounts.isPending_eq_false hslot, fun hfree =>
      haccounts.not_mem_of_held hslot (List.mem_append_right _ hfree)⟩
  pending_apart := fun _ => haccounts.not_mem_free_of_pending
  free_nodup := haccounts.nodup_free
  held_nodup := fun _ => haccounts.nodup_held
  countable := haccounts.freeCount_add_le
  inUse := fun _ => haccounts.inUse_eq.trans tree.length_held
  inUse_stalled := fun hstalled => absurd hstalled Bool.false_ne_true
  marked := fun slot hslot => haccounts.marked slot
    (List.mem_append.mpr (hslot.imp_right (SlotPool.isPending_iff _ slot).mp))
  bounded := haccounts.bounded
  apart := fun _ habove _ hbelow => htree.eq_of_path habove hbelow
  blank := fun entry _ => blank_of_listing entry
  sound := haccounts.sound

/-- In a stalled tree the slots that were placed are the whole buffer, so no
node can name a slot that the pool does not account for. -/
theorem owns_of_stalled (htree : tree.Unnested) {placed : List Nat}
    (haccounts : tree.slots.Accounts placed)
    (hsublist : placed.Sublist tree.held)
    (hidle : tree.slots.pending.toList = []) (hfull : tree.slots.free = [])
    (hbounded : ∀ slot ∈ tree.held, slot < tree.slots.capacity) :
    tree.Owned true := by
  have hpending : ∀ slot, tree.slots.isPending slot = false := by
    intro slot
    apply eq_false_of_ne_true
    rw [SlotPool.isPending_iff, hidle]
    exact List.not_mem_nil
  have hplaced : ∀ slot, slot < tree.slots.capacity ↔ slot ∈ placed := by
    intro slot
    rw [haccounts.lt_capacity_iff, hpending, hfull]
    simp
  have hinUse : tree.slots.inUse = tree.slots.capacity := by
    have hlength := congrArg List.length hidle
    rw [Std.TreeSet.length_toList] at hlength
    simp [SlotPool.inUse, SlotPool.freeCount, SlotPool.pendingCount, hfull,
      hlength]
  exact {
    covered := fun slot => by
      rw [hpending, hfull]
      refine ⟨fun hslot => .inl (hsublist.subset ((hplaced slot).mp hslot)),
        fun hslot => hbounded slot ?_⟩
      simpa using hslot
    held_apart := fun slot _ =>
      ⟨hpending slot, by rw [hfull]; exact List.not_mem_nil⟩
    pending_apart := fun slot hslot =>
      absurd (hpending slot ▸ hslot) Bool.false_ne_true
    free_nodup := haccounts.nodup_free
    held_nodup := fun hstalled => absurd hstalled.symm Bool.false_ne_true
    countable := haccounts.freeCount_add_le
    inUse := fun hstalled => absurd hstalled.symm Bool.false_ne_true
    inUse_stalled := fun _ => by
      refine ⟨hinUse, ?_⟩
      rw [← hinUse, haccounts.inUse_eq, ← tree.length_held]
      exact hsublist.length_le
    marked := fun slot hslot => by
      have hheld : slot ∈ tree.held := by simpa [hpending] using hslot
      exact haccounts.marked slot (List.mem_append_left _
        ((hplaced slot).mp (hbounded slot hheld)))
    bounded := haccounts.bounded
    apart := fun _ habove _ hbelow => htree.eq_of_path habove hbelow
    blank := fun entry _ => blank_of_listing entry
    sound := haccounts.sound }

theorem Balanced.owns {stalled : Bool} (h : tree.Balanced stalled)
    (htree : tree.Unnested) : tree.Owned stalled := by
  cases h with
  | settled haccounts => exact owns_of_settled htree haccounts
  | stalled haccounts hsublist hidle hfull hbounded =>
      exact owns_of_stalled htree haccounts hsublist hidle hfull hbounded

/-- In every session nodes and slots fit together after every action, and no
slot is lost.  The sessions give the buffer a new size after a frame that failed
to place every node anew before they run another one. -/
theorem Managed.owned {stalled : Bool} (h : Managed tree stalled) :
    tree.Owned stalled :=
  h.balanced.owns h.reachable.unnested

/-! ## A crowded buffer -/

/-- One star fills a leaf, and every frame that finds a slot free and one used
before compacts the buffer. -/
def crowdedSettings : Settings :=
  { starsPerCell := 1, compaction := ⟨⟨0, 1⟩, ⟨0, 1⟩⟩ }

/-- A star one unit away from the centre along every axis, towards an
octant. -/
def cornerStar (o : Octant) : Star :=
  let side (below : Bool) : Value :=
    if below then ⟨0xbf800000⟩ else ⟨0x3f800000⟩
  [side o.x, side o.y, side o.z, .zero, .zero, .zero, .zero, .zero]

/-- A star farther off from the centre than the one in the corner of the last
octant. -/
def farStar : Star :=
  List.replicate 3 ⟨0xc1000000⟩ ++ List.replicate 5 .zero

/-- Only what is asked about after the given number of questions is seen. -/
def seesAfter (number : Nat) : Oracle := fun asked =>
  { sees := fun _ => asked.length = number, pixels := fun _ => (0, 0) }

def openView : View := { sees := fun _ => true, pixels := fun _ => (0, 0) }

/-- Three leaves with a star each. -/
def crowdedStars : Tree :=
  ((Tree.act { settings := crowdedSettings, layout := {} }
    (.insert (cornerStar (.ofIndex 0)))).act
    (.insert (cornerStar (.ofIndex 1)))).act
    (.insert (cornerStar (.ofIndex 7)))

/-- The same with a buffer that has only two slots. -/
def crowded : Tree := crowdedStars.act (.resizeBuffer 2)

/-- The last of the leaves holds the first slot. -/
def crowdedOnce : Tree := crowded.act (.runFrame (seesAfter 7) .positions none)

/-- All of the leaves have been placed anew, as far as there were slots. -/
def crowdedTwice : Tree := crowdedOnce.act (.runFrame openView.oracle .positions none)

theorem fresh_crowdedSettings :
    Fresh { settings := crowdedSettings, layout := {} } :=
  @Fresh.created crowdedSettings {} _ rfl

theorem managed_crowdedStars : Managed crowdedStars false :=
  .insert (.insert (.insert (.fresh fresh_crowdedSettings) _) _) _

theorem managed_crowded : Managed crowded false :=
  managed_crowdedStars.resizeBuffer 2

theorem managed_crowdedOnce : Managed crowdedOnce false := by
  have hstalls : crowded.stalls (seesAfter 7) .positions = false := by
    decide +kernel
  exact hstalls ▸ managed_crowded.runFrame (seesAfter 7) .positions none

theorem managed_crowdedTwice : Managed crowdedTwice true := by
  have hstalls : crowdedOnce.stalls openView.oracle .positions = true := by
    decide +kernel
  exact hstalls ▸ managed_crowdedOnce.runFrame openView.oracle .positions none

theorem owned_crowded : crowdedOnce.Owned false ∧ crowdedTwice.Owned true :=
  ⟨Managed.owned managed_crowdedOnce, Managed.owned managed_crowdedTwice⟩

/-- A stalled tree may name a slot twice: the frame has placed the first leaf
anew where the last one still is. -/
theorem not_forall_held_nodup :
    ¬ ∀ (tree : Tree) (stalled : Bool), Managed tree stalled →
      tree.held.Nodup ∧ tree.slots.inUse = tree.residents.length := by
  intro h
  have hheld : crowdedTwice.held = [0, 1, 0] := by decide +kernel
  have hnodup := (h crowdedTwice true managed_crowdedTwice).1
  rw [hheld] at hnodup
  exact absurd hnodup (by decide)

end Tree

end Starfield
