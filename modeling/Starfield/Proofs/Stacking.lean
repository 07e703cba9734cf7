import Starfield.Proofs.Clients

/-!
# Which slot comes next

Free slots lie on a stack.  The slots that become free together are put on top of
it, the lowest one first, and what was free before stays below.  So the slot that
is handed out is the lowest one of those that became free last.  It is the lowest
free slot of all as long as no lower slot has been free for longer, and slots
that are given up in several rounds, the lower ones first, break this.
-/

namespace Starfield

/-- When slots have become free.  A round begins when pending slots are reclaimed
or the pool is reset. -/
structure Rounds where
  /-- The number of rounds so far. -/
  count : Nat := 0
  /-- The latest round in which a slot became free. -/
  latest : Nat → Nat := fun _ => 0
  latest_le : ∀ slot, latest slot ≤ count := by exact fun _ => Nat.le_refl _

namespace Rounds

/-- A slot goes before another one when it became free later, or in the same round
and is the lower one. -/
def Before (rounds : Rounds) (slot other : Nat) : Prop :=
  rounds.latest other < rounds.latest slot ∨
    rounds.latest other = rounds.latest slot ∧ slot < other

def next (rounds : Rounds) (client : Client) : Request → Rounds
  | .acquire => rounds
  | .release _ => rounds
  | .reclaim =>
      { count := rounds.count + 1
        latest := fun slot =>
          if client.pool.isPending slot then rounds.count + 1
          else rounds.latest slot
        latest_le := fun slot => by
          split
          · exact Nat.le_refl _
          · exact Nat.le_succ_of_le (rounds.latest_le slot) }
  | .reset _ =>
      { count := rounds.count + 1
        latest := fun _ => rounds.count + 1 }

end Rounds

namespace Client

/-- The rounds after a run that begins after the given rounds. -/
def roundsAfter (client : Client) (rounds : Rounds) : List Request → Rounds
  | [] => rounds
  | request :: requests =>
      (client.serve request).roundsAfter (rounds.next client request) requests

def rounds (client : Client) (requests : List Request) : Rounds :=
  client.roundsAfter {} requests

variable {client : Client} {rounds : Rounds} {request : Request}
  {requests : List Request}

/-- The free slots are kept in the order in which they go before each other. -/
def Stacked (client : Client) (rounds : Rounds) : Prop :=
  client.pool.free.Pairwise rounds.Before

/-- Slots that became free in the same round are stacked when they ascend. -/
theorem pairwise_before {slots : List Nat} {round : Nat}
    (hslots : slots.Pairwise (· < ·))
    (hround : ∀ slot ∈ slots, rounds.latest slot = round) :
    slots.Pairwise rounds.Before := by
  refine hslots.imp_of_mem fun {slot other} hslot hother hlt => .inr ⟨?_, hlt⟩
  rw [hround slot hslot, hround other hother]

theorem stacked_ofCapacity (capacity : Nat)
    (hrounds : ∀ slot, rounds.latest slot = rounds.count) :
    (ofCapacity capacity).Stacked rounds :=
  pairwise_before List.pairwise_lt_range fun slot _ => hrounds slot

/-- A reclaim puts the pending slots, which become free in a new round, on top of
those that are free already. -/
theorem Stacked.reclaim (h : client.Stacked rounds) (hsound : client.Sound) :
    (client.serve .reclaim).Stacked (rounds.next client .reclaim) := by
  have hpending : ∀ slot ∈ client.pool.pending.toList,
      (rounds.next client .reclaim).latest slot = rounds.count + 1 :=
    fun slot hslot => if_pos ((SlotPool.isPending_iff _ _).mpr hslot)
  have hfree : ∀ slot ∈ client.pool.free,
      (rounds.next client .reclaim).latest slot = rounds.latest slot :=
    fun slot hslot => if_neg fun hboth =>
      hsound.not_mem_free_of_pending hboth hslot
  refine List.pairwise_append.mpr
    ⟨pairwise_before client.pool.pairwise_lt_pending hpending, ?_, ?_⟩
  · refine h.imp_of_mem fun {slot other} hslot hother hbefore => ?_
    rwa [Rounds.Before, hfree slot hslot, hfree other hother]
  · intro slot hslot other hother
    left
    rw [hpending slot hslot, hfree other hother]
    exact Nat.lt_succ_of_le (rounds.latest_le other)

/-- The order of the free slots is kept by every request. -/
theorem Stacked.serve (h : client.Stacked rounds) (hsound : client.Sound) :
    (client.serve request).Stacked (rounds.next client request) := by
  cases request with
  | acquire =>
      rw [Client.serve]
      cases hnext : client.pool.acquire? with
      | none => exact h
      | some taken =>
          obtain ⟨free, hfree, hpool⟩ := SlotPool.acquire?_eq_some hnext
          rw [Stacked, hfree] at h
          change taken.2.free.Pairwise rounds.Before
          rw [hpool]
          exact (List.pairwise_cons.mp h).2
  | release slot => exact h
  | reclaim => exact h.reclaim hsound
  | reset capacity => exact stacked_ofCapacity capacity fun _ => rfl

theorem Stacked.run (h : client.Stacked rounds) (hsound : client.Sound)
    (hpermits : client.Permits requests) :
    (client.run requests).Stacked (client.roundsAfter rounds requests) := by
  induction requests generalizing client rounds with
  | nil => exact h
  | cons request requests ih =>
      exact ih (h.serve hsound) (hsound.serve hpermits.1) hpermits.2

/-- The slot that is handed out goes before all others that are free. -/
theorem Stacked.before_of_acquire? (h : client.Stacked rounds) {slot : Nat}
    {pool : SlotPool} (hnext : client.pool.acquire? = some (slot, pool)) :
    slot ∈ client.pool.free ∧
      ∀ other ∈ client.pool.free, other ≠ slot → rounds.Before slot other := by
  obtain ⟨free, hfree, _⟩ := SlotPool.acquire?_eq_some hnext
  rw [Stacked, hfree] at h
  rw [hfree]
  refine ⟨List.mem_cons_self, fun other hother hne => ?_⟩
  exact (List.pairwise_cons.mp h).1 other
    ((List.mem_cons.mp hother).resolve_left hne)

/-- The slot that is handed out is the lowest one of those that became free last.
So it is the lowest free slot of all just when no lower one has been free for
longer. -/
theorem latest_first_run (capacity : Nat) (requests : List Request)
    (hpermits : (ofCapacity capacity).Permits requests) :
    let client := (ofCapacity capacity).run requests
    let rounds := (ofCapacity capacity).rounds requests
    ∀ slot pool, client.pool.acquire? = some (slot, pool) →
      slot ∈ client.pool.free ∧
      (∀ other ∈ client.pool.free, other ≠ slot → rounds.Before slot other) ∧
      ((∀ other ∈ client.pool.free, slot ≤ other) ↔
        ∀ other ∈ client.pool.free,
          rounds.latest other < rounds.latest slot → slot < other) := by
  intro client rounds slot pool hnext
  have hstacked : client.Stacked rounds :=
    (stacked_ofCapacity capacity fun _ => rfl).run (sound_ofCapacity capacity)
      hpermits
  obtain ⟨hslot, hbefore⟩ := hstacked.before_of_acquire? hnext
  refine ⟨hslot, hbefore, fun hlowest other hother hearlier => ?_, ?_⟩
  · have hne : slot ≠ other := by
      rintro rfl
      exact Nat.lt_irrefl _ hearlier
    exact Nat.lt_of_le_of_ne (hlowest other hother) hne
  · intro hlower other hother
    by_cases hne : other = slot
    · exact Nat.le_of_eq hne.symm
    · rcases hbefore other hother hne with hearlier | ⟨_, hlt⟩
      · exact Nat.le_of_lt (hlower other hother hearlier)
      · exact Nat.le_of_lt hlt

/-- Two slots are handed out, given up and reclaimed again, the lower one a round
before the other. -/
def staggered : List Request :=
  [.acquire, .acquire, .release 0, .reclaim, .release 1, .reclaim]

/-- Both slots are free, and the higher one goes first. -/
theorem latest_first_staggered :
    (ofCapacity 2).Permits staggered ∧
      ((ofCapacity 2).run staggered).pool.free = [1, 0] ∧
      ((ofCapacity 2).rounds staggered).Before 1 0 := by
  have hpermits : (ofCapacity 2).Permits staggered := by decide +kernel
  have hfree : ((ofCapacity 2).run staggered).pool.free = [1, 0] := by
    decide +kernel
  obtain ⟨pool, hnext⟩ : ∃ pool,
      ((ofCapacity 2).run staggered).pool.acquire? = some (1, pool) := by
    rw [SlotPool.acquire?, hfree]
    exact ⟨_, rfl⟩
  obtain ⟨_, hbefore, _⟩ := latest_first_run 2 staggered hpermits 1 pool hnext
  refine ⟨hpermits, hfree, hbefore 0 ?_ (by decide)⟩
  rw [hfree]
  decide

/-- So a slot may be handed out while a lower one is free. -/
theorem not_forall_lowest_first :
    ¬ ∀ (capacity : Nat) (requests : List Request),
      (ofCapacity capacity).Permits requests →
        ∀ slot pool, ((ofCapacity capacity).run requests).pool.acquire? =
            some (slot, pool) →
          ∀ other ∈ ((ofCapacity capacity).run requests).pool.free,
            slot ≤ other := by
  intro h
  have hfree : ((ofCapacity 2).run staggered).pool.free = [1, 0] := by
    decide +kernel
  have hlowest := h 2 staggered (by decide +kernel) 1
    { ((ofCapacity 2).run staggered).pool with
      free := [0]
      highWater := max ((ofCapacity 2).run staggered).pool.highWater 2 }
    (by rw [SlotPool.acquire?, hfree]) 0 (by rw [hfree]; decide)
  exact absurd hlowest (by decide)

end Client

end Starfield
