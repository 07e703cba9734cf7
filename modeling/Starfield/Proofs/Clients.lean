import Starfield.Proofs.Ledger

/-!
# Any user of a pool

A frame uses its pool in a particular order.  This file is about users in
general, who make their requests in any order and only have to give up no slot
that they do not hold.  A slot that is given up is withheld until the pending
slots are reclaimed or the pool is reset.  Then it is free, and it is handed out
again at the latest when as many slots have been asked for as were free then and
have been reclaimed since.
-/

namespace Starfield

inductive Request where
  | acquire
  | release (slot : Nat)
  | reclaim
  | reset (capacity : Nat)
deriving DecidableEq

namespace Request

/-- Whether slots that are pending can be handed out after the request. -/
def recycles : Request → Bool
  | acquire => false
  | release _ => false
  | reclaim => true
  | reset _ => true

/-- Whether the request begins with a new pool. -/
def resets : Request → Bool
  | acquire => false
  | release _ => false
  | reclaim => false
  | reset _ => true

end Request

/-- A pool with the slots that its user holds. -/
structure Client where
  pool : SlotPool
  /-- The slots handed out since the last reset and not given up, latest
  first. -/
  held : List Nat := []

namespace Client

def ofCapacity (capacity : Nat) : Client := { pool := .ofCapacity capacity }

def Allows (client : Client) : Request → Prop
  | .acquire => True
  | .release slot => slot ∈ client.held
  | .reclaim => True
  | .reset _ => True

instance (client : Client) (request : Request) :
    Decidable (client.Allows request) :=
  match request with
  | .acquire => isTrue trivial
  | .release slot => inferInstanceAs (Decidable (slot ∈ client.held))
  | .reclaim => isTrue trivial
  | .reset _ => isTrue trivial

def serve (client : Client) : Request → Client
  | .acquire =>
      match client.pool.acquire? with
      | none => client
      | some (slot, pool) => { pool, held := slot :: client.held }
  | .release slot =>
      { pool := client.pool.release slot, held := client.held.erase slot }
  | .reclaim => { client with pool := client.pool.reclaim }
  | .reset capacity => ofCapacity capacity

def run (client : Client) (requests : List Request) : Client :=
  requests.foldl serve client

/-- Each of the requests is allowed when it is made. -/
def Permits (client : Client) : List Request → Prop
  | [] => True
  | request :: requests =>
      client.Allows request ∧ (client.serve request).Permits requests

instance decidablePermits (client : Client) :
    (requests : List Request) → Decidable (client.Permits requests)
  | [] => isTrue trivial
  | request :: requests =>
      have := decidablePermits (client.serve request) requests
      inferInstanceAs (Decidable (_ ∧ _))

/-- The slot that a request is answered with, as a list of at most one. -/
def granted (client : Client) : Request → List Nat
  | .acquire => (client.pool.acquire?.map Prod.fst).toList
  | .release _ => []
  | .reclaim => []
  | .reset _ => []

/-- The slots handed out during a run. -/
def grants (client : Client) : List Request → List Nat
  | [] => []
  | request :: requests =>
      client.granted request ++ (client.serve request).grants requests

/-- The number of slots that a request puts back to the free ones. -/
def returned (client : Client) (request : Request) : Nat :=
  if request = .reclaim then client.pool.pendingCount else 0

/-- The number of slots reclaimed during a run. -/
def reclaimed (client : Client) : List Request → Nat
  | [] => 0
  | request :: requests =>
      client.returned request + (client.serve request).reclaimed requests

variable {client : Client} {request : Request} {requests : List Request} {slot : Nat}

/-! ## The account -/

/-- The pool accounts for what the user holds. -/
def Sound (client : Client) : Prop := client.pool.Accounts client.held

theorem sound_ofCapacity (capacity : Nat) : (ofCapacity capacity).Sound :=
  SlotPool.Accounts.ofCapacity capacity

/-- No request that is allowed loses a slot or hands one out twice. -/
theorem Sound.serve (h : client.Sound) (hallowed : client.Allows request) :
    (client.serve request).Sound := by
  cases request with
  | acquire =>
      rw [Client.serve]
      split
      · exact h
      · rename_i hslot
        exact h.acquire hslot
  | release slot =>
      apply SlotPool.Accounts.release
      exact h.perm (List.perm_cons_erase hallowed).symm
  | reclaim => exact h.reclaim
  | reset capacity => exact sound_ofCapacity capacity

theorem Sound.run (h : client.Sound) (hpermits : client.Permits requests) :
    (client.run requests).Sound := by
  induction requests generalizing client with
  | nil => exact h
  | cons request requests ih => exact ih (h.serve hpermits.1) hpermits.2

/-! ## Slots that are pending -/

/-- A slot that is pending is withheld and stays pending, whatever is asked for
until the pending slots are recycled. -/
theorem Sound.pending_serve (h : client.Sound)
    (hpending : client.pool.isPending slot = true)
    (hrecycles : request.recycles = false) :
    slot ∉ client.granted request ∧
      (client.serve request).pool.isPending slot = true := by
  cases request with
  | acquire =>
      rw [granted, Client.serve]
      cases hnext : client.pool.acquire? with
      | none => exact ⟨List.not_mem_nil, hpending⟩
      | some taken =>
          obtain ⟨free, hfree, _⟩ := SlotPool.acquire?_eq_some hnext
          have hother := h.not_mem_free_of_pending hpending
          rw [hfree, List.mem_cons, not_or] at hother
          refine ⟨by simpa using hother.1, ?_⟩
          rw [SlotPool.isPending_iff] at hpending ⊢
          rwa [SlotPool.pending_acquire? hnext]
  | release other =>
      refine ⟨List.not_mem_nil, ?_⟩
      exact (SlotPool.isPending_release _ _ _).mpr (.inr hpending)
  | reclaim | reset => cases hrecycles

theorem Sound.pending_run (h : client.Sound)
    (hpending : client.pool.isPending slot = true)
    (hpermits : client.Permits requests)
    (hrecycles : ∀ request ∈ requests, request.recycles = false) :
    slot ∉ client.grants requests ∧
      (client.run requests).pool.isPending slot = true := by
  induction requests generalizing client with
  | nil => exact ⟨List.not_mem_nil, hpending⟩
  | cons request requests ih =>
      rw [List.forall_mem_cons] at hrecycles
      obtain ⟨hhere, hpending'⟩ := h.pending_serve hpending hrecycles.1
      obtain ⟨hrest, hlast⟩ :=
        ih (h.serve hpermits.1) hpending' hpermits.2 hrecycles.2
      refine ⟨?_, hlast⟩
      rw [grants, List.mem_append]
      exact not_or.mpr ⟨hhere, hrest⟩

/-! ## Slots that are free -/

/-- A slot that is free is handed out or stays free.  With each slot that goes
before it there is one free slot less, and a reclaim puts more in front of it. -/
theorem free_serve (hfree : slot ∈ client.pool.free)
    (hresets : request.resets = false) (hgranted : slot ∉ client.granted request) :
    slot ∈ (client.serve request).pool.free ∧
      (client.serve request).pool.freeCount + [request].count .acquire =
        client.pool.freeCount + client.returned request := by
  cases request with
  | acquire =>
      rw [granted] at hgranted
      rw [Client.serve]
      cases hnext : client.pool.acquire? with
      | none =>
          rw [SlotPool.acquire?_eq_none_iff] at hnext
          rw [hnext] at hfree
          exact absurd hfree List.not_mem_nil
      | some taken =>
          obtain ⟨first, pool⟩ := taken
          obtain ⟨free, hrest, rfl⟩ := SlotPool.acquire?_eq_some hnext
          have hother : slot ≠ first := by simpa [hnext] using hgranted
          rw [hrest, List.mem_cons] at hfree
          refine ⟨hfree.resolve_left hother, ?_⟩
          simp [SlotPool.freeCount, hrest, returned]
  | release other => exact ⟨hfree, rfl⟩
  | reclaim =>
      refine ⟨List.mem_append_right _ hfree, ?_⟩
      have hlength : (client.serve .reclaim).pool.freeCount =
          client.pool.pendingCount + client.pool.freeCount := by
        rw [SlotPool.pendingCount, ← Std.TreeSet.length_toList]
        exact List.length_append
      simp [hlength, returned, Nat.add_comm]
  | reset => cases hresets

theorem free_run (hfree : slot ∈ client.pool.free)
    (hresets : ∀ request ∈ requests, request.resets = false)
    (hgrants : slot ∉ client.grants requests) :
    slot ∈ (client.run requests).pool.free ∧
      (client.run requests).pool.freeCount + requests.count .acquire =
        client.pool.freeCount + client.reclaimed requests := by
  induction requests generalizing client with
  | nil => exact ⟨hfree, rfl⟩
  | cons request requests ih =>
      rw [List.forall_mem_cons] at hresets
      rw [grants, List.mem_append, not_or] at hgrants
      obtain ⟨hfree', hhere⟩ := free_serve hfree hresets.1 hgrants.1
      obtain ⟨hlast, hrest⟩ := ih hfree' hresets.2 hgrants.2
      refine ⟨hlast, ?_⟩
      have hcount : (request :: requests).count .acquire =
          [request].count .acquire + requests.count .acquire :=
        @List.count_append _ _ .acquire [request] requests
      rw [hcount, reclaimed]
      change ((client.serve request).run requests).pool.freeCount + _ = _
      omega

/-- A slot that is free is handed out when as many slots are asked for as are
free or are reclaimed on the way. -/
theorem mem_grants_of_free (hfree : slot ∈ client.pool.free)
    (hresets : ∀ request ∈ requests, request.resets = false)
    (henough : client.pool.freeCount + client.reclaimed requests ≤
      requests.count .acquire) : slot ∈ client.grants requests := by
  by_contra hgrants
  obtain ⟨hlast, hcount⟩ := free_run hfree hresets hgrants
  have hpos : 0 < (client.run requests).pool.freeCount :=
    List.length_pos_of_mem hlast
  omega

/-- A slot that was pending is free after the pending slots have been recycled,
if there still is such a slot. -/
theorem mem_free_of_recycles (hpending : client.pool.isPending slot = true)
    (hrecycles : request.recycles = true)
    (hcapacity : slot < (client.serve request).pool.capacity) :
    slot ∈ (client.serve request).pool.free := by
  cases request with
  | acquire | release => cases hrecycles
  | reclaim =>
      exact List.mem_append_left _ ((SlotPool.isPending_iff _ _).mp hpending)
  | reset capacity => exact List.mem_range.mpr hcapacity

/-! ## The discipline of a pool -/

/-- What any user can rely on. -/
structure Disciplined (client : Client) : Prop where
  /-- Every slot is held, pending or free, and only one of these. -/
  partition :
    (client.held ++ (client.pool.pending.toList ++ client.pool.free)).Perm
      (List.range client.pool.capacity)
  /-- A slot that is handed out was neither held nor pending. -/
  granted : ∀ slot pool, client.pool.acquire? = some (slot, pool) →
    slot ∉ client.held ∧ client.pool.isPending slot = false
  /-- A slot is refused just when all slots are held or pending. -/
  refused : client.pool.acquire? = none ↔
    ∀ slot < client.pool.capacity,
      slot ∈ client.held ∨ client.pool.isPending slot = true
  unchanged : client.pool.acquire? = none → client.serve .acquire = client
  /-- A slot that is given up is not handed out before the pending slots are
  recycled. -/
  withheld : ∀ slot ∈ client.held, ∀ wait,
    (client.serve (.release slot)).Permits wait →
    (∀ request ∈ wait, request.recycles = false) →
      slot ∉ (client.serve (.release slot)).grants wait
  /-- Afterwards it is handed out again, unless the buffer has become too small
  for it, when enough slots are asked for. -/
  handedOut : ∀ slot ∈ client.held, ∀ wait recycle later,
    (client.serve (.release slot)).Permits wait →
    (∀ request ∈ wait, request.recycles = false) →
    recycle.recycles = true →
    let recycled := ((client.serve (.release slot)).run wait).serve recycle
    slot < recycled.pool.capacity →
    (∀ request ∈ later, request.resets = false) →
    recycled.pool.freeCount + recycled.reclaimed later ≤
      later.count .acquire →
      slot ∈ recycled.grants later
  /-- All slots from the mark on are free. -/
  unmarked : ∀ slot, client.pool.highWater ≤ slot →
    slot < client.pool.capacity → slot ∈ client.pool.free
  bounded : client.pool.freeCount + client.pool.pendingCount ≤
    client.pool.capacity
  inUse : client.pool.inUse = client.held.length

theorem Sound.refused_iff (h : client.Sound) :
    client.pool.acquire? = none ↔
      ∀ slot < client.pool.capacity,
        slot ∈ client.held ∨ client.pool.isPending slot = true := by
  rw [SlotPool.acquire?_eq_none_iff, List.eq_nil_iff_forall_not_mem]
  constructor
  · intro hfull slot hslot
    have howner := (h.lt_capacity_iff slot).mp hslot
    rw [← or_assoc] at howner
    exact howner.resolve_right (hfull slot)
  · intro hused slot hfree
    have hslot : slot < client.pool.capacity :=
      (h.lt_capacity_iff slot).mpr (.inr (.inr hfree))
    rcases hused slot hslot with hheld | hpending
    · exact h.not_mem_of_held hheld (List.mem_append_right _ hfree)
    · exact h.not_mem_free_of_pending hpending hfree

theorem Sound.disciplined (h : client.Sound) : client.Disciplined := by
  have hreleased : ∀ slot ∈ client.held,
      (client.serve (.release slot)).Sound ∧
        (client.serve (.release slot)).pool.isPending slot = true := by
    intro slot hslot
    exact ⟨h.serve hslot, (SlotPool.isPending_release _ _ _).mpr (.inl rfl)⟩
  refine {
    partition := h.partition
    granted := ?_
    refused := h.refused_iff
    unchanged := ?_
    withheld := ?_
    handedOut := ?_
    unmarked := ?_
    bounded := h.freeCount_add_le
    inUse := h.inUse_eq }
  · intro slot pool hnext
    obtain ⟨free, hfree, _⟩ := SlotPool.acquire?_eq_some hnext
    have hslot : slot ∈ client.pool.free := by
      rw [hfree]
      exact List.mem_cons_self
    refine ⟨fun hheld => ?_, eq_false_of_ne_true fun hpending => ?_⟩
    · exact h.not_mem_of_held hheld (List.mem_append_right _ hslot)
    · exact h.not_mem_free_of_pending hpending hslot
  · intro hnone
    rw [Client.serve, hnone]
  · intro slot hslot wait hpermits hrecycles
    obtain ⟨hsound, hpending⟩ := hreleased slot hslot
    exact (hsound.pending_run hpending hpermits hrecycles).1
  · intro slot hslot wait recycle later hpermits hwait hrecycle recycled
      hcapacity hresets henough
    obtain ⟨hsound, hpending⟩ := hreleased slot hslot
    have hpending' := (hsound.pending_run hpending hpermits hwait).2
    exact mem_grants_of_free
      (mem_free_of_recycles hpending' hrecycle hcapacity) hresets henough
  · intro slot hmark hslot
    rcases (h.lt_capacity_iff slot).mp hslot with
      hheld | hpending | hfree
    · have hlt := h.marked slot (List.mem_append_left _ hheld)
      omega
    · have hlt := h.marked slot (List.mem_append_right _
        ((SlotPool.isPending_iff _ _).mp hpending))
      omega
    · exact hfree

/-- A pool keeps its discipline whatever it is asked for, as long as its user
gives up no slot that it does not hold. -/
theorem disciplined_run (capacity : Nat) (requests : List Request)
    (hpermits : (ofCapacity capacity).Permits requests) :
    ((ofCapacity capacity).run requests).Disciplined :=
  ((sound_ofCapacity capacity).run hpermits).disciplined

/-- Three slots are handed out, the second one is given up and reclaimed, and the
last one is given up. -/
def scattered : List Request :=
  [.acquire, .acquire, .acquire, .release 1, .reclaim, .release 2]

/-- The first slot is held, the second one free and the last one pending. -/
theorem disciplined_scattered :
    (ofCapacity 3).Permits scattered ∧
      ((ofCapacity 3).run scattered).Disciplined ∧
      ((ofCapacity 3).run scattered).held = [0] ∧
      ((ofCapacity 3).run scattered).pool.free = [1] ∧
      ((ofCapacity 3).run scattered).pool.pending.toList = [2] := by
  have hpermits : (ofCapacity 3).Permits scattered := by decide +kernel
  have hheld : ((ofCapacity 3).run scattered).held = [0] := by decide +kernel
  have hfree : ((ofCapacity 3).run scattered).pool.free = [1] := by
    decide +kernel
  have hpending : ((ofCapacity 3).run scattered).pool.pending.toList = [2] := by
    decide +kernel
  exact ⟨hpermits, disciplined_run 3 scattered hpermits, hheld, hfree, hpending⟩

end Client

end Starfield
