import Mathlib.Data.List.Nodup
import Starfield.Proofs.Frame.Tenure
import Starfield.Proofs.Mirror
import Starfield.Proofs.Stillness

/-!
# The lag of one frame

Whoever draws may still be reading what the frame before has written.  A frame
that keeps the buffer respects this: a slot that was held when it began goes to
no other node, and a slot that is given up waits for the next frame.  Insertions
between two frames change nothing about who holds a slot.

A frame that compacts the buffer places every node anew and may overwrite what
the frame before has written; only the slots that it reports as emptied have no
new holder.
-/

namespace Starfield

namespace Node

variable {settings : Settings} {layout : Layout} {star : Star} {place : Place}
  {node next : Node}

theorem Vacant.holdings_eq (hnode : node.Vacant) (path : List Octant)
    (place : Place) : holdingsBy (node.listing path place) = [] := by
  rw [← List.map_eq_nil_iff (f := Prod.snd), map_snd_holdingsBy, heldBy,
    flatMap_held_listing, hnode.held_eq]

theorem holdingsBy_inner (cell : Cell) (children : Octant → Node)
    (path : List Octant) (place : Place) :
    holdingsBy ((inner cell children).listing path place) =
      cell.held.map (path, ·) ++ Octant.all.flatMap fun o =>
        holdingsBy ((children o).listing (path ++ [o]) (place.child o)) := by
  rw [listing, holdingsBy_cons, holdingsBy, List.flatMap_assoc]
  rfl

/-- A star on its way leaves every slot with the node that holds it. -/
theorem Gains.holdings_eq (h : Gains settings layout star place node next)
    (path : List Octant) :
    holdingsBy (next.listing path place) =
      holdingsBy (node.listing path place) := by
  induction h generalizing path with
  | joined => rfl
  | @parted place cell child _ hchild _ =>
      have hchildren : ∀ o, (replace (partLeaf place cell.stars)
          (place.cube.octantOf star.point) child o).Vacant :=
        forall_replace (hchild.vacant (vacant_partLeaf _ _ _))
          (vacant_partLeaf _ _)
      -- The leaf keeps its slot as an inner node; the new leaves have none.
      have hbelow : Octant.all.flatMap (fun o => holdingsBy
          ((replace (partLeaf place cell.stars)
            (place.cube.octantOf star.point) child o).listing (path ++ [o])
              (place.child o))) = [] :=
        List.flatMap_eq_nil_iff.mpr fun o _ => (hchildren o).holdings_eq _ _
      rw [holdingsBy_inner, hbelow]
      rfl
  | @passed place cell children child _ ih =>
      rw [holdingsBy_inner, holdingsBy_inner]
      congr 1
      apply List.flatMap_congr
      intro o _
      exact forall_replace
        (P := fun o child =>
          holdingsBy (child.listing (path ++ [o]) (place.child o)) =
            holdingsBy ((children o).listing (path ++ [o]) (place.child o)))
        (ih _) (fun _ => rfl) o

end Node

namespace Tree

/-- The slots that the nodes of a tree hold, each with the path of its node. -/
def holdings (tree : Tree) : List (List Octant × Nat) :=
  holdingsBy tree.listing

variable {tree next : Tree} {oracle oracle' : Oracle} {detail detail' : Detail}
  {time time' : Option Nat} {update update' : Update}

theorem map_snd_holdings (tree : Tree) :
    tree.holdings.map Prod.snd = tree.held :=
  map_snd_holdingsBy tree.listing

theorem mem_held_of_holdings {holding : List Octant × Nat}
    (h : holding ∈ tree.holdings) : holding.2 ∈ tree.held := by
  rw [← map_snd_holdings]
  exact List.mem_map_of_mem h

/-- When all slots are accounted for, no slot has two holders. -/
theorem eq_of_holdings (haccounts : tree.slots.Accounts tree.held)
    {path path' : List Octant} {slot : Nat}
    (h : (path, slot) ∈ tree.holdings) (h' : (path', slot) ∈ tree.holdings) :
    path' = path := by
  have hnodup := haccounts.nodup_held
  rw [← map_snd_holdings] at hnodup
  exact congrArg Prod.fst (List.inj_on_of_nodup_map hnodup h' h rfl)

theorem Gains.holdings_eq {star : Star} (h : tree.Gains star next) :
    next.holdings = tree.holdings := by
  have hdomain : next.domain = tree.domain := by
    rw [domain, domain, h.settings]
  obtain ⟨child, hchild, hoctants⟩ := h.octants
  rw [holdings, holdings, holdingsBy, holdingsBy, listing, listing,
    List.flatMap_assoc, List.flatMap_assoc, hoctants, hdomain]
  apply List.flatMap_congr
  intro o _
  exact Node.forall_replace
    (P := fun o child =>
      holdingsBy (child.listing [o] (tree.domain.child o)) =
        holdingsBy ((tree.octants o).listing [o] (tree.domain.child o)))
    (hchild.holdings_eq [_]) (fun _ => rfl) o

theorem holdings_run {between : List Action}
    (hbetween : ∀ action ∈ between, action.inserts = true) :
    (tree.run between).holdings = tree.holdings :=
  run_insertions_induction (P := fun next => next.holdings = tree.holdings)
    (fun h hgains => hgains.holdings_eq.trans h) hbetween rfl

/-! ## One frame -/

/-- What a frame writes into a slot that was held before is the chunk of the
node that held it, and this node holds it still. -/
def RewritesOwn (tree next : Tree) (detail : Detail) (update : Update) : Prop :=
  ∀ path slot chunk, (path, slot) ∈ tree.holdings →
    update.changes[slot]? = some (.fill chunk) →
      ∃ entry ∈ next.listing, entry.path = path ∧ slot ∈ entry.cell.held ∧
        chunk = next.chunkOf detail entry.cell

/-- Between the two trees no slot has gone from one node to another one. -/
structure Respects (tree next : Tree) (detail : Detail) (update : Update) :
    Prop where
  /-- Whoever holds a slot that was held before is the node that held it. -/
  tenant : ∀ path path' slot, (path, slot) ∈ tree.holdings →
    (path', slot) ∈ next.holdings → path' = path
  written : tree.RewritesOwn next detail update
  /-- A slot that was held before and is given up waits for the next frame. -/
  given_up : ∀ path slot, (path, slot) ∈ tree.holdings →
    (path, slot) ∈ next.holdings ∨ next.slots.isPending slot = true
  /-- So does every slot that the frame reports as emptied. -/
  vacated : ∀ slot, update.changes[slot]? = some .vacate →
    next.slots.isPending slot = true
  /-- A slot that waits is nobody's. -/
  waiting : ∀ slot, next.slots.isPending slot = true → slot ∉ next.held

/-- How far a frame respects the one before it. -/
structure Lags (tree next : Tree) (detail : Detail) (update : Update) :
    Prop where
  respects : update.compacted = false → Respects tree next detail update
  /-- Even when all nodes have been placed anew, a slot that is reported as
  emptied is nobody's. -/
  emptied : ∀ slot, update.changes[slot]? = some .vacate → slot ∉ next.held

/-- The changes of a frame that has kept the buffer are those that settling the
plan makes, except that some slots are filled which nodes hold. -/
theorem Succeeds.overwrites_of_kept
    (h : tree.Succeeds oracle detail update next)
    (hkept : update.compacted = false) :
    Overwrites (tree.pass oracle detail) next.listing
      (tree.settled oracle detail).2.changes update.changes := by
  obtain ⟨changes, hoverwrites, hchanges⟩ := h.changes
  have hstale : (tree.settled oracle detail).2.stale = [] :=
    stale_settleAll (congrArg Prod.snd (h.start_of_kept hkept)) _ _
  rw [hchanges, hstale, h.listing]
  exact hoverwrites

/-- When all nodes have been placed anew, there are no such slots. -/
theorem Succeeds.getElem?_of_compacted
    (h : tree.Succeeds oracle detail update next)
    (hcompacted : update.compacted = true) (slot : Nat) :
    update.changes[slot]? =
      ((tree.settled oracle detail).2.changes[slot]?).or
        (if slot ∈ (tree.settled oracle detail).2.stale then some .vacate
          else none) := by
  obtain ⟨changes, hoverwrites, hchanges⟩ := h.changes
  rw [hchanges, Buffer.getElem?_stale, hoverwrites.getElem?_eq]
  intro hvacate
  have hfill := fill_of_settleAll (h.compacted.symm.trans hcompacted) _ hvacate
  simp at hfill

theorem Succeeds.chunkOf_eq (h : tree.Succeeds oracle detail update next) :
    next.chunkOf detail = (tree.pass oracle detail).chunk := by
  funext cell
  rw [chunkOf, h.layout, h.settings]
  rfl

/-- In a frame that keeps the buffer, slots go from the free ones to nodes and
from nodes to the pending ones, and in no other way. -/
theorem Succeeds.moves (h : tree.Succeeds oracle detail update next)
    (hkept : update.compacted = false) :
    Moves (tree.pass oracle detail) tree.listing next.listing
      { slots := tree.slots.reclaim } (tree.settled oracle detail).2 := by
  have hstart := h.start_of_kept hkept
  have hmoves := @moves_settleAll (tree.pass oracle detail)
    (congrArg Prod.snd hstart) (tree.plan oracle).1
    { slots := tree.frameStart.1 }
  have hslots : tree.frameStart.1 = tree.slots.reclaim :=
    congrArg Prod.fst hstart
  rw [map_fst_plan, hslots] at hmoves
  rw [h.listing, settled, hslots]
  exact hmoves

/-- A slot that was held was not free, so no other node can have taken it. -/
theorem Succeeds.holder_eq (h : tree.Succeeds oracle detail update next)
    (hkept : update.compacted = false)
    (haccounts : tree.slots.Accounts tree.held) {path path' : List Octant}
    {slot : Nat} (hbefore : (path, slot) ∈ tree.holdings)
    (hholding : (path', slot) ∈ next.holdings) : path' = path := by
  rcases (h.moves hkept).taken _ hholding with hholding | hfree
  · exact eq_of_holdings haccounts hbefore hholding
  · have hheld : slot ∈ tree.held := mem_held_of_holdings hbefore
    exact absurd (List.mem_append_right _ hfree)
      (haccounts.reclaim.not_mem_of_held hheld)

theorem Succeeds.change_sound (h : tree.Succeeds oracle detail update next)
    (hkept : update.compacted = false) {slot : Nat} {change : Change}
    (hchange : update.changes[slot]? = some change) :
    change.Sound (tree.pass oracle detail) next.slots next.listing slot := by
  rcases h.overwrites_of_kept hkept slot with
    hsame | ⟨_, entry, hentry, hslot, hfill⟩
  · rw [hsame] at hchange
    rw [h.slots]
    refine ((h.moves hkept).changes slot change hchange).resolve_left ?_
    simp
  · rw [hfill] at hchange
    exact .inr ⟨entry, hentry, hslot, (Option.some.inj hchange).symm⟩

/-- When all slots have been accounted for, a slot that is given up is nobody's,
so it has not been filled either. -/
theorem Succeeds.getElem?_of_kept
    (h : tree.Succeeds oracle detail update next)
    (hkept : update.compacted = false)
    (haccounts : tree.slots.Accounts tree.held) (slot : Nat) :
    update.changes[slot]? =
      (tree.settled oracle detail).2.changes[slot]? := by
  apply (h.overwrites_of_kept hkept).getElem?_eq
  intro hvacate entry hentry hheld
  have hsound := ((h.moves hkept).changes slot _ hvacate).resolve_left (by simp)
  rcases hsound with ⟨_, hpending⟩ | ⟨_, _, _, hfill⟩
  · rw [← h.slots, (h.accounts (.inl haccounts)).isPending_eq_false
      (held_subset_heldBy hentry hheld)] at hpending
    cases hpending
  · cases hfill

theorem Succeeds.rewritesOwn (h : tree.Succeeds oracle detail update next)
    (hkept : update.compacted = false)
    (haccounts : tree.slots.Accounts tree.held) :
    tree.RewritesOwn next detail update := by
  intro path slot chunk hbefore hchunk
  rcases h.change_sound hkept hchunk with
    ⟨hvacate, _⟩ | ⟨entry, hentry, hslot, hfill⟩
  · cases hvacate
  · have hholding : (entry.path, slot) ∈ next.holdings :=
      mem_holdingsBy.mpr ⟨entry, hentry, rfl, hslot⟩
    refine ⟨entry, hentry, ?_, hslot, ?_⟩
    · exact h.holder_eq hkept haccounts hbefore hholding
    · rw [h.chunkOf_eq]
      exact Change.fill.inj hfill

theorem Succeeds.respects (h : tree.Succeeds oracle detail update next)
    (hkept : update.compacted = false)
    (haccounts : tree.slots.Accounts tree.held) :
    Respects tree next detail update where
  tenant := fun _ _ _ => h.holder_eq hkept haccounts
  written := h.rewritesOwn hkept haccounts
  given_up := by
    intro path slot hbefore
    rw [h.slots]
    exact (h.moves hkept).kept _ hbefore
  vacated := by
    intro slot hvacate
    rcases h.change_sound hkept hvacate with ⟨_, hpending⟩ | ⟨_, _, _, hfill⟩
    · exact hpending
    · cases hfill
  waiting := by
    intro slot hpending hslot
    rw [(h.accounts (.inl haccounts)).isPending_eq_false hslot] at hpending
    cases hpending

/-- The walk of a frame that places every node anew fills the slots that nodes
hold afterwards with the chunks of these nodes, and no other ones. -/
theorem Succeeds.tracks_of_compacted
    (h : tree.Succeeds oracle detail update next) (htree : tree.Valid)
    (hcompacted : update.compacted = true) :
    Tracks .empty next.held next.slots (tree.settled oracle detail).2.changes ∧
      ∀ entry ∈ next.listing, entry.Mirrored (tree.pass oracle detail)
        (Buffer.empty.after (tree.settled oracle detail).2.changes) := by
  have hstart := h.start_of_compacted hcompacted
  have hpass : (tree.pass oracle detail).compacting = true :=
    congrArg Prod.snd hstart
  have hbegun : Tracks .empty (trackedBy (tree.pass oracle detail)
      ((tree.plan oracle).1.map Prod.fst) ++ []) tree.frameStart.1 ∅ := by
    rw [trackedBy, hpass, if_pos rfl, hstart]
    refine ⟨SlotPool.Accounts.ofCapacity _, fun slot => ?_⟩
    rw [Buffer.after_empty]
    simp [Buffer.empty]
  have hrecorded : (tree.pass oracle detail).compacting = false →
      ∀ entry ∈ (tree.plan oracle).1.map Prod.fst,
        entry.Recorded (tree.pass oracle detail) (Buffer.empty.after ∅) := by
    intro hkept
    rw [hpass] at hkept
    cases hkept
  obtain ⟨htracks, hmirrored, _⟩ :=
    @tracks_settleAll (tree.pass oracle detail) .empty []
      { slots := tree.frameStart.1 } htree.chunkOf_ne_nil (tree.plan oracle).1
      h.done hrecorded hbegun
  rw [List.append_nil] at htracks
  rw [h.held, h.slots, h.listing]
  exact ⟨htracks, hmirrored⟩

/-- So it reports no slot as emptied that has a new holder. -/
theorem Succeeds.emptied_of_compacted
    (h : tree.Succeeds oracle detail update next) (htree : tree.Valid)
    (hcompacted : update.compacted = true) {slot : Nat}
    (hvacate : update.changes[slot]? = some .vacate) : slot ∉ next.held := by
  rw [← (h.tracks_of_compacted htree hcompacted).1.filled, Buffer.after]
  rw [h.getElem?_of_compacted hcompacted] at hvacate
  -- A change of the walk goes before the emptying of a stale slot.
  cases hchange : (tree.settled oracle detail).2.changes[slot]? with
  | none => exact Bool.false_ne_true
  | some change =>
      rw [hchange, Option.some_or, Option.some_inj] at hvacate
      rw [hvacate]
      exact Bool.false_ne_true

theorem Succeeds.lags (h : tree.Succeeds oracle detail update next)
    (htree : tree.Valid)
    (hsound : tree.slots.Accounts tree.held ∨ update.compacted = true) :
    Lags tree next detail update := by
  cases hcompacted : update.compacted with
  | true =>
      refine ⟨fun hkept => ?_, fun _ => h.emptied_of_compacted htree hcompacted⟩
      rw [hcompacted] at hkept
      cases hkept
  | false =>
      rw [hcompacted, or_iff_left Bool.false_ne_true] at hsound
      have hrespects := h.respects hcompacted hsound
      exact ⟨fun _ => hrespects, fun slot hvacate =>
        hrespects.waiting slot (hrespects.vacated slot hvacate)⟩

/-! ## Frames in a row -/

/-- Of two frames in a row that succeed, with insertions between them, each
respects what it finds, unless it compacts the buffer.  The session is in order
when the first one begins, or the first one puts it in order by a compaction. -/
theorem Reachable.lag (htree : Reachable tree)
    (hfirst : (tree.runFrame oracle detail time).outcome = .ok update)
    (hsound : Tidy tree ∨ update.compacted = true)
    {between : List Action}
    (hbetween : ∀ action ∈ between, action.inserts = true)
    (hsecond : (((tree.runFrame oracle detail time).tree.run between).runFrame
      oracle' detail' time').outcome = .ok update') :
    let after := (tree.runFrame oracle detail time).tree
    let second := ((after.run between).runFrame oracle' detail' time').tree
    Lags tree after detail update ∧ Lags after second detail' update' := by
  intro after second
  have hbegun : Reachable (after.run between) :=
    Reachable.run (htree.act (.runFrame oracle detail time)) between
  have hsucceeds := succeeds_runFrame htree.unnested hfirst
  have hsucceeds' := succeeds_runFrame hbegun.unnested hsecond
  have hsound' := hsound.imp_left Tidy.accounts
  have hholdings : (after.run between).holdings = after.holdings :=
    holdings_run hbetween
  have haccounts : (after.run between).slots.Accounts
      (after.run between).held := by
    rw [slots_run hbetween, ← map_snd_holdings, hholdings, map_snd_holdings]
    exact hsucceeds.accounts hsound'
  refine ⟨hsucceeds.lags htree.valid hsound', ?_⟩
  obtain ⟨hrespects, hemptied⟩ := hsucceeds'.lags hbegun.valid (.inl haccounts)
  refine ⟨fun hkept => ?_, hemptied⟩
  obtain ⟨htenant, hwritten, hgivenUp, hvacated, hwaiting⟩ := hrespects hkept
  rw [RewritesOwn, hholdings] at hwritten
  rw [hholdings] at htenant hgivenUp
  exact ⟨htenant, hwritten, hgivenUp, hvacated, hwaiting⟩

/-! ## Two leaves in two slots -/

/-- The second and the last leaf hold the two slots. -/
def crowdedFull : Tree :=
  crowded.act (.runFrame (glimpse [1, 7]) .positions none)

/-- When the second leaf gets out of sight, its slot is pending and the last
leaf keeps the other one. -/
theorem lag_crowded :
    ∃ first second,
      (crowded.runFrame (glimpse [1, 7]) .positions none).outcome = .ok first ∧
      ((crowdedFull.run [.insert (cornerStar (.ofIndex 3))]).runFrame
        (glimpse [7]) .positions none).outcome = .ok second ∧
      second.compacted = false ∧
      crowdedFull.holdings = [([.ofIndex 1], 0), ([.ofIndex 7], 1)] ∧
      Lags crowded crowdedFull .positions first ∧
      Lags crowdedFull
        ((crowdedFull.run [.insert (cornerStar (.ofIndex 3))]).runFrame
          (glimpse [7]) .positions none).tree .positions second := by
  have hok : (crowded.runFrame (glimpse [1, 7]) .positions
      none).outcome.isOk = true := by
    decide +kernel
  have hok' : ((crowdedFull.run [.insert (cornerStar (.ofIndex 3))]).runFrame
      (glimpse [7]) .positions none).outcome.isOk = true := by
    decide +kernel
  have hstart : (crowdedFull.run
      [.insert (cornerStar (.ofIndex 3))]).frameStart.2 = false := by
    decide +kernel
  have hholdings : crowdedFull.holdings =
      [([.ofIndex 1], 0), ([.ofIndex 7], 1)] := by
    decide +kernel
  obtain ⟨first, hfirst⟩ := exists_ok_of_isOk hok
  obtain ⟨second, hsecond⟩ := exists_ok_of_isOk hok'
  have hreachable : Reachable crowded := managed_crowded.reachable
  have hfull : Reachable crowdedFull := hreachable.act _
  have hsucceeds := succeeds_runFrame
    (@Reachable.unnested _ (@Reachable.run crowdedFull hfull _)) hsecond
  have hkept : second.compacted = false := hsucceeds.compacted.trans hstart
  obtain ⟨hlags, hlags'⟩ := @Reachable.lag crowded _ _ _ _ _ _ _ _ hreachable
    hfirst (.inl (managed_crowded.tidy rfl)) [.insert (cornerStar (.ofIndex 3))]
    (List.forall_mem_singleton.mpr rfl) hsecond
  exact ⟨first, second, hfirst, hsecond, hkept, hholdings, hlags, hlags'⟩

/-! ## What is overwritten -/

def fills (outcome : Except Fault Update) (slot : Nat) : Bool :=
  outcome.toOption.any fun update =>
    update.changes[slot]?.any (· ≠ .vacate)

/-- A frame that fills a slot whose holder has lost it overwrites what was in
there. -/
theorem exists_not_rewritesOwn {outcome : Except Fault Update}
    {holding : List Octant × Nat} (detail : Detail)
    (hfills : fills outcome holding.2 = true)
    (hbefore : holding ∈ tree.holdings) (hafter : holding ∉ next.holdings) :
    ∃ update, outcome = .ok update ∧ ¬ tree.RewritesOwn next detail update := by
  obtain ⟨path, slot⟩ := holding
  cases outcome with
  | error fault => cases hfills
  | ok update =>
      refine ⟨update, rfl, fun hrewrites => hafter ?_⟩
      have hfills : update.changes[slot]?.any (· ≠ .vacate) = true := hfills
      obtain ⟨change, hchange, hfill⟩ := (Option.any_eq_true _ _).mp hfills
      cases change with
      | vacate => exact absurd hfill (by decide)
      | fill chunk =>
          obtain ⟨entry, hentry, hpath, hslot, _⟩ :=
            hrewrites path slot chunk hbefore hchange
          exact mem_holdingsBy.mpr ⟨entry, hentry, hpath, hslot⟩

/-- A frame that compacts the buffer may give the slot of a node to another node
at once.  After a frame that has failed to place every node anew, so may a frame
that keeps the buffer, since a slot may be pending that is in use. -/
theorem not_forall_rewritesOwn :
    (¬ ∀ (tree : Tree) (oracle oracle' : Oracle) (detail : Detail)
      (time : Option Nat) (update update' : Update), Managed tree false →
      (tree.runFrame oracle detail time).outcome = .ok update →
      ((tree.runFrame oracle detail time).tree.runFrame oracle' detail
        time).outcome = .ok update' →
      (tree.runFrame oracle detail time).tree.RewritesOwn
        ((tree.runFrame oracle detail time).tree.runFrame oracle' detail
          time).tree detail update') ∧
    (¬ ∀ (tree : Tree) (oracle oracle' : Oracle) (detail : Detail)
      (time : Option Nat) (update update' : Update), Reachable tree →
      (tree.runFrame oracle detail time).outcome = .ok update →
      ((tree.runFrame oracle detail time).tree.runFrame oracle' detail
        time).outcome = .ok update' →
      update'.compacted = false →
      (tree.runFrame oracle detail time).tree.RewritesOwn
        ((tree.runFrame oracle detail time).tree.runFrame oracle' detail
          time).tree detail update') := by
  constructor
  · intro h
    have hok : (crowded.runFrame (seesAfter 7) .positions
        none).outcome.isOk = true := by
      decide +kernel
    have hfills : fills (crowdedOnce.runFrame (seesAfter 0) .positions
        none).outcome 0 = true := by
      decide +kernel
    have hbefore : ([.ofIndex 7], 0) ∈ crowdedOnce.holdings := by
      decide +kernel
    have hafter : ([.ofIndex 7], 0) ∉ (crowdedOnce.runFrame (seesAfter 0)
        .positions none).tree.holdings := by
      decide +kernel
    obtain ⟨update, hfirst⟩ := exists_ok_of_isOk hok
    obtain ⟨update', hsecond, hoverwrites⟩ :=
      exists_not_rewritesOwn .positions hfills hbefore hafter
    exact hoverwrites (h crowded _ _ _ _ _ _ managed_crowded hfirst hsecond)
  · intro h
    have hok : (narrowStalled.runFrame (glimpse [1, 3, 5, 7, 10]) .positions
        none).outcome.isOk = true := by
      decide +kernel
    have hstart : narrowTwice.frameStart.2 = false := by decide +kernel
    have hfills : fills (narrowTwice.runFrame (glimpse [1, 3, 7, 9, 10])
        .positions none).outcome 2 = true := by
      decide +kernel
    have hbefore : ([.ofIndex 5], 2) ∈ narrowTwice.holdings := by
      decide +kernel
    have hafter : ([.ofIndex 5], 2) ∉ (narrowTwice.runFrame
        (glimpse [1, 3, 7, 9, 10]) .positions none).tree.holdings := by
      decide +kernel
    obtain ⟨update, hfirst⟩ := exists_ok_of_isOk hok
    obtain ⟨update', hsecond, hoverwrites⟩ :=
      @exists_not_rewritesOwn narrowTwice _ _ ([.ofIndex 5], 2) .positions
        hfills hbefore hafter
    have hsucceeds := succeeds_runFrame
      (@Reachable.unnested narrowTwice reachable_narrowTwice) hsecond
    have hkept : update'.compacted = false := hsucceeds.compacted.trans hstart
    have htwice : (narrowStalled.runFrame (glimpse [1, 3, 5, 7, 10]) .positions
        none).tree = narrowTwice := rfl
    have hrewrites := h narrowStalled (glimpse [1, 3, 5, 7, 10])
      (glimpse [1, 3, 7, 9, 10]) .positions none update update'
      reachable_narrowStalled hfirst
    rw [htwice] at hrewrites
    exact hoverwrites (hrewrites hsecond hkept)

end Tree

end Starfield
