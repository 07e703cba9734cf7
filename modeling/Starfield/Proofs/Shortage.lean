import Mathlib.Data.Finset.Card
import Starfield.Proofs.Cut
import Starfield.Proofs.Extension
import Starfield.Proofs.Frame.Packing
import Starfield.Proofs.Shape

/-!
# When the slots run out

A slot that is given up during a frame is of no use to that frame.  So a frame
that keeps the buffer needs a slot for every node that holds one when it begins
and for every node that it is to draw, in whatever order it comes to them.  A
frame that places every node anew needs slots for the nodes to be drawn only.
When there are fewer slots than are needed, and only then, the frame fails.
-/

namespace Starfield

variable {pass : Pass} {walk : Walk}

/-! ## Keeping the buffer -/

/-- Whether a node is to be drawn and holds no slot yet. -/
def isNewcomer (planned : Entry × Bool) : Bool :=
  planned.2 && !planned.1.isResident

theorem isNewcomer_of_vacant {entry : Entry} (h : entry.cell.tenancy = none) :
    isNewcomer (entry, true) = true := by
  rw [isNewcomer, Entry.isResident_of_vacant h]
  rfl

/-- A node takes one of the free slots when it is a newcomer, and none
otherwise.  A newcomer that finds no slot is where a frame ends. -/
structure TakesSlot (planned : Entry × Bool) (walk next : Walk) : Prop where
  room : next.exhausted = false ↔
    (isNewcomer planned).toNat ≤ walk.slots.freeCount
  left : next.exhausted = false →
    next.slots.freeCount + (isNewcomer planned).toNat = walk.slots.freeCount

/-- A node that needs no slot takes none. -/
theorem takes_of_not_newcomer {planned : Entry × Bool} {next : Walk}
    (hold : isNewcomer planned = false) (hrunning : next.exhausted = false)
    (hfree : next.slots.freeCount = walk.slots.freeCount) :
    TakesSlot planned walk next := by
  refine ⟨?_, fun _ => ?_⟩ <;> rw [hold]
  · exact iff_of_true hrunning (Nat.zero_le _)
  · exact hfree

theorem Cell.Seats.takes {entry : Entry} {stars sampled : Nat}
    {seated : Cell × Walk × Bool} (hpass : pass.compacting = false)
    (h : entry.cell.Seats pass stars sampled walk seated)
    (hrunning : walk.exhausted = false) :
    TakesSlot (entry, true) walk seated.2.1 := by
  cases h with
  | kept hcell | rewritten hcell =>
      refine takes_of_not_newcomer ?_ hrunning rfl
      simp [isNewcomer, Entry.isResident, hcell]
  | placed hcell hslot =>
      have hnew := isNewcomer_of_vacant
        (hcell.resolve_right (by simp [hpass]))
      obtain ⟨free, hfree, rfl⟩ := SlotPool.acquire?_eq_some hslot
      have hcount : walk.slots.freeCount = free.length + 1 :=
        congrArg List.length hfree
      refine ⟨?_, fun _ => ?_⟩ <;> rw [hnew, hcount]
      · exact iff_of_true hrunning (Nat.le_add_left _ _)
      · rfl
  | refused hcell hslot =>
      have hnew := isNewcomer_of_vacant
        (hcell.resolve_right (by simp [hpass]))
      have hcount : walk.slots.freeCount = 0 :=
        congrArg List.length ((SlotPool.acquire?_eq_none_iff _).mp hslot)
      refine ⟨?_, fun hdone => (Bool.true_eq_false.mp hdone).elim⟩
      rw [hnew, hcount]
      exact iff_of_false Bool.true_eq_false.mp (by decide)

theorem Entry.Settles.takes {drawn : Bool} {entry : Entry}
    {settled : Entry × Walk} (hpass : pass.compacting = false)
    (h : entry.Settles pass walk drawn settled)
    (hrunning : walk.exhausted = false) :
    TakesSlot (entry, drawn) walk settled.2 := by
  cases h with
  | seated hseats => exact hseats.takes hpass hrunning
  | vacated hvacates =>
      refine takes_of_not_newcomer rfl
        (hvacates.exhausted_eq.trans hrunning) ?_
      cases hvacates <;> rfl

/-- As long as the buffer is kept, the slots run out just when there are more
newcomers than free slots, wherever in the plan they stand. -/
theorem done_settleAll_iff (hpass : pass.compacting = false)
    (plan : List (Entry × Bool)) (hrunning : walk.exhausted = false) :
    (settleAll pass plan walk).2.exhausted = false ↔
      plan.countP isNewcomer ≤ walk.slots.freeCount := by
  induction plan generalizing walk with
  | nil => exact iff_of_true hrunning (Nat.zero_le _)
  | cons head plan ih =>
      obtain ⟨entry, drawn⟩ := head
      obtain ⟨hroom, hleft⟩ :=
        (Entry.settles_settle pass drawn entry walk).takes hpass hrunning
      have hcount : ((entry, drawn) :: plan).countP isNewcomer =
          plan.countP isNewcomer + (isNewcomer (entry, drawn)).toNat := by
        rw [List.countP_cons]
        cases isNewcomer (entry, drawn) <;> rfl
      rw [settleAll_cons hrunning, hcount]
      cases hhere : (entry.settle pass drawn walk).2.exhausted with
      | false =>
          have hfree := hleft hhere
          rw [ih hhere]
          omega
      | true =>
          have hfull := mt hroom.mpr (by simp [hhere])
          rw [settleAll_of_exhausted _ hhere]
          refine iff_of_false (by simp [hhere]) ?_
          omega

/-! ## Nodes that need a slot -/

/-- The members of a list that have one of two properties, told apart by a key,
are counted without counting any of them twice. -/
theorem card_union_filter {α β : Type} [DecidableEq β] {key : α → β}
    {xs : List α} (hkeys : (xs.map key).Nodup) (p q : α → Bool) :
    (((xs.filter p).map key).toFinset ∪
        ((xs.filter q).map key).toFinset).card =
      xs.countP fun x => p x || q x := by
  have hunion : ((xs.filter p).map key).toFinset ∪
      ((xs.filter q).map key).toFinset =
        ((xs.filter fun x => p x || q x).map key).toFinset := by
    ext k
    simp only [Finset.mem_union, List.mem_toFinset, List.mem_map,
      List.mem_filter, Bool.or_eq_true]
    constructor
    · rintro (⟨x, ⟨hx, hp⟩, rfl⟩ | ⟨x, ⟨hx, hq⟩, rfl⟩)
      · exact ⟨x, ⟨hx, .inl hp⟩, rfl⟩
      · exact ⟨x, ⟨hx, .inr hq⟩, rfl⟩
    · rintro ⟨x, ⟨hx, hp | hq⟩, rfl⟩
      · exact .inl ⟨x, ⟨hx, hp⟩, rfl⟩
      · exact .inr ⟨x, ⟨hx, hq⟩, rfl⟩
  rw [hunion, List.toFinset_card_of_nodup, List.length_map,
    List.countP_eq_length_filter]
  exact hkeys.sublist (List.filter_sublist.map key)

/-- The nodes that are to be drawn and those that hold slots are the latter and
the newcomers. -/
theorem countP_newcomers (plan : List (Entry × Bool)) :
    (plan.countP fun planned => planned.1.isResident || planned.2) =
      plan.countP (fun planned => planned.1.isResident) +
        plan.countP isNewcomer := by
  induction plan with
  | nil => rfl
  | cons head plan ih =>
      obtain ⟨entry, drawn⟩ := head
      rw [List.countP_cons, List.countP_cons, List.countP_cons, ih]
      cases hentry : entry.isResident <;> cases drawn <;>
        simp only [isNewcomer, hentry, Bool.or_true, Bool.or_false,
          Bool.true_and, Bool.false_and, Bool.not_true, Bool.not_false,
          if_true, if_neg Bool.false_ne_true] <;>
        omega

theorem map_path_plannedDrawing? (plan : List (Entry × Bool)) :
    (plan.filterMap plannedDrawing?).map Drawing.path =
      (plan.filter Prod.snd).map fun planned => planned.1.path := by
  induction plan with
  | nil => rfl
  | cons head plan ih =>
      obtain ⟨entry, drawn⟩ := head
      cases drawn with
      | false => simpa [plannedDrawing?] using ih
      | true => simpa [plannedDrawing?] using ih

namespace Tree

variable {tree : Tree}

/-- The paths of the nodes that are to be drawn for a view. -/
def wanted (tree : Tree) (view : View) : Finset (List Octant) :=
  ((tree.cut view).map Drawing.path).toFinset

theorem nodup_paths_plan (tree : Tree) (oracle : Oracle) :
    ((tree.plan oracle).1.map fun planned => planned.1.path).Nodup := by
  have hpaths := tree.nodup_paths
  rwa [← tree.map_fst_plan oracle, List.map_map] at hpaths

theorem holders_eq (tree : Tree) (oracle : Oracle) :
    tree.holders =
      (((tree.plan oracle).1.filter fun planned =>
        planned.1.isResident).map fun planned => planned.1.path).toFinset := by
  rw [holders, residents, ← tree.map_fst_plan oracle, List.filter_map,
    List.map_map]
  rfl

theorem wanted_eq (tree : Tree) (view : View) :
    tree.wanted view =
      (((tree.plan view.oracle).1.filter Prod.snd).map fun planned =>
        planned.1.path).toFinset := by
  rw [wanted, ← (tree.marks_plan view []).1, map_path_plannedDrawing?]
  rfl

theorem card_holders_union_wanted (tree : Tree) (view : View) :
    (tree.holders ∪ tree.wanted view).card =
      (tree.plan view.oracle).1.countP fun planned =>
        planned.1.isResident || planned.2 := by
  rw [tree.holders_eq view.oracle, wanted_eq,
    card_union_filter (tree.nodup_paths_plan view.oracle)]

theorem card_wanted (tree : Tree) (view : View) :
    (tree.wanted view).card = drawnCount (tree.plan view.oracle).1 := by
  rw [wanted_eq, List.toFinset_card_of_nodup, List.length_map, drawnCount,
    List.countP_eq_length_filter]
  exact (tree.nodup_paths_plan view.oracle).sublist
    (List.filter_sublist.map _)

/-! ## One frame -/

/-- The number of slots that a frame needs. -/
def demand (tree : Tree) (oracle : Oracle) : Nat :=
  if tree.frameStart.2 then drawnCount (tree.plan oracle).1
  else
    (tree.plan oracle).1.countP fun planned =>
      planned.1.isResident || planned.2

theorem length_plan (tree : Tree) (oracle : Oracle) :
    (tree.plan oracle).1.length = tree.listing.length := by
  rw [← tree.map_fst_plan oracle, List.length_map]

/-- No frame needs more slots than there are nodes. -/
theorem demand_le (tree : Tree) (oracle : Oracle) :
    tree.demand oracle ≤ tree.listing.length := by
  rw [demand, ← tree.length_plan oracle]
  split
  · exact List.countP_le_length
  · exact List.countP_le_length

/-- In a settled tree a frame has a slot for every node to be drawn just when
there are as many slots as it needs. -/
theorem done_iff (htree : tree.Unnested)
    (haccounts : tree.slots.Accounts tree.held) (oracle : Oracle)
    (detail : Detail) :
    (tree.settled oracle detail).2.exhausted = false ↔
      tree.demand oracle ≤ tree.slots.capacity := by
  rw [demand]
  rcases frameStart_cases tree with hstart | hstart
  · -- What is neither free nor held was pending and is reclaimed.
    have hfree : tree.frameStart.1.freeCount + tree.residents.length =
        tree.slots.capacity := by
      have hlength := haccounts.partition.length_eq
      rw [List.length_append, List.length_range, length_held] at hlength
      rw [hstart, Nat.add_comm]
      exact hlength
    have hresidents : (tree.plan oracle).1.countP
        (fun planned => planned.1.isResident) = tree.residents.length := by
      rw [residents, ← tree.map_fst_plan oracle, ← List.countP_eq_length_filter,
        List.countP_map]
      rfl
    have hdone := @done_settleAll_iff (tree.pass oracle detail)
      { slots := tree.frameStart.1 } (congrArg Prod.snd hstart)
      (tree.plan oracle).1 rfl
    rw [if_neg (by simp [hstart]), countP_newcomers, hresidents, settled, hdone,
      ← hfree, Nat.add_comm, Nat.add_le_add_iff_right]
  · rw [if_pos (by simp [hstart])]
    exact (packs_frame htree hstart oracle detail).2

/-- No frame changes the number of slots. -/
theorem capacity_settled (tree : Tree) (oracle : Oracle) (detail : Detail) :
    (tree.settled oracle detail).2.slots.capacity = tree.slots.capacity := by
  rw [settled, capacity_settleAll]
  rcases frameStart_cases tree with hstart | hstart <;> rw [hstart] <;> rfl

/-- A frame fails only because of the slots, and it says how many there are. -/
theorem outcome_eq_error_iff (htree : tree.Unnested)
    (haccounts : tree.slots.Accounts tree.held) (oracle : Oracle)
    (detail : Detail) (time : Option Nat) (fault : Fault) :
    (tree.runFrame oracle detail time).outcome = .error fault ↔
      fault = .slotsExhausted tree.slots.capacity ∧
        tree.slots.capacity < tree.demand oracle := by
  have hdone := done_iff htree haccounts oracle detail
  obtain ⟨log, hrun⟩ := @exists_runFrame_eq tree oracle detail time
  rw [hrun]
  cases hexhausted : (tree.settled oracle detail).2.exhausted with
  | false =>
      obtain ⟨update, hok, _⟩ := exists_reports oracle detail htree hexhausted
      refine iff_of_false (by simp [hok]) fun h => ?_
      exact absurd (hdone.mp hexhausted) (Nat.not_le_of_lt h.2)
  | true =>
      have hshort : tree.slots.capacity < tree.demand oracle :=
        Nat.lt_of_not_le (mt hdone.mpr (by simp [hexhausted]))
      rw [outcome_of_exhausted oracle detail htree hexhausted,
        capacity_settled, Except.error.injEq, and_iff_left hshort, eq_comm]

/-- A tree whose nodes and slots fit together accounts for all slots. -/
theorem Owned.accounts (h : tree.Owned false) :
    tree.slots.Accounts tree.held where
  partition := by
    have hpending : tree.slots.pending.toList.Nodup :=
      Std.TreeSet.distinct_toList.imp fun hne hsame =>
        hne (Nat.compare_eq_eq.mpr hsame)
    have hrest : (tree.slots.pending.toList ++ tree.slots.free).Nodup := by
      refine hpending.append h.free_nodup fun slot hslot => ?_
      exact h.pending_apart slot ((SlotPool.isPending_iff _ slot).mpr hslot)
    have hnodup : (tree.held ++
        (tree.slots.pending.toList ++ tree.slots.free)).Nodup := by
      refine (h.held_nodup rfl).append hrest fun slot hslot hother => ?_
      obtain ⟨hidle, hfree⟩ := h.held_apart slot hslot
      rcases List.mem_append.mp hother with hother | hother
      · rw [(SlotPool.isPending_iff _ slot).mpr hother] at hidle
        cases hidle
      · exact hfree hother
    rw [List.perm_ext_iff_of_nodup hnodup List.nodup_range]
    intro slot
    rw [List.mem_range, h.covered, List.mem_append, List.mem_append,
      SlotPool.isPending_iff]
  marked := by
    intro slot hslot
    rw [List.mem_append, ← SlotPool.isPending_iff] at hslot
    exact h.marked slot hslot
  bounded := h.bounded
  sound := h.sound

/-! ## A slot for every node -/

/-- The figures kept tell how many nodes there are. -/
theorem Reachable.nodes_eq (h : Reachable tree) :
    tree.census.nodes = tree.listing.length := by
  rw [Census.nodes, h.census_eq, recount_eq_sum,
    List.length_eq_length_filter_add Entry.isLeaf]
  exact congrArg₂ (· + ·) (leaves_sum_census tree.listing)
    (inner_sum_census tree.listing)

/-- No node ever goes away. -/
theorem nodes_le_act (tree : Tree) (action : Action) :
    tree.census.nodes ≤ (tree.act action).census.nodes := by
  refine act_induction (P := fun next => tree.census.nodes ≤ next.census.nodes)
    (fun h hinsert => h.trans ?_) (fun h halike => ?_) (Nat.le_refl _) action
  · obtain ⟨_, node, growth, _, rfl⟩ := insert_eq_ok_iff.mp hinsert
    exact Nat.add_le_add (Nat.le_add_right _ _) (Nat.le_add_right _ _)
  · rwa [halike.census]

theorem nodes_le_run (tree : Tree) (actions : List Action) :
    tree.census.nodes ≤ (tree.run actions).census.nodes :=
  run_induction (P := fun next => tree.census.nodes ≤ next.census.nodes)
    (fun next action h => h.trans (next.nodes_le_act action)) (Nat.le_refl _)
    actions

/-- A frame that has a slot for every node succeeds. -/
theorem Reachable.done_of_nodes_le (h : Reachable tree)
    (haccounts : tree.slots.Accounts tree.held)
    (hfits : tree.census.nodes ≤ tree.slots.capacity) (oracle : Oracle)
    (detail : Detail) : (tree.settled oracle detail).2.exhausted = false := by
  rw [h.nodes_eq] at hfits
  exact (done_iff h.unnested haccounts oracle detail).mpr
    ((tree.demand_le oracle).trans hfits)

end Tree

def Action.resizes : Action → Bool
  | insert _ => false
  | insertFlat _ => false
  | resizeBuffer _ => true
  | runFrame _ _ _ => false

namespace Tree

variable {tree : Tree}

/-- One action of a session in which there is a slot for every node leaves all
slots accounted for. -/
theorem Reachable.accounts_act (h : Reachable tree)
    (haccounts : tree.slots.Accounts tree.held)
    (hfits : tree.census.nodes ≤ tree.slots.capacity) {action : Action}
    (haction : action.resizes = false) :
    (tree.act action).slots.Accounts (tree.act action).held ∧
      (tree.act action).slots.capacity = tree.slots.capacity := by
  have hgains : ∀ {before next : Tree} {star : Star},
      (before.slots.Accounts before.held ∧
        before.slots.capacity = tree.slots.capacity) →
      before.Gains star next →
        next.slots.Accounts next.held ∧
          next.slots.capacity = tree.slots.capacity := by
    intro before next star hbefore hgains
    rwa [hgains.slots, hgains.held_eq]
  cases action with
  | insert star => exact act_insert_induction hgains ⟨haccounts, rfl⟩ star
  | insertFlat values =>
      exact insertFlat_induction hgains ⟨haccounts, rfl⟩ values
  | resizeBuffer capacity => cases haction
  | runFrame oracle detail time =>
      obtain ⟨update, hframe⟩ := exists_runFrame_ok h.unnested time
        (h.done_of_nodes_le haccounts hfits oracle detail)
      have hsucceeds := succeeds_runFrame h.unnested hframe
      refine ⟨hsucceeds.accounts (.inl haccounts), ?_⟩
      exact (congrArg SlotPool.capacity hsucceeds.slots).trans
        (capacity_settled tree oracle detail)

theorem Reachable.accounts_run (h : Reachable tree)
    (haccounts : tree.slots.Accounts tree.held) {actions : List Action}
    (hactions : ∀ action ∈ actions, action.resizes = false)
    (hfits : (tree.run actions).census.nodes ≤ tree.slots.capacity) :
    (tree.run actions).slots.Accounts (tree.run actions).held ∧
      (tree.run actions).slots.capacity = tree.slots.capacity := by
  induction actions generalizing tree with
  | nil => exact ⟨haccounts, rfl⟩
  | cons action actions ih =>
      rw [List.forall_mem_cons] at hactions
      have hfits' : tree.census.nodes ≤ tree.slots.capacity :=
        (tree.nodes_le_run (action :: actions)).trans hfits
      obtain ⟨haccounts', hcapacity⟩ :=
        h.accounts_act haccounts hfits' hactions.1
      have hrest := ih (h.act action) haccounts' hactions.2
        (hcapacity ▸ hfits)
      exact ⟨hrest.1, hrest.2.trans hcapacity⟩

/-- A frame for a view fails just when there are fewer slots than it needs: one
for every node that holds a slot or is to be drawn, and when every node is
placed anew, one for every node that is to be drawn.  With a slot for every node
no frame ever fails, whatever is seen and inserted. -/
theorem Reachable.shortage (h : Reachable tree) (howned : tree.Owned false) :
    (∀ (view : View) (detail : Detail) (time : Option Nat) (fault : Fault),
      (tree.runFrame view.oracle detail time).outcome = .error fault ↔
        fault = .slotsExhausted tree.slots.capacity ∧
          tree.slots.capacity <
            if tree.frameStart.2 then (tree.wanted view).card
            else (tree.holders ∪ tree.wanted view).card) ∧
    ∀ actions : List Action,
      (∀ action ∈ actions, action.resizes = false) →
      (tree.run actions).census.nodes ≤ tree.slots.capacity →
        ∀ (oracle : Oracle) (detail : Detail) (time : Option Nat),
          ∃ update, ((tree.run actions).runFrame oracle detail
            time).outcome = .ok update := by
  constructor
  · intro view detail time fault
    rw [outcome_eq_error_iff h.unnested howned.accounts, demand,
      card_holders_union_wanted, card_wanted]
  · intro actions hactions hfits oracle detail time
    obtain ⟨haccounts, hcapacity⟩ :=
      h.accounts_run howned.accounts hactions hfits
    have hrun : Reachable (tree.run actions) := Reachable.run h actions
    exact exists_runFrame_ok hrun.unnested time
      (hrun.done_of_nodes_le haccounts (hcapacity ▸ hfits) oracle detail)

/-! ## One slot too few -/

/-- One star fills a leaf, and the buffer is never compacted. -/
def calmSettings : Settings :=
  { starsPerCell := 1, compaction := .never }

def calmStars : Tree :=
  ((Tree.act { settings := calmSettings, layout := {} }
    (.insert (cornerStar (.ofIndex 0)))).act
    (.insert (cornerStar (.ofIndex 1)))).act
    (.insert (cornerStar (.ofIndex 7)))

/-- The leaves hold three of four slots. -/
def calm : Tree :=
  (calmStars.act (.resizeBuffer 4)).act
    (.runFrame openView.oracle .positions none)

/-- The last of the leaves has been split since. -/
def calmSplit : Tree := calm.act (.insert farStar)

/-- The same with a buffer that has a slot for every node. -/
def calmWide : Tree := calmSplit.act (.resizeBuffer 16)

theorem managed_calmStars : Managed calmStars false :=
  .insert (.insert (.insert (.fresh
    (@Fresh.created calmSettings {} _ rfl)) _) _) _

theorem managed_calm : Managed calm false := by
  have hstalls : (calmStars.act (.resizeBuffer 4)).stalls openView.oracle
      .positions = false := by
    decide +kernel
  exact hstalls ▸ (managed_calmStars.resizeBuffer 4).runFrame openView.oracle
    .positions none

theorem managed_calmSplit : Managed calmSplit false := managed_calm.insert _

theorem managed_calmWide : Managed calmWide false :=
  managed_calmSplit.resizeBuffer 16

/-- The four leaves to be drawn would fit into the four slots, but the node that
was split holds one of them.  With a slot for every node all frames succeed. -/
theorem shortage_calmSplit :
    calmSplit.frameStart.2 = false ∧
      (calmSplit.wanted openView).card = 4 ∧
      (calmSplit.runFrame openView.oracle .positions none).outcome =
        .error (.slotsExhausted 4) ∧
      ∃ update, ((calmWide.run
        [.runFrame openView.oracle .positions none,
          .insert (cornerStar (.ofIndex 3))]).runFrame openView.oracle
            .positions none).outcome = .ok update := by
  have hkept : calmSplit.frameStart.2 = false := by decide +kernel
  have hwanted : (calmSplit.wanted openView).card = 4 := by decide +kernel
  have hunion : (calmSplit.holders ∪ calmSplit.wanted openView).card = 5 := by
    decide +kernel
  have hcapacity : calmSplit.slots.capacity = 4 := by decide +kernel
  have hfits : (calmWide.run [.runFrame openView.oracle .positions none,
      .insert (cornerStar (.ofIndex 3))]).census.nodes ≤
        calmWide.slots.capacity := by
    decide +kernel
  have hsplit : calmSplit.Owned false :=
    managed_calmSplit.balanced.owns managed_calmSplit.reachable.unnested
  have hwide : calmWide.Owned false :=
    managed_calmWide.balanced.owns managed_calmWide.reachable.unnested
  refine ⟨hkept, hwanted, ?_, ?_⟩
  · have hfault := (Reachable.shortage managed_calmSplit.reachable hsplit).1
      openView .positions none (.slotsExhausted 4)
    rw [hkept, hcapacity, if_neg Bool.false_ne_true, hunion] at hfault
    exact hfault.mpr ⟨rfl, by decide⟩
  · exact (Reachable.shortage managed_calmWide.reachable hwide).2
      [.runFrame openView.oracle .positions none,
        .insert (cornerStar (.ofIndex 3))]
      (by decide) hfits openView.oracle .positions none

end Tree

end Starfield
