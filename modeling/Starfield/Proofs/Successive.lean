import Starfield.Proofs.Flat.Safety
import Starfield.Proofs.Ownership

/-!
# One frame after the other

What a later frame may rely on is what the frame before has left: here it is
read off the settled plan once, for frames that have succeeded.  Stars may be
inserted between two frames; they change neither the slots nor who holds them.
-/

namespace Starfield

def Action.inserts : Action → Bool
  | insert _ => true
  | insertFlat _ => true
  | resizeBuffer _ => false
  | runFrame _ _ _ => false

namespace Tree

variable {tree next : Tree} {oracle : Oracle} {detail : Detail}
  {time : Option Nat} {update : Update}

/-- The frame of the tree has succeeded with this update and left the other
tree. -/
structure Succeeds (tree : Tree) (oracle : Oracle) (detail : Detail)
    (update : Update) (next : Tree) : Prop
    extends Reports tree oracle detail update where
  unnested : tree.Unnested
  listing : next.listing = (tree.settled oracle detail).1
  slots : next.slots = (tree.settled oracle detail).2.slots
  layout : next.layout = tree.layout
  same : tree.SameContent next

theorem succeeds_runFrame (htree : tree.Unnested)
    (hframe : (tree.runFrame oracle detail time).outcome = .ok update) :
    tree.Succeeds oracle detail update
      (tree.runFrame oracle detail time).tree := by
  obtain ⟨log, hrun⟩ := @exists_runFrame_eq tree oracle detail time
  rw [hrun] at hframe ⊢
  exact {
    reports_frame oracle detail htree hframe with
    unnested := htree
    listing := listing_frame oracle detail htree
    slots := slots_frame oracle detail htree
    layout := rfl
    same := ⟨rfl, clear_frame oracle detail⟩ }

/-- A frame that has a slot for every node to be drawn succeeds. -/
theorem exists_runFrame_ok (htree : tree.Unnested) (time : Option Nat)
    (hdone : (tree.settled oracle detail).2.exhausted = false) :
    ∃ update, (tree.runFrame oracle detail time).outcome = .ok update := by
  obtain ⟨log, hrun⟩ := @exists_runFrame_eq tree oracle detail time
  apply exists_ok_of_isOk
  rw [hrun, isOk_frame oracle detail htree, hdone]
  rfl

namespace Succeeds

theorem settings (h : tree.Succeeds oracle detail update next) :
    next.settings = tree.settings := h.same.settings

theorem held (h : tree.Succeeds oracle detail update next) :
    next.held = heldBy (tree.settled oracle detail).1 := by
  rw [Tree.held, h.listing, heldBy]

theorem becomes (h : tree.Succeeds oracle detail update next) :
    List.Forall₂ Entry.Becomes (tree.plan oracle).1 next.listing := by
  rw [h.listing]
  exact becomes_settleAll (tree.plan oracle).1 _ h.done

theorem start_of_compacted (h : tree.Succeeds oracle detail update next)
    (hcompacted : update.compacted = true) :
    tree.frameStart = (.ofCapacity tree.slots.capacity, true) := by
  rw [h.compacted] at hcompacted
  refine (frameStart_cases tree).resolve_left fun hkept => ?_
  rw [hkept] at hcompacted
  cases hcompacted

theorem start_of_kept (h : tree.Succeeds oracle detail update next)
    (hkept : update.compacted = false) :
    tree.frameStart = (tree.slots.reclaim, false) := by
  rw [h.compacted] at hkept
  refine (frameStart_cases tree).resolve_right fun hcompacted => ?_
  rw [hcompacted] at hkept
  cases hkept

/-- A frame that has placed every node anew accounts for all slots held,
whatever was wrong before. -/
theorem accounts_of_compacted (h : tree.Succeeds oracle detail update next)
    (hcompacted : update.compacted = true) : next.slots.Accounts next.held := by
  have hstart := h.start_of_compacted hcompacted
  -- A walk that was not stopped has come to every node and placed all of them.
  obtain ⟨placed, hplaced⟩ := @rebuilds_settleAll (tree.pass oracle detail) []
    { slots := tree.frameStart.1 } (congrArg Prod.snd hstart)
    (tree.plan oracle).1 (hstart ▸ SlotPool.Accounts.ofCapacity _)
    (hstart ▸ rfl) (fun hstopped => absurd hstopped Bool.false_ne_true)
  have haccounts := hplaced.accounts
  rw [hplaced.complete h.done, List.append_nil] at haccounts
  rw [h.slots, h.held]
  exact haccounts

/-- After a frame that has succeeded all slots are accounted for, unless it has
kept slots that were not accounted for before. -/
theorem accounts (h : tree.Succeeds oracle detail update next)
    (hsound : tree.slots.Accounts tree.held ∨ update.compacted = true) :
    next.slots.Accounts next.held := by
  cases hcompacted : update.compacted with
  | true => exact h.accounts_of_compacted hcompacted
  | false =>
      rw [hcompacted, or_iff_left Bool.false_ne_true] at hsound
      obtain ⟨haccounts⟩ := balanced_frame_of_kept h.unnested hsound
        (h.start_of_kept hcompacted) oracle detail
      rw [held_frame h.unnested, slots_frame oracle detail h.unnested]
        at haccounts
      rwa [h.slots, h.held]

end Succeeds

/-! ## Sessions in order -/

/-- The trees of sessions in which no frame has failed to place every node anew,
or the buffer has since been given a new size or been compacted with success. -/
inductive Tidy : Tree → Prop
  | fresh {tree : Tree} (h : Fresh tree) : Tidy tree
  | insert {tree : Tree} (h : Tidy tree) (star : Star) :
      Tidy (tree.act (.insert star))
  | insertFlat {tree : Tree} (h : Tidy tree) (values : List Value) :
      Tidy (tree.act (.insertFlat values))
  | resizeBuffer {tree : Tree} (h : Reachable tree) (capacity : Nat) :
      Tidy (tree.act (.resizeBuffer capacity))
  | runFrame {tree : Tree} {oracle : Oracle} {detail : Detail} (h : Tidy tree)
      (time : Option Nat) (hstalls : tree.stalls oracle detail = false) :
      Tidy (tree.act (.runFrame oracle detail time))
  | compacted {tree : Tree} {oracle : Oracle} {detail : Detail}
      {time : Option Nat} {update : Update} (h : Reachable tree)
      (hframe : (tree.runFrame oracle detail time).outcome = .ok update)
      (hcompacted : update.compacted = true) :
      Tidy (tree.act (.runFrame oracle detail time))

theorem Tidy.reachable (h : Tidy tree) : Reachable tree := by
  induction h with
  | fresh h => exact .fresh h
  | insert _ star ih => exact ih.act _
  | insertFlat _ values ih => exact ih.act _
  | resizeBuffer h capacity => exact h.act _
  | runFrame _ time _ ih => exact ih.act _
  | compacted h _ _ => exact h.act _

/-- A managed session is in order unless it is stalled. -/
theorem Managed.tidy {stalled : Bool} (h : Managed tree stalled)
    (hstalled : stalled = false) : Tidy tree := by
  induction h with
  | fresh h => exact .fresh h
  | insert _ star ih => exact (ih hstalled).insert star
  | insertFlat _ values ih => exact (ih hstalled).insertFlat values
  | resizeBuffer h capacity => exact .resizeBuffer h.reachable capacity
  | runFrame _ oracle detail time ih => exact (ih rfl).runFrame time hstalled

theorem Tidy.balanced (h : Tidy tree) : tree.Balanced false := by
  induction h with
  | fresh h => exact balanced_fresh h
  | insert _ star ih => exact act_insert_induction Balanced.gains ih star
  | insertFlat _ values ih =>
      exact insertFlat_induction Balanced.gains ih values
  | @resizeBuffer tree _ capacity =>
      exact balanced_of_vacant (vacant_resizeBuffer tree capacity)
        (.ofCapacity capacity)
  | @runFrame tree oracle detail h time hstalls ih =>
      obtain ⟨log, hframe⟩ := @exists_runFrame_eq tree oracle detail time
      have hbalanced := balanced_frame h.reachable.unnested ih oracle detail
      rw [hstalls] at hbalanced
      rw [act, hframe]
      exact hbalanced.congr rfl rfl
  | compacted h hframe hcompacted =>
      exact .settled ((succeeds_runFrame h.unnested
        hframe).accounts_of_compacted hcompacted)

/-- In a session that is in order, all slots are accounted for. -/
theorem Tidy.accounts (h : Tidy tree) : tree.slots.Accounts tree.held := by
  obtain ⟨haccounts⟩ := h.balanced
  exact haccounts

/-! ## Between frames -/

/-- Settings are given once. -/
theorem settings_act (tree : Tree) (action : Action) :
    (tree.act action).settings = tree.settings :=
  act_induction (P := fun next => next.settings = tree.settings)
    (fun h hinsert => (gains_of_insert hinsert).settings.trans h)
    (fun h halike => halike.settings.trans h) rfl action

theorem settings_run (tree : Tree) (actions : List Action) :
    (tree.run actions).settings = tree.settings :=
  run_induction (P := fun next => next.settings = tree.settings)
    (fun next action h => (next.settings_act action).trans h) rfl actions

section

variable {between : List Action}

/-- What every star that is taken preserves is preserved by any number of
insertions. -/
theorem run_insertions_taken_induction {P : Tree → Prop}
    (hstep : ∀ {tree next : Tree} {star : Star}, P tree →
      tree.insert star = .ok next → P next)
    (hbetween : ∀ action ∈ between, action.inserts = true) (htree : P tree) :
    P (tree.run between) := by
  induction between generalizing tree with
  | nil => exact htree
  | cons action between ih =>
      rw [List.forall_mem_cons] at hbetween
      refine ih hbetween.2 ?_
      cases action with
      | insert star => exact act_insert_taken_induction hstep htree star
      | insertFlat values => exact insertFlat_taken_induction hstep htree values
      | resizeBuffer | runFrame => cases hbetween.1

theorem run_insertions_induction {P : Tree → Prop}
    (hstep : ∀ {tree next : Tree} {star : Star}, P tree →
      tree.Gains star next → P next)
    (hbetween : ∀ action ∈ between, action.inserts = true) (htree : P tree) :
    P (tree.run between) :=
  run_insertions_taken_induction
    (fun htree h => hstep htree (gains_of_insert h)) hbetween htree

theorem slots_run (hbetween : ∀ action ∈ between, action.inserts = true) :
    (tree.run between).slots = tree.slots :=
  run_insertions_induction (P := fun next => next.slots = tree.slots)
    (fun h hgains => hgains.slots.trans h) hbetween rfl

end

end Tree

end Starfield
