import Starfield.Proofs.Flat.Safety
import Starfield.Proofs.Replies

/-!
# A new buffer makes up for everything

A frame that runs out of slots leaves a buffer in disorder: nodes that name one
slot, nodes that the walk has not come to, slots that nobody knows of.  Nothing
of this outlives the next change of the buffer's size.  From there on a tree does
what every other tree does that stores the same, however long the two are used.
-/

namespace Starfield

/-- What is done with the buffer only. -/
def Action.isDrawing : Action → Bool
  | .insert _ => false
  | .insertFlat _ => false
  | .resizeBuffer _ => true
  | .runFrame _ _ _ => true

namespace Tree

variable {tree next last : Tree}

/-- The trees are the same but for their logs: the same nodes hold the same
slots, and the same slots are free and pending. -/
structure Agrees (tree next : Tree) : Prop where
  settings : next.settings = tree.settings
  layout : next.layout = tree.layout
  octants : next.octants = tree.octants
  slots : next.slots = tree.slots
  census : next.census = tree.census

theorem agrees_withLog (tree : Tree) (log : FrameLog) :
    tree.Agrees (tree.withLog log) :=
  ⟨rfl, rfl, rfl, rfl, rfl⟩

/-! ## Trees that store the same -/

theorem Alike.refl (tree : Tree) : tree.Alike tree :=
  ⟨⟨rfl, fun _ => rfl⟩, rfl, rfl⟩

theorem Alike.trans (h : tree.Alike next) (hnext : next.Alike last) :
    tree.Alike last where
  settings := hnext.settings.trans h.settings
  octants := fun o => (hnext.octants o).trans (h.octants o)
  layout := hnext.layout.trans h.layout
  census := hnext.census.trans h.census

/-- Frames and new buffer sizes, failed frames too, leave everything stored as
it was. -/
theorem alike_run_of_isDrawing (tree : Tree) {actions : List Action}
    (hactions : ∀ action ∈ actions, action.isDrawing = true) :
    tree.Alike (tree.run actions) := by
  induction actions generalizing tree with
  | nil => exact .refl tree
  | cons action actions ih =>
      rw [List.forall_mem_cons] at hactions
      have hact : tree.Alike (tree.act action) := by
        cases action with
        | insert star => cases hactions.1
        | insertFlat values => cases hactions.1
        | resizeBuffer capacity => exact tree.alike_resizeBuffer capacity
        | runFrame oracle detail time =>
            exact tree.alike_runFrame oracle detail time
      exact hact.trans (ih (tree.act action) hactions.2)

/-- A new buffer size leaves no trace of the slots held before. -/
theorem Alike.resizeBuffer_eq (h : tree.Alike next) (capacity : Nat) :
    next.resizeBuffer capacity =
      (tree.resizeBuffer capacity).withLog next.log := by
  obtain ⟨settings, layout, octants, slots, census, log⟩ := next
  obtain ⟨⟨hsettings, hoctants⟩, hlayout, hcensus⟩ := h
  cases hsettings
  cases hlayout
  cases hcensus
  have hclear : (fun o => (octants o).clear) =
      fun o => (tree.octants o).clear :=
    funext hoctants
  simp only [resizeBuffer, withOctants, hclear, withLog]

/-! ## From then on -/

theorem exists_run_withLog (tree : Tree) (log : FrameLog)
    (actions : List Action) :
    ∃ log', (tree.withLog log).run actions =
      (tree.run actions).withLog log' := by
  induction actions generalizing tree log with
  | nil => exact ⟨log, rfl⟩
  | cons action actions ih =>
      obtain ⟨log', hact⟩ := exists_act_withLog tree log action
      obtain ⟨log'', hrun⟩ := ih (tree.act action) log'
      refine ⟨log'', ?_⟩
      rw [run, List.foldl_cons, hact]
      exact hrun

/-- Two trees that store the same, whatever slots are held in them and however
the buffers came to be as they are, cannot be told apart once both have been
given a buffer of the same size: everything that is done on both has the same
replies and leaves the same slots with the same nodes. -/
theorem Alike.restart (h : tree.Alike next) (capacity : Nat)
    (actions : List Action) :
    (next.act (.resizeBuffer capacity)).replies actions =
        (tree.act (.resizeBuffer capacity)).replies actions ∧
      ((tree.act (.resizeBuffer capacity)).run actions).Agrees
        ((next.act (.resizeBuffer capacity)).run actions) := by
  have hresized : next.act (.resizeBuffer capacity) =
      (tree.act (.resizeBuffer capacity)).withLog next.log :=
    h.resizeBuffer_eq capacity
  obtain ⟨log, hrun⟩ := exists_run_withLog
    (tree.act (.resizeBuffer capacity)) next.log actions
  rw [hresized]
  refine ⟨replies_withLog _ _ actions, ?_⟩
  rw [hrun]
  exact agrees_withLog _ log

/-- A frame has failed, and two leaves name the first slot.  With three slots
this tree draws as the one does that never had a buffer. -/
theorem restart_crowdedTwice :
    crowdedTwice.held = [0, 1, 0] ∧ crowdedStars.Alike crowdedTwice ∧
      let actions : List Action :=
        [.runFrame openView.oracle .motion none,
          .insert (cornerStar (.ofIndex 7)),
          .runFrame openView.oracle .motion none]
      (crowdedTwice.act (.resizeBuffer 3)).replies actions =
          (crowdedStars.act (.resizeBuffer 3)).replies actions ∧
        ((crowdedStars.act (.resizeBuffer 3)).run actions).Agrees
          ((crowdedTwice.act (.resizeBuffer 3)).run actions) := by
  have halike : crowdedStars.Alike crowdedTwice :=
    @alike_run_of_isDrawing crowdedStars
      [.resizeBuffer 2, .runFrame (seesAfter 7) .positions none,
        .runFrame openView.oracle .positions none] (by decide)
  exact ⟨by decide +kernel, halike, Alike.restart halike 3 _⟩

end Tree

end Starfield
