import Starfield.Proofs.Contents

/-!
# What a user gets to see

The replies to a run of actions are all that the user of a tree gets back: the
faults of insertions, and the questions and outcomes of frames.  The log of the
tree keeps figures for display only, so trees that differ in nothing else reply
alike, whatever is done on them.
-/

namespace Starfield

/-- What the user of a tree gets back from an action. -/
inductive Reply where
  | inserted (fault : Option Fault)
  | resized
  | ran (asked : List Question) (outcome : Except Fault Update)

namespace Tree

def reply (tree : Tree) : Action → Reply
  | .insert star =>
      match tree.insert star with
      | .ok _ => .inserted none
      | .error fault => .inserted (some fault)
  | .insertFlat values => .inserted (tree.insertFlat values).2
  | .resizeBuffer _ => .resized
  | .runFrame oracle detail time =>
      let frame := tree.runFrame oracle detail time
      .ran frame.asked frame.outcome

def replies (tree : Tree) : List Action → List Reply
  | [] => []
  | action :: actions => tree.reply action :: (tree.act action).replies actions

def withLog (tree : Tree) (log : FrameLog) : Tree := { tree with log }

variable (tree : Tree) (log : FrameLog)

theorem receive_withLog (star : Star) :
    (tree.withLog log).receive star =
      ((tree.receive star).1.withLog log, (tree.receive star).2) := by
  by_cases hwidth : star.length = tree.layout.width
  · cases hnode : (tree.octants (tree.domain.cube.octantOf star.point)).insert?
        tree.settings tree.layout star
        (tree.domain.child (tree.domain.cube.octantOf star.point)) with
    | none =>
        rw [receive_of_none hwidth hnode]
        exact @receive_of_none (tree.withLog log) star hwidth hnode
    | some taken =>
        rw [receive_of_some hwidth hnode]
        exact @receive_of_some (tree.withLog log) star hwidth _ _ hnode
  · rw [receive_of_length_ne hwidth]
    exact @receive_of_length_ne (tree.withLog log) star hwidth

theorem insert_withLog (star : Star) :
    (tree.withLog log).insert star =
      (tree.insert star).map (·.withLog log) := by
  rw [insert, insert, receive_withLog]
  rcases tree.receive star with ⟨next, _ | fault⟩ <;> rfl

theorem insertStars_withLog (stars : List Star) :
    (tree.withLog log).insertStars stars =
      ((tree.insertStars stars).1.withLog log, (tree.insertStars stars).2) := by
  induction stars generalizing tree with
  | nil => rfl
  | cons star stars ih =>
      rw [insertStars, insertStars, receive_withLog]
      rcases tree.receive star with ⟨next, _ | fault⟩
      · exact ih next
      · rfl

theorem insertFlat_withLog (values : List Value) :
    (tree.withLog log).insertFlat values =
      ((tree.insertFlat values).1.withLog log, (tree.insertFlat values).2) := by
  simp only [insertFlat]
  change (if values.length % tree.layout.width ≠ 0 then _ else _) = _
  split
  · rfl
  · exact insertStars_withLog tree log _

theorem frame_withLog (oracle : Oracle) (detail : Detail) :
    (tree.withLog log).frame oracle detail =
      { tree.frame oracle detail with
        tree := (tree.frame oracle detail).tree.withLog log } :=
  rfl

/-- No action changes anything but the log by what is in the log. -/
theorem exists_act_withLog (action : Action) :
    ∃ log', (tree.withLog log).act action = (tree.act action).withLog log' := by
  cases action with
  | insert star =>
      refine ⟨log, ?_⟩
      rw [act, act, receive_withLog]
  | insertFlat values =>
      exact ⟨log, congrArg Prod.fst (insertFlat_withLog tree log values)⟩
  | resizeBuffer capacity => exact ⟨log, rfl⟩
  | runFrame oracle detail time =>
      obtain ⟨log', hrun⟩ :=
        @exists_runFrame_eq (tree.withLog log) oracle detail time
      obtain ⟨log'', hrun'⟩ := @exists_runFrame_eq tree oracle detail time
      rw [frame_withLog] at hrun
      rw [act, act, hrun, hrun']
      exact ⟨log', rfl⟩

theorem reply_withLog (action : Action) :
    (tree.withLog log).reply action = tree.reply action := by
  cases action with
  | insert star =>
      rw [reply, reply, insert_withLog]
      cases tree.insert star with
      | error fault => rfl
      | ok next => rfl
  | insertFlat values =>
      have hfault := congrArg Prod.snd (insertFlat_withLog tree log values)
      exact congrArg Reply.inserted hfault
  | resizeBuffer capacity => rfl
  | runFrame oracle detail time =>
      obtain ⟨log', hrun⟩ :=
        @exists_runFrame_eq (tree.withLog log) oracle detail time
      obtain ⟨log'', hrun'⟩ := @exists_runFrame_eq tree oracle detail time
      rw [frame_withLog] at hrun
      rw [reply, reply, hrun, hrun']

/-- Trees that differ in their logs only give the same replies. -/
theorem replies_withLog (actions : List Action) :
    (tree.withLog log).replies actions = tree.replies actions := by
  induction actions generalizing tree log with
  | nil => rfl
  | cons action actions ih =>
      obtain ⟨log', hact⟩ := exists_act_withLog tree log action
      rw [replies, replies, reply_withLog, hact, ih]

end Tree

end Starfield
