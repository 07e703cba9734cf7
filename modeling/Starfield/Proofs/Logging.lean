import Starfield.Proofs.Record
import Starfield.Proofs.Repacking
import Starfield.Proofs.Separation
import Starfield.Proofs.Windows

/-!
# What the log tells

The log of a tree is written at one place only, at the end of a frame that
succeeds while frames are recorded.  This file proves that its figures are right
over whole sessions, whenever recording is switched on or off: those that add up
are sums over the frames recorded, the others are those of the last one, and what
is said about slots agrees with the nodes that held them.
-/

namespace Starfield

/-! ## What an update changes -/

namespace Update

/-- The number of slots that get a chunk. -/
def writeCount (update : Update) : Nat :=
  update.changes.toList.countP fun change => change.2.content.isSome

/-- The number of slots that are left with an empty chunk. -/
def clearCount (update : Update) : Nat :=
  update.changes.toList.countP fun change => change.2.content.isNone

end Update

namespace Tree

variable {tree next : Tree} {oracle : Oracle} {detail : Detail}
  {time : Option Nat} {update : Update}

/-- A frame gives every slot that it changes the chunk of a cell or vacates it. -/
theorem Succeeds.vacate_or_fill (h : tree.Succeeds oracle detail update next)
    {slot : Nat} {change : Change}
    (hchange : update.changes[slot]? = some change) :
    change = .vacate ∨
      ∃ cell, change = .fill ((tree.pass oracle detail).chunk cell) := by
  cases hcompacted : update.compacted with
  | false =>
      rcases h.change_sound hcompacted hchange with
        ⟨hvacate, _⟩ | ⟨entry, _, _, hfill⟩
      · exact .inl hvacate
      · exact .inr ⟨entry.cell, hfill⟩
  | true =>
      have hpass : (tree.pass oracle detail).compacting = true :=
        h.compacted.symm.trans hcompacted
      rw [h.getElem?_of_compacted hcompacted, Option.or_eq_some_iff] at hchange
      rcases hchange with hwritten | ⟨_, hstale⟩
      · have hfill := fill_of_settleAll hpass _ hwritten
        exact .inr (hfill.resolve_left (by simp))
      · split at hstale
        · exact .inl (Option.some.inj hstale).symm
        · cases hstale

/-- The slots that are filled are those that get a chunk: no cell is written as an
empty chunk. -/
theorem Succeeds.length_filled (h : tree.Succeeds oracle detail update next)
    (htree : tree.Valid) :
    update.filled.length = update.writeCount ∧
      update.vacated.length = update.clearCount := by
  have hchange : ∀ change ∈ update.changes.toList, change.2 = .vacate ∨
      ∃ cell, change.2 = .fill ((tree.pass oracle detail).chunk cell) := by
    intro change hmem
    exact h.vacate_or_fill
      (Std.TreeMap.mem_toList_iff_getElem?_eq_some.mp hmem)
  rw [Update.filled, Update.vacated, List.length_filterMap_eq_countP,
    List.length_filterMap_eq_countP, Update.writeCount, Update.clearCount]
  constructor
  · refine List.countP_congr fun change hmem => ?_
    obtain ⟨slot, change⟩ := change
    rcases hchange _ hmem with rfl | ⟨cell, rfl⟩
    · rfl
    · simp [htree.isSome_content_chunk cell]
  · refine List.countP_congr fun change hmem => ?_
    obtain ⟨slot, change⟩ := change
    rcases hchange _ hmem with rfl | ⟨cell, rfl⟩
    · simp [Change.content]
    · have hchunk : (Change.fill
          ((tree.pass oracle detail).chunk cell)).content.isSome = true :=
        htree.isSome_content_chunk cell
      simp [Option.isNone_eq_false_iff.mpr hchunk]

end Tree

/-! ## Sessions with frames on record -/

/-- A frame on record: what it changed, how long it took and the tree that it
left. -/
structure FrameRecord where
  update : Update
  time : Nat
  tree : Tree

namespace Tree

/-- What a frame puts on record: nothing while recording is off, and nothing when
it fails. -/
def recorded (tree : Tree) (recording : Bool) (oracle : Oracle)
    (detail : Detail) (time : Nat) : List FrameRecord :=
  if recording then
    let frame := tree.runFrame oracle detail (some time)
    match frame.outcome with
    | .ok update => [⟨update, time, frame.tree⟩]
    | .error _ => []
  else []

/-- Sessions in which recording may be switched on and off, with the frames that
are on record.  After a frame has failed to place every node anew, the buffer is
given a new size before another frame is run. -/
inductive Metered : Tree → (recording stalled : Bool) → List FrameRecord → Prop
  | fresh {tree : Tree} (h : Fresh tree) (recording : Bool) :
      Metered tree recording false []
  | switch {tree : Tree} {recording stalled : Bool}
      {records : List FrameRecord}
      (h : Metered tree recording stalled records) (next : Bool) :
      Metered tree next stalled records
  | insert {tree : Tree} {recording stalled : Bool}
      {records : List FrameRecord}
      (h : Metered tree recording stalled records) (star : Star) :
      Metered (tree.act (.insert star)) recording stalled records
  | insertFlat {tree : Tree} {recording stalled : Bool}
      {records : List FrameRecord}
      (h : Metered tree recording stalled records) (values : List Value) :
      Metered (tree.act (.insertFlat values)) recording stalled records
  | resizeBuffer {tree : Tree} {recording stalled : Bool}
      {records : List FrameRecord}
      (h : Metered tree recording stalled records) (capacity : Nat) :
      Metered (tree.act (.resizeBuffer capacity)) recording false records
  | runFrame {tree : Tree} {recording : Bool} {records : List FrameRecord}
      (h : Metered tree recording false records) (oracle : Oracle)
      (detail : Detail) (time : Nat) :
      Metered
        (tree.act
          (.runFrame oracle detail (if recording then some time else none)))
        recording (tree.stalls oracle detail)
        (records ++ tree.recorded recording oracle detail time)

end Tree

structure FrameLog.Tells (log : FrameLog) (records : List FrameRecord) :
    Prop where
  frames : log.frames = records.length
  compactions : log.compactions =
    records.countP fun record => record.update.compacted
  /-- The window has the times of the last frames, oldest first. -/
  times : log.times = .ofLast 128 (records.map FrameRecord.time)
  lastTime : ∀ last ∈ records.getLast?, log.lastTime = last.time
  filled : ∀ last ∈ records.getLast?, log.filled = last.update.writeCount
  vacated : ∀ last ∈ records.getLast?, log.vacated = last.update.clearCount
  /-- The slots in use were those of the nodes that held one. -/
  resident : ∀ last ∈ records.getLast?,
    log.resident = last.tree.residents.length
  highWater : ∀ last ∈ records.getLast?,
    log.highWater = last.tree.slots.highWater
  blank : records = [] → log = {}

namespace FrameLog.Tells

variable {log : FrameLog} {records : List FrameRecord}

theorem empty : Tells {} [] where
  frames := rfl
  compactions := rfl
  times := rfl
  lastTime := nofun
  filled := nofun
  vacated := nofun
  resident := nofun
  highWater := nofun
  blank := fun _ => rfl

/-- One more frame is put on record, with the tree that it left. -/
theorem record (h : log.Tells records) {update : Update} (time : Nat)
    {tree : Tree} (hfilled : update.filled.length = update.writeCount)
    (hvacated : update.vacated.length = update.clearCount)
    (hresident : tree.slots.inUse = tree.residents.length) :
    (log.record update time tree.slots).Tells
      (records ++ [⟨update, time, tree⟩]) where
  frames := by
    rw [List.length_append]
    exact congrArg (· + 1) h.frames
  compactions := by
    rw [List.countP_append]
    refine congrArg₂ (· + ·) h.compactions ?_
    cases hcompacted : update.compacted <;> simp [hcompacted]
  times := by
    rw [List.map_append]
    exact (congrArg (RecentWindow.push · time) h.times).trans
      (RecentWindow.push_ofLast (by decide) _ time)
  lastTime := by simp [FrameLog.record]
  filled := by simp [FrameLog.record, hfilled]
  vacated := by simp [FrameLog.record, hvacated]
  resident := by simp [FrameLog.record, hresident]
  highWater := by simp [FrameLog.record]
  blank := fun hrecords => absurd hrecords (by simp)

end FrameLog.Tells

namespace Tree

variable {tree next : Tree} {oracle : Oracle} {detail : Detail}
  {update : Update} {recording stalled : Bool} {records : List FrameRecord}

/-! ## Actions and the log -/

theorem log_of_fresh (h : Fresh tree) : tree.log = {} := by
  cases h with
  | created h =>
      obtain ⟨rfl, _⟩ := create_eq_ok h
      rfl
  | decoded h =>
      obtain ⟨rest, hfront⟩ := decode_eq_ok_iff.mp h
      exact (archived_of_decodeFront hfront).1.log

def isRecorded (tree : Tree) : Action → Bool
  | .runFrame oracle detail (some time) =>
      (tree.runFrame oracle detail (some time)).outcome.isOk
  | _ => false

theorem log_runFrame_of_error {time : Option Nat} {fault : Fault}
    (h : (tree.runFrame oracle detail time).outcome = .error fault) :
    (tree.runFrame oracle detail time).tree.log = tree.log := by
  have herror : (tree.frame oracle detail).outcome = .error fault := by
    obtain ⟨log, hrun⟩ := @exists_runFrame_eq tree oracle detail time
    rw [hrun] at h
    exact h
  simp only [runFrame, herror]
  rfl

/-- An action that puts no frame on record leaves the log as it was. -/
theorem log_act_of_unrecorded {action : Action}
    (h : tree.isRecorded action = false) :
    (tree.act action).log = tree.log := by
  cases action with
  | insert star =>
      exact act_insert_taken_induction (P := fun next => next.log = tree.log)
        (fun h hinsert => (log_of_insert hinsert).trans h) rfl star
  | insertFlat values =>
      exact insertFlat_taken_induction (P := fun next => next.log = tree.log)
        (fun h hinsert => (log_of_insert hinsert).trans h) rfl values
  | resizeBuffer capacity => rfl
  | runFrame oracle detail time =>
      cases time with
      | none =>
          cases hframe : (tree.frame oracle detail).outcome <;>
            simp only [act, runFrame, hframe] <;> rfl
      | some time =>
          cases hframe : (tree.runFrame oracle detail (some time)).outcome with
          | error fault => exact log_runFrame_of_error hframe
          | ok update =>
              rw [isRecorded, hframe] at h
              cases h

theorem log_runFrame_of_ok {time : Nat}
    (h : (tree.runFrame oracle detail (some time)).outcome = .ok update) :
    (tree.runFrame oracle detail (some time)).tree.log =
      tree.log.record update time
        (tree.runFrame oracle detail (some time)).tree.slots := by
  have hok : (tree.frame oracle detail).outcome = .ok update := by
    obtain ⟨log, hrun⟩ := @exists_runFrame_eq tree oracle detail (some time)
    rw [hrun] at h
    exact h
  simp only [runFrame, hok]
  rfl

theorem recorded_of_ok {time : Nat}
    (h : (tree.runFrame oracle detail (some time)).outcome = .ok update) :
    tree.recorded true oracle detail time =
      [⟨update, time, (tree.runFrame oracle detail (some time)).tree⟩] := by
  simp only [recorded, h, if_true]

theorem recorded_of_error {time : Nat} {fault : Fault}
    (h : (tree.runFrame oracle detail (some time)).outcome = .error fault) :
    tree.recorded true oracle detail time = [] := by
  simp only [recorded, h, if_true]

/-! ## Whole sessions -/

theorem Metered.managed (h : Metered tree recording stalled records) :
    Managed tree stalled := by
  induction h with
  | fresh h recording => exact .fresh h
  | switch _ _ ih => exact ih
  | insert _ star ih => exact ih.insert star
  | insertFlat _ values ih => exact ih.insertFlat values
  | resizeBuffer _ capacity ih => exact ih.resizeBuffer capacity
  | runFrame _ oracle detail time ih => exact ih.runFrame oracle detail _

/-- A frame that succeeds while frames are recorded is told about with the
others. -/
theorem Metered.tells_runFrame (h : Metered tree true false records)
    (htells : tree.log.Tells records) {time : Nat}
    (hframe : (tree.runFrame oracle detail (some time)).outcome = .ok update) :
    (tree.runFrame oracle detail (some time)).tree.log.Tells
      (records ++
        [⟨update, time, (tree.runFrame oracle detail (some time)).tree⟩]) := by
  have hmanaged := h.managed
  have hsucceeds := succeeds_runFrame hmanaged.reachable.unnested hframe
  obtain ⟨hfilled, hvacated⟩ :=
    hsucceeds.length_filled hmanaged.reachable.valid
  have hafter := hmanaged.runFrame oracle detail (some time)
  rw [stalls_of_ok hframe] at hafter
  have howned := hafter.balanced.owns hafter.reachable.unnested
  rw [log_runFrame_of_ok hframe]
  exact htells.record time hfilled hvacated (howned.inUse rfl)

theorem Metered.tells_log (h : Metered tree recording stalled records) :
    tree.log.Tells records := by
  induction h with
  | fresh h recording =>
      rw [log_of_fresh h]
      exact .empty
  | switch _ _ ih => exact ih
  | insert _ star ih =>
      rw [log_act_of_unrecorded rfl]
      exact ih
  | insertFlat _ values ih =>
      rw [log_act_of_unrecorded rfl]
      exact ih
  | resizeBuffer _ capacity ih => exact ih
  | @runFrame tree recording records h oracle detail time ih =>
      cases recording with
      | false =>
          rw [log_act_of_unrecorded rfl, recorded, if_neg Bool.false_ne_true,
            List.append_nil]
          exact ih
      | true =>
          cases hframe : (tree.runFrame oracle detail (some time)).outcome with
          | ok update =>
              rw [recorded_of_ok hframe]
              exact h.tells_runFrame ih hframe
          | error fault =>
              rw [recorded_of_error hframe, List.append_nil]
              exact (log_runFrame_of_error hframe).symm ▸ ih

/-- In every session the log tells about the frames on record, and nothing but a
frame that is put on record changes it. -/
theorem Metered.tells (h : Metered tree recording stalled records) :
    tree.log.Tells records ∧
      ∀ action, tree.isRecorded action = false →
        (tree.act action).log = tree.log :=
  ⟨h.tells_log, fun _ => log_act_of_unrecorded⟩

/-! A session with a frame on record, one that fails, one that is not recorded and
one more on record. -/

def loggedOnce : Tree :=
  crowded.act (.runFrame (seesAfter 7) .positions (some 5))

def loggedFailed : Tree :=
  loggedOnce.act (.runFrame openView.oracle .positions (some 9))

def loggedUnrecorded : Tree :=
  (loggedFailed.act (.resizeBuffer 4)).act
    (.runFrame openView.oracle .positions none)

def loggedTwice : Tree :=
  loggedUnrecorded.act (.runFrame (seesAfter 0) .positions (some 8))

/-- The frames on record, with those that leave no record. -/
def loggedFrames : List FrameRecord :=
  [] ++ crowded.recorded true (seesAfter 7) .positions 5 ++
    loggedOnce.recorded true openView.oracle .positions 9 ++
    (loggedFailed.act (.resizeBuffer 4)).recorded false openView.oracle
      .positions 0 ++
    loggedUnrecorded.recorded true (seesAfter 0) .positions 8

theorem metered_loggedTwice : Metered loggedTwice true false loggedFrames := by
  have hcrowded : Metered crowded true false [] :=
    (((Metered.fresh fresh_crowdedSettings true).insert _ |>.insert
      _).insert _).resizeBuffer 2
  have hfirst : crowded.stalls (seesAfter 7) .positions = false := by
    decide +kernel
  have honce : Metered loggedOnce true (crowded.stalls _ _) _ :=
    hcrowded.runFrame (seesAfter 7) .positions 5
  rw [hfirst] at honce
  have hfailed : Metered loggedFailed true (loggedOnce.stalls _ _) _ :=
    honce.runFrame openView.oracle .positions 9
  -- The frame that is not recorded finds room in the larger buffer.
  have hroom : (loggedFailed.act (.resizeBuffer 4)).stalls openView.oracle
      .positions = false := by
    decide +kernel
  have hunrecorded : Metered loggedUnrecorded false (Tree.stalls _ _ _) _ :=
    ((hfailed.resizeBuffer 4).switch false).runFrame openView.oracle
      .positions 0
  rw [hroom] at hunrecorded
  have hlast : loggedUnrecorded.stalls (seesAfter 0) .positions = false := by
    decide +kernel
  exact hlast ▸ (hunrecorded.switch true).runFrame (seesAfter 0) .positions 8

theorem tells_loggedTwice :
    loggedTwice.log.Tells loggedFrames ∧
      loggedFrames.map FrameRecord.time = [5, 8] ∧
      loggedTwice.log.frames = 2 ∧ loggedTwice.log.compactions = 1 ∧
      loggedTwice.isRecorded (.resizeBuffer 1) = false ∧
      (loggedTwice.act (.resizeBuffer 1)).log = loggedTwice.log := by
  obtain ⟨htells, hkept⟩ := Metered.tells metered_loggedTwice
  have htimes : loggedFrames.map FrameRecord.time = [5, 8] := by
    decide +kernel
  have hframes : loggedFrames.length = 2 := by decide +kernel
  have hcompactions :
      (loggedFrames.countP fun record => record.update.compacted) = 1 := by
    decide +kernel
  exact ⟨htells, htimes, htells.frames.trans hframes,
    htells.compactions.trans hcompactions, rfl, hkept _ rfl⟩

end Tree

end Starfield
