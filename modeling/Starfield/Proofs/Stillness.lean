import Mathlib.Algebra.Order.Field.Basic
import Mathlib.Algebra.Order.Field.Rat
import Mathlib.Tactic.Linarith
import Starfield.Proofs.Frame.Packing
import Starfield.Proofs.Frame.Quiet
import Starfield.Proofs.Successive

/-!
# Compactions do not follow each other, and a still view goes quiet

A buffer is compacted when a slot far up is used although many are free.  When
the two shares of the rule together make up the whole buffer, this cannot be so
of a buffer whose slots in use are the lowest ones, so no frame compacts what
the frame before has compacted.  And as long as nothing moves and no star is
inserted, all frames after the first do nothing: there is no more to reclaim,
every node already holds what it is to hold, and the rule goes on saying no.

A frame that fails to place every node anew may leave more nodes with slots than
there are slots.  For such a tree a still view can fail.
-/

namespace Starfield

/-! ## Shares -/

/-- The share as a number; a denominator of zero counts as one. -/
def Share.ratio (share : Share) : ℚ :=
  share.numerator / (max share.denominator 1 : ℕ)

/-- Rounding a share down loses less than one slot. -/
theorem Share.mul_ratio_lt (share : Share) (capacity : ℕ) :
    capacity * share.ratio < share.of capacity + 1 := by
  have hpos : 0 < max share.denominator 1 :=
    Nat.lt_of_lt_of_le Nat.one_pos (Nat.le_max_right _ _)
  have hlt : capacity * share.numerator <
      (share.of capacity + 1) * max share.denominator 1 := by
    rw [Nat.mul_comm (_ + 1)]
    exact Nat.lt_mul_div_succ _ hpos
  have hpos' : (0 : ℚ) < (max share.denominator 1 : ℕ) := by
    exact_mod_cast hpos
  rw [ratio, ← mul_div_assoc, div_lt_iff₀ hpos']
  exact_mod_cast hlt

namespace Compaction

/-- The two shares of the rule make up the whole buffer. -/
def Covers (rule : Compaction) : Prop :=
  1 ≤ rule.highWater.ratio + rule.free.ratio

/-- Both limits are never exceeded when the slots below the mark and the free
slots are different ones. -/
theorem Covers.isDue_eq_false {rule : Compaction} (h : rule.Covers)
    {highWater free capacity : ℕ} (hapart : highWater + free ≤ capacity) :
    rule.isDue highWater free capacity = false := by
  apply eq_false_of_ne_true
  intro hdue
  rw [isDue, Bool.and_eq_true, decide_eq_true_iff, decide_eq_true_iff] at hdue
  -- Each limit is exceeded by a whole slot, and rounding has lost less.
  have hhighWater : (rule.highWater.of capacity : ℚ) + 1 ≤ highWater := by
    exact_mod_cast hdue.1
  have hfree : (rule.free.of capacity : ℚ) + 1 ≤ free := by
    exact_mod_cast hdue.2
  have hsum : (highWater : ℚ) + free ≤ capacity := by exact_mod_cast hapart
  have hwhole : (capacity : ℚ) * 1 ≤
      capacity * (rule.highWater.ratio + rule.free.ratio) :=
    mul_le_mul_of_nonneg_left h (Nat.cast_nonneg capacity)
  have hlost := rule.highWater.mul_ratio_lt capacity
  have hlost' := rule.free.mul_ratio_lt capacity
  linarith

end Compaction

namespace Tree

variable {tree next : Tree} {oracle : Oracle} {detail : Detail}
  {time : Option Nat} {update : Update}

/-- After a compaction the next frame keeps the buffer, and there is nothing to
reclaim. -/
theorem frameStart_of_packed (hcovers : tree.settings.compaction.Covers)
    {capacity used : Nat} (hslots : tree.slots = .packed capacity used)
    (hused : used ≤ capacity) : tree.frameStart = (tree.slots, false) := by
  have hdue : tree.settings.compaction.isDue used (capacity - used) capacity =
      false :=
    hcovers.isDue_eq_false (by omega)
  rw [frameStart, hslots, SlotPool.reclaim_packed,
    SlotPool.length_free_packed]
  exact if_neg (ne_true_of_eq_false hdue)

theorem Succeeds.packed (h : tree.Succeeds oracle detail update next)
    (hcompacted : update.compacted = true) :
    ∃ used ≤ tree.slots.capacity,
      next.slots = .packed tree.slots.capacity used := by
  obtain ⟨hslots, _⟩ := packs_frame h.unnested
    (h.start_of_compacted hcompacted) oracle detail
  rw [slots_frame oracle detail h.unnested, ← h.slots] at hslots
  exact ⟨_, Nat.min_le_left _ _, hslots⟩

/-! ## Still trees -/

/-- For the oracle every node already is what it is to be. -/
def Still (tree : Tree) (oracle : Oracle) : Prop :=
  ∀ planned ∈ (tree.plan oracle).1, IsSettled planned

/-- A frame leaves a still tree behind. -/
theorem Succeeds.still (h : tree.Succeeds oracle detail update next) :
    next.Still oracle := by
  have hbecomes := h.becomes
  rw [← map_fst_plan next oracle] at hbecomes
  exact isSettled_of_becomes hbecomes
    (congrArg Prod.fst (h.same.marksOf_plan oracle))

/-- In a still tree as many nodes are to be drawn as hold slots. -/
theorem Still.drawnCount_eq (h : tree.Still oracle) :
    drawnCount (tree.plan oracle).1 = tree.residents.length := by
  rw [residents, ← map_fst_plan tree oracle, ← List.countP_eq_length_filter,
    List.countP_map, drawnCount]
  apply List.countP_congr
  intro planned hplanned
  rw [← (h planned hplanned).isResident_iff]
  rfl

/-- A still tree whose next frame finds the slots as they are. -/
structure Calm (tree : Tree) (oracle : Oracle) : Prop where
  unnested : tree.Unnested
  still : tree.Still oracle
  start : tree.frameStart = (tree.slots, false)

/-- The frame has changed neither the buffer nor any node. -/
structure Idle (tree next : Tree) (update : Update) : Prop where
  empty : update.isEmpty = true
  delta : update.delta = 0
  listing : next.listing = tree.listing

/-- In a buffer that is kept, a frame of a still tree does nothing but reclaim
what was pending. -/
theorem Still.frame_of_kept (h : tree.Still oracle) (htree : tree.Unnested)
    (hstart : tree.frameStart.2 = false) (detail : Detail)
    (time : Option Nat) :
    ∃ update, (tree.runFrame oracle detail time).outcome = .ok update ∧
      update.compacted = false ∧
      Idle tree (tree.runFrame oracle detail time).tree update ∧
      (tree.runFrame oracle detail time).tree.slots = tree.frameStart.1 := by
  have hsettled : tree.settled oracle detail =
      (tree.listing, { slots := tree.frameStart.1 }) := by
    rw [settled, settleAll_settled hstart h, map_fst_plan]
  obtain ⟨update, hframe⟩ := @exists_runFrame_ok tree oracle detail htree time
    (by rw [hsettled])
  have hsucceeds := succeeds_runFrame htree hframe
  refine ⟨update, hframe, hsucceeds.compacted.trans hstart, ⟨?_, ?_, ?_⟩, ?_⟩
  · obtain ⟨changes, hoverwrites, hchanges⟩ := hsucceeds.changes
    rw [hsettled] at hoverwrites hchanges
    rw [Update.isEmpty, hchanges]
    exact hoverwrites.isEmpty_of_empty
  · rw [hsucceeds.delta, hsettled]
  · rw [hsucceeds.listing, hsettled]
  · rw [hsucceeds.slots, hsettled]

/-- Where a frame begins depends on the settings and on what is left of the
slots when the pending ones have been reclaimed. -/
theorem frameStart_congr (hsettings : next.settings = tree.settings)
    (hslots : next.slots.reclaim = tree.slots.reclaim) :
    next.frameStart = tree.frameStart := by
  rw [frameStart, frameStart, hslots, hsettings]

/-- What the frame with the given number does for a still view: only the first
one may compact the buffer, the others change nothing, and after the first one
nothing is reclaimed either. -/
structure Rests (number : Nat) (tree next : Tree) (update : Update) :
    Prop where
  first : update.compacted = true → number = 0
  idle : update.compacted = false → Idle tree next update
  slots : 0 < number → next.slots = tree.slots

theorem Calm.rests (h : tree.Calm oracle) (number : Nat) (detail : Detail)
    (time : Option Nat) :
    ∃ update, (tree.runFrame oracle detail time).outcome = .ok update ∧
      Rests number tree (tree.runFrame oracle detail time).tree update ∧
      (tree.runFrame oracle detail time).tree.Calm oracle := by
  obtain ⟨update, hframe, hkept, hidle, hslots⟩ := h.still.frame_of_kept
    h.unnested (congrArg Prod.snd h.start) detail time
  rw [h.start] at hslots
  have hsucceeds := succeeds_runFrame h.unnested hframe
  refine ⟨update, hframe, ⟨?_, fun _ => hidle, fun _ => hslots⟩,
    h.unnested.act (.runFrame oracle detail time), hsucceeds.still, ?_⟩
  · intro hcompacted
    rw [hkept] at hcompacted
    cases hcompacted
  · rw [frameStart_congr hsucceeds.settings (congrArg _ hslots), h.start,
      hslots]

/-- When every node that holds a slot would find one, the next frame for the
same oracle succeeds, and after it nothing is left to do. -/
theorem Still.rests (h : tree.Still oracle) (htree : tree.Unnested)
    (hcovers : tree.settings.compaction.Covers)
    (hfits : tree.residents.length ≤ tree.slots.capacity) (detail : Detail)
    (time : Option Nat) :
    ∃ update, (tree.runFrame oracle detail time).outcome = .ok update ∧
      Rests 0 tree (tree.runFrame oracle detail time).tree update ∧
      (tree.runFrame oracle detail time).tree.Calm oracle := by
  rcases frameStart_cases tree with hstart | hstart
  · obtain ⟨update, hframe, hkept, hidle, hslots⟩ := h.frame_of_kept htree
      (congrArg Prod.snd hstart) detail time
    rw [hstart] at hslots
    have hsucceeds := succeeds_runFrame htree hframe
    refine ⟨update, hframe, ⟨fun _ => rfl, fun _ => hidle, nofun⟩,
      htree.act (.runFrame oracle detail time), hsucceeds.still, ?_⟩
    -- Nothing has become pending, so the rule is asked about the same slots.
    have hreclaim :
        (tree.runFrame oracle detail time).tree.slots.reclaim =
          tree.slots.reclaim := by
      rw [hslots, SlotPool.reclaim_reclaim]
    rw [frameStart_congr hsucceeds.settings hreclaim, hstart, hslots]
  · -- Every node that holds a slot is placed anew: there must be room for all.
    obtain ⟨_, hdone⟩ := packs_frame htree hstart oracle detail
    rw [h.drawnCount_eq] at hdone
    obtain ⟨update, hframe⟩ := exists_runFrame_ok htree time (hdone.mpr hfits)
    have hsucceeds := succeeds_runFrame htree hframe
    have hcompacted : update.compacted = true :=
      hsucceeds.compacted.trans (congrArg Prod.snd hstart)
    obtain ⟨used, hused, hslots⟩ := hsucceeds.packed hcompacted
    refine ⟨update, hframe, ⟨fun _ => rfl, fun hkept => ?_, nofun⟩,
      htree.act (.runFrame oracle detail time), hsucceeds.still, ?_⟩
    · rw [hcompacted] at hkept
      cases hkept
    · rw [← hsucceeds.settings] at hcovers
      exact frameStart_of_packed hcovers hslots hused

/-- The tree after so many frames for the same oracle. -/
def watched (tree : Tree) (oracle : Oracle) (detail : Detail)
    (times : Nat → Option Nat) : Nat → Tree
  | 0 => tree
  | number + 1 =>
      (tree.watched oracle detail times number).act
        (.runFrame oracle detail (times number))

/-- The first frame calms a still tree, and the others keep it calm. -/
theorem Still.calm_watched (h : tree.Still oracle) (htree : tree.Unnested)
    (hcovers : tree.settings.compaction.Covers)
    (hfits : tree.residents.length ≤ tree.slots.capacity) (detail : Detail)
    (times : Nat → Option Nat) (number : Nat) :
    (tree.watched oracle detail times (number + 1)).Calm oracle := by
  induction number with
  | zero =>
      obtain ⟨_, _, _, hcalm⟩ := h.rests htree hcovers hfits detail (times 0)
      exact hcalm
  | succ number ih =>
      obtain ⟨_, _, _, hcalm⟩ := ih.rests 0 detail (times (number + 1))
      exact hcalm

theorem Still.rests_watched (h : tree.Still oracle) (htree : tree.Unnested)
    (hcovers : tree.settings.compaction.Covers)
    (hfits : tree.residents.length ≤ tree.slots.capacity) (detail : Detail)
    (times : Nat → Option Nat) (number : Nat) :
    ∃ update,
      ((tree.watched oracle detail times number).runFrame oracle detail
        (times number)).outcome = .ok update ∧
      Rests number (tree.watched oracle detail times number)
        (tree.watched oracle detail times (number + 1)) update := by
  cases number with
  | zero =>
      obtain ⟨update, hframe, hrests, _⟩ :=
        h.rests htree hcovers hfits detail (times 0)
      exact ⟨update, hframe, hrests⟩
  | succ number =>
      obtain ⟨update, hframe, hrests, _⟩ :=
        (h.calm_watched htree hcovers hfits detail times number).rests
          (number + 1) detail (times (number + 1))
      exact ⟨update, hframe, hrests⟩

/-! ## Sessions -/

theorem length_residents_le (h : tree.slots.Accounts tree.held) :
    tree.residents.length ≤ tree.slots.capacity := by
  rw [← length_held, ← h.inUse_eq, SlotPool.inUse]
  omega

/-- When the shares of the rule cover the buffer, no frame compacts what the
frame before has compacted, whatever is seen and inserted.  And when a frame has
succeeded and the nodes that hold slots then are no more than the slots, which
is always so in a session that is in order, then all frames for the same oracle
succeed and come to rest. -/
theorem Reachable.comes_to_rest (htree : Reachable tree)
    (hcovers : tree.settings.compaction.Covers)
    (hframe : (tree.runFrame oracle detail time).outcome = .ok update) :
    let after := (tree.runFrame oracle detail time).tree
    (update.compacted = true → ∀ between : List Action,
      (∀ action ∈ between, action.inserts = true) →
      ∀ (oracle' : Oracle) (detail' : Detail) (time' : Option Nat)
        (update' : Update),
        ((after.run between).runFrame oracle' detail' time').outcome =
            .ok update' →
          update'.compacted = false) ∧
    (Tidy tree ∨ update.compacted = true →
      after.residents.length ≤ after.slots.capacity) ∧
    (after.residents.length ≤ after.slots.capacity →
      ∀ (times : Nat → Option Nat) (number : Nat), ∃ update',
        ((after.watched oracle detail times number).runFrame oracle detail
          (times number)).outcome = .ok update' ∧
        Rests number (after.watched oracle detail times number)
          (after.watched oracle detail times (number + 1)) update') := by
  intro after
  have hsucceeds := succeeds_runFrame htree.unnested hframe
  have hcovers' : after.settings.compaction.Covers := by
    rwa [hsucceeds.settings]
  refine ⟨?_, ?_, fun hfits times number => ?_⟩
  · intro hcompacted between hbetween oracle' detail' time' update' hframe'
    obtain ⟨used, hused, hslots⟩ := hsucceeds.packed hcompacted
    have hafter : Reachable after := htree.act (.runFrame oracle detail time)
    have hcovers'' : (after.run between).settings.compaction.Covers := by
      rwa [settings_run]
    have hstart := frameStart_of_packed hcovers''
      ((slots_run hbetween).trans hslots) hused
    have hsucceeds' := succeeds_runFrame (hafter.run between).unnested hframe'
    exact hsucceeds'.compacted.trans (congrArg Prod.snd hstart)
  · intro hsound
    exact length_residents_le
      (hsucceeds.accounts (hsound.imp_left Tidy.accounts))
  · exact hsucceeds.still.rests_watched
      (htree.unnested.act (.runFrame oracle detail time)) hcovers' hfits detail
      times number

/-! ## A buffer of three slots -/

/-- One star fills a leaf, every inner node has a sample, and the shares of the
rule just make up the whole buffer. -/
def narrowSettings : Settings :=
  { starsPerCell := 1, firstSampleDepth := 0,
    compaction := ⟨⟨9, 10⟩, ⟨1, 10⟩⟩ }

theorem covers_narrowSettings : narrowSettings.compaction.Covers := by
  norm_num [Compaction.Covers, Share.ratio, narrowSettings]

/-- A cube can be seen when it is asked about after one of the given numbers of
questions, and no sample is good enough. -/
def glimpse (numbers : List Nat) : Oracle := fun asked =>
  { sees := fun _ => numbers.contains asked.length
    pixels := fun _ => (10, 10) }

/-- Three leaves of the last octant hold the three slots. -/
def narrow : Tree :=
  Tree.run { settings := narrowSettings, layout := {} }
    [.insert [⟨0xbf800000⟩, ⟨0xbf800000⟩, ⟨0xbf800000⟩, .zero, .zero, .zero,
        .zero, .zero],
      .insert [⟨0xc1100000⟩, ⟨0xbf800000⟩, ⟨0xbf800000⟩, .zero, .zero, .zero,
        .zero, .zero],
      .insert [⟨0xc1100000⟩, ⟨0xc1100000⟩, ⟨0xbf800000⟩, .zero, .zero, .zero,
        .zero, .zero],
      .resizeBuffer 3, .runFrame (glimpse [7, 9, 10, 12]) .positions none]

/-- The first of them is out of sight, and its slot is pending. -/
def narrowOnce : Tree :=
  narrow.act (.runFrame (glimpse [7, 10, 12]) .positions none)

/-- Three new leaves have been placed anew before the first of the old ones
found no slot.  The other two old ones still name theirs. -/
def narrowStalled : Tree :=
  narrowOnce.run
    [.insert (cornerStar (.ofIndex 1)), .insert (cornerStar (.ofIndex 3)),
      .insert (cornerStar (.ofIndex 5)),
      .runFrame (glimpse [1, 3, 5, 7, 9, 10, 12]) .positions none]

/-- The last of the old ones is out of sight since, so its slot is pending,
although a new leaf has it too. -/
def narrowTwice : Tree :=
  narrowStalled.act (.runFrame (glimpse [1, 3, 5, 7, 10]) .positions none)

theorem fresh_narrowSettings :
    Fresh { settings := narrowSettings, layout := {} } :=
  @Fresh.created narrowSettings {} _ rfl

theorem reachable_narrow : Reachable narrow :=
  Reachable.run (.fresh fresh_narrowSettings) _

theorem reachable_narrowStalled : Reachable narrowStalled :=
  Reachable.run (reachable_narrow.act _) _

theorem reachable_narrowTwice : Reachable narrowTwice :=
  reachable_narrowStalled.act _

theorem covers_narrow : narrow.settings.compaction.Covers := by
  rw [narrow, settings_run]
  exact covers_narrowSettings

theorem covers_narrowOnce : narrowOnce.settings.compaction.Covers := by
  rw [narrowOnce, settings_act]
  exact covers_narrow

theorem covers_narrowTwice : narrowTwice.settings.compaction.Covers := by
  rw [narrowTwice, settings_act, narrowStalled, settings_run]
  exact covers_narrowOnce

/-- A leaf gets out of sight.  The first frame for the same oracle afterwards
compacts the buffer, the frames after that rest, and so the buffer is not
compacted again when a star is inserted instead and everything is seen. -/
theorem comes_to_rest_narrow :
    ∃ first second,
      (narrow.runFrame (glimpse [7, 10, 12]) .positions none).outcome =
        .ok first ∧
      (narrowOnce.runFrame (glimpse [7, 10, 12]) .positions none).outcome =
        .ok second ∧
      second.compacted = true ∧
      (∀ (times : Nat → Option Nat) (number : Nat), ∃ update,
        ((narrowOnce.watched (glimpse [7, 10, 12]) .positions times
          number).runFrame (glimpse [7, 10, 12]) .positions
            (times number)).outcome = .ok update ∧
        Rests number
          (narrowOnce.watched (glimpse [7, 10, 12]) .positions times number)
          (narrowOnce.watched (glimpse [7, 10, 12]) .positions times
            (number + 1)) update) ∧
      ∀ third,
        ((((narrowOnce.runFrame (glimpse [7, 10, 12]) .positions none).tree.run
          [.insert (cornerStar (.ofIndex 0))]).runFrame openView.oracle
            .positions none).outcome = .ok third →
          third.compacted = false) := by
  have hok : (narrow.runFrame (glimpse [7, 10, 12]) .positions
      none).outcome.isOk = true := by
    decide +kernel
  have hok' : (narrowOnce.runFrame (glimpse [7, 10, 12]) .positions
      none).outcome.isOk = true := by
    decide +kernel
  have hstart : narrowOnce.frameStart.2 = true := by decide +kernel
  have hfits : narrowOnce.residents.length ≤ narrowOnce.slots.capacity := by
    decide +kernel
  obtain ⟨first, hfirst⟩ := exists_ok_of_isOk hok
  obtain ⟨second, hsecond⟩ := exists_ok_of_isOk hok'
  have hreachable : Reachable narrowOnce := reachable_narrow.act _
  have hsucceeds := succeeds_runFrame
    (@Reachable.unnested narrowOnce hreachable) hsecond
  have hcompacted : second.compacted = true := hsucceeds.compacted.trans hstart
  have hall := Reachable.comes_to_rest reachable_narrow covers_narrow hfirst
  have hall' := @Reachable.comes_to_rest narrowOnce _ _ _ _ hreachable
    covers_narrowOnce hsecond
  have hafter : (narrow.runFrame (glimpse [7, 10, 12]) .positions none).tree =
      narrowOnce := rfl
  rw [hafter] at hall
  obtain ⟨_, _, hrests⟩ := hall
  obtain ⟨hkept, _, _⟩ := hall'
  have hkept' := hkept hcompacted [.insert (cornerStar (.ofIndex 0))]
    (List.forall_mem_singleton.mpr rfl)
  exact ⟨first, second, hfirst, hsecond, hcompacted, hrests hfits,
    hkept' openView.oracle .positions none⟩

/-- In a stalled tree the samples of a view from far away find room, since a
slot is pending that is in use.  The next frame for this view compacts the
buffer, which has three slots for four nodes, and fails. -/
theorem not_forall_watched_ok :
    ¬ ∀ (tree : Tree) (view : View) (detail : Detail) (time : Option Nat)
      (update : Update), Reachable tree →
      tree.settings.compaction.Covers →
      (tree.runFrame view.oracle detail time).outcome = .ok update →
      ∀ (times : Nat → Option Nat) (number : Nat), ∃ update',
        (((tree.runFrame view.oracle detail time).tree.watched view.oracle
          detail times number).runFrame view.oracle detail
            (times number)).outcome = .ok update' := by
  intro h
  have hok : (narrowTwice.runFrame openView.oracle .positions
      none).outcome.isOk = true := by
    decide +kernel
  have hfails : ((narrowTwice.runFrame openView.oracle .positions
      none).tree.runFrame openView.oracle .positions none).outcome.isOk =
        false := by
    decide +kernel
  obtain ⟨update, hframe⟩ := exists_ok_of_isOk hok
  obtain ⟨update', hframe'⟩ := h narrowTwice openView .positions none update
    reachable_narrowTwice covers_narrowTwice hframe (fun _ => none) 0
  rw [watched] at hframe'
  rw [hframe'] at hfails
  cases hfails

end Tree

end Starfield
