import Starfield.Proofs.Frame.Drawn
import Starfield.Proofs.Frame.Tracking
import Starfield.Proofs.Ownership
import Starfield.Proofs.Thinning

/-!
# The buffer mirrors the tree

Whoever draws begins with an empty buffer when its size is set and applies the
changes of every frame.  Between frames stars may be inserted.  This file proves
that after each frame the buffer holds exactly the chunks of the nodes that hold
slots, although a frame writes a node again only when the two numbers that it
shows have changed.
-/

namespace Starfield

/-! ## What a cell has shown -/

namespace Cell

theorem valueCount_eq (cell : Cell) :
    cell.valueCount = cell.stars.toList.flatten.length := by
  have hfold : ∀ (stars : List Star) (n : Nat),
      stars.foldl (fun n star => n + star.length) n =
        n + stars.flatten.length := by
    intro stars
    induction stars with
    | nil => intro n; rfl
    | cons star stars ih =>
        intro n
        rw [List.foldl_cons, ih, List.flatten_cons, List.length_append,
          Nat.add_assoc]
  rw [valueCount, ← Array.foldl_toList, hfold, Nat.zero_add]

/-- What is known between frames about a cell that holds a slot.  The numbers
shown are never ahead of the cell, and while they are still right, the slot holds
the chunk of the cell. -/
structure ShownBy (chunkOf : Cell → List Value) (buffer : Buffer)
    (isLeaf : Bool) (cell : Cell) (tenancy : Tenancy) : Prop where
  pos : 0 < tenancy.stars
  leaf : isLeaf = true → tenancy.stars ≤ cell.count ∧ tenancy.sampled = 0
  inner : isLeaf = false → tenancy.sampled ≤ cell.valueCount
  recorded : (tenancy.stars, tenancy.sampled) = cell.shows isLeaf →
    buffer tenancy.slot = some (chunkOf cell)

def Followed (chunkOf : Cell → List Value) (buffer : Buffer) (isLeaf : Bool)
    (cell : Cell) : Prop :=
  ∀ tenancy, cell.tenancy = some tenancy →
    cell.ShownBy chunkOf buffer isLeaf tenancy

variable {chunkOf : Cell → List Value} {buffer : Buffer} {cell : Cell}
  {settings : Settings} {layout : Layout} {star : Star}

theorem followed_of_vacant {isLeaf : Bool} (hcell : cell.tenancy = none) :
    cell.Followed chunkOf buffer isLeaf := by
  intro tenancy htenancy
  exact absurd (hcell.symm.trans htenancy) (by simp)

/-- A leaf with one more star shows too few stars. -/
theorem Followed.joined (h : cell.Followed chunkOf buffer true) :
    (cell.joined star).Followed chunkOf buffer true := by
  intro tenancy htenancy
  obtain ⟨hpos, hleaf, _, _⟩ := h tenancy htenancy
  obtain ⟨hcount, hsampled⟩ := hleaf rfl
  refine ⟨hpos, fun _ => ⟨Nat.le_succ_of_le hcount, hsampled⟩, nofun, ?_⟩
  intro hshows
  have hstars : tenancy.stars = cell.count + 1 := congrArg Prod.fst hshows
  omega

/-- A star that passes an inner node leaves the sample alone or joins it at the
end. -/
theorem stars_passed (place : Place) (cell : Cell) :
    (cell.passed settings star place).stars = cell.stars ∨
      (cell.passed settings star place).stars = cell.stars.push star := by
  simp only [passed, Cube.offer]
  split
  · split
    · exact .inr rfl
    · exact .inl rfl
  · exact .inl rfl

theorem valueCount_push (cell : Cell) {other : Cell}
    (hother : other.stars = cell.stars.push star) :
    other.valueCount = cell.valueCount + star.length := by
  rw [valueCount_eq, valueCount_eq, hother]
  simp

/-- A sample that is not empty has a value. -/
theorem valueCount_subdivided (place : Place) (cell : Cell)
    (hstars : 0 < (cell.subdivided settings layout place).stars.size) :
    0 < (cell.subdivided settings layout place).valueCount := by
  have hthinned : (cell.subdivided settings layout place).stars.toList =
      settings.thinned layout place cell.stars.toList :=
    Settings.toList_sample layout place cell.stars
  rw [← Array.length_toList, hthinned] at hstars
  rw [valueCount_eq, hthinned]
  rw [Settings.thinned] at hstars ⊢
  split
  · rw [List.flatten_cons, List.length_append]
    exact Nat.add_pos_left (layout.length_seed_pos _) _
  · rename_i hkeeps
    rw [if_neg hkeeps] at hstars
    exact absurd hstars (by simp)

/-- A leaf that has been split shows no sample yet. -/
theorem Followed.split (hstar : 0 < star.length)
    (h : cell.Followed chunkOf buffer true) (place : Place) :
    ((cell.subdivided settings layout place).passed settings star
      place).Followed chunkOf buffer false := by
  intro tenancy htenancy
  obtain ⟨hpos, hleaf, _, _⟩ := h tenancy htenancy
  obtain ⟨_, hsampled⟩ := hleaf rfl
  refine ⟨hpos, nofun, fun _ => hsampled ▸ Nat.zero_le _, fun hshows => ?_⟩
  let old := cell.subdivided settings layout place
  have hsize : tenancy.stars = (old.passed settings star place).stars.size :=
    congrArg Prod.fst hshows
  have hvalues : tenancy.sampled =
      (old.passed settings star place).valueCount :=
    congrArg Prod.snd hshows
  -- A sample that is shown is not empty, so it has a value as well.
  have hvalue : 0 < (old.passed settings star place).valueCount := by
    rcases @stars_passed settings star place old with hstars | hstars
    · rw [hstars] at hsize
      rw [valueCount_eq, hstars, ← valueCount_eq]
      exact valueCount_subdivided place cell (hsize ▸ hpos)
    · rw [valueCount_push old hstars]
      exact Nat.add_pos_right _ hstar
  omega

/-- An inner node whose sample has grown shows too few values; otherwise it is
as it was. -/
theorem Followed.passed (hstar : 0 < star.length)
    (hchunk : ∀ cell other : Cell, cell.stars = other.stars →
      chunkOf cell = chunkOf other)
    (h : cell.Followed chunkOf buffer false) (place : Place) :
    (cell.passed settings star place).Followed chunkOf buffer false := by
  intro tenancy htenancy
  obtain ⟨hpos, _, hinner, hrecorded⟩ := h tenancy htenancy
  have hsampled := hinner rfl
  rcases @stars_passed settings star place cell with hstars | hstars
  · have hvalues : (cell.passed settings star place).valueCount =
        cell.valueCount := by
      rw [valueCount_eq, valueCount_eq, hstars]
    refine ⟨hpos, nofun, fun _ => hvalues ▸ hsampled, fun hshows => ?_⟩
    rw [hchunk _ cell hstars]
    apply hrecorded
    rw [hshows]
    simp only [shows, hstars, hvalues]
    rfl
  · have hvalues := valueCount_push cell hstars
    refine ⟨hpos, nofun, fun _ => by omega, fun hshows => ?_⟩
    have hshown : tenancy.sampled =
        (cell.passed settings star place).valueCount :=
      congrArg Prod.snd hshows
    omega

end Cell

/-! ## Buffers that follow a tree -/

def Update.apply (update : Update) (buffer : Buffer) : Buffer :=
  buffer.after update.changes

namespace Tree

/-- What the cell of a node would write into its slot. -/
def chunkOf (tree : Tree) (detail : Detail) (cell : Cell) : List Value :=
  cell.chunk tree.layout tree.settings.starsPerCell detail

/-- The buffer that someone has who began with an empty one when the size was
set and has applied the changes of all frames since then, each of which has
succeeded. -/
inductive Follows (detail : Detail) : Tree → Buffer → Prop
  | resized {tree : Tree} (h : Reachable tree) (capacity : Nat) :
      Follows detail (tree.act (.resizeBuffer capacity)) .empty
  | insert {tree : Tree} {buffer : Buffer} (h : Follows detail tree buffer)
      (star : Star) : Follows detail (tree.act (.insert star)) buffer
  | insertFlat {tree : Tree} {buffer : Buffer} (h : Follows detail tree buffer)
      (values : List Value) :
      Follows detail (tree.act (.insertFlat values)) buffer
  | runFrame {tree : Tree} {buffer : Buffer} {oracle : Oracle}
      {time : Option Nat} {update : Update} (h : Follows detail tree buffer)
      (hframe : (tree.runFrame oracle detail time).outcome = .ok update) :
      Follows detail (tree.act (.runFrame oracle detail time))
        (update.apply buffer)

/-- The filled slots are those that nodes hold, and each of them has the chunk of
the node that holds it. -/
structure Mirrors (detail : Detail) (tree : Tree) (buffer : Buffer) :
    Prop where
  filled : ∀ slot, (buffer slot).isSome ↔ slot ∈ tree.held
  chunk : ∀ entry ∈ tree.listing, ∀ tenancy,
    entry.cell.tenancy = some tenancy →
      buffer tenancy.slot = some (tree.chunkOf detail entry.cell)

structure Followed (detail : Detail) (tree : Tree) (buffer : Buffer) :
    Prop where
  valid : tree.Valid
  unnested : tree.Unnested
  accounts : tree.slots.Accounts tree.held
  filled : ∀ slot, (buffer slot).isSome ↔ slot ∈ tree.held
  cells : ∀ o,
    (tree.octants o).All (Cell.Followed (tree.chunkOf detail) buffer)

variable {detail : Detail} {tree next : Tree} {buffer : Buffer}

theorem Valid.chunkOf_ne_nil (h : tree.Valid) (cell : Cell) :
    tree.chunkOf detail cell ≠ [] := by
  have hlength := cell.length_chunk tree.layout tree.settings.starsPerCell
    detail
  have hwidth : 0 < tree.layout.widthFor detail :=
    Nat.add_pos_left (Nat.add_pos_left h.position_pos _) _
  rw [← List.length_pos_iff, chunkOf, hlength]
  exact Nat.mul_pos hwidth h.starsPerCell_pos

/-- The chunk of a node is never taken for an empty slot. -/
theorem Valid.isSome_content_chunk (h : tree.Valid) {oracle : Oracle}
    (cell : Cell) :
    (Change.fill ((tree.pass oracle detail).chunk cell)).content.isSome =
      true := by
  have hchunk : (tree.pass oracle detail).chunk cell ≠ [] := h.chunkOf_ne_nil _
  simp [Change.content, hchunk]

theorem chunkOf_congr {cell other : Cell} (h : cell.stars = other.stars) :
    tree.chunkOf detail cell = tree.chunkOf detail other := by
  simp only [chunkOf, Cell.chunk, Cell.positions, Cell.colors, Cell.motions, h]

/-- The chunks of a tree depend on its layout and its settings. -/
theorem chunkOf_eq_chunkOf (hlayout : next.layout = tree.layout)
    (hsettings : next.settings = tree.settings) (detail : Detail) :
    next.chunkOf detail = tree.chunkOf detail := by
  funext cell
  rw [chunkOf, chunkOf, hlayout, hsettings]

/-! ## Between frames -/

theorem Followed.resized (hvalid : tree.Valid) (capacity : Nat) :
    Followed detail (tree.resizeBuffer capacity) .empty := by
  have hvacant := vacant_resizeBuffer tree capacity
  have hheld := hvacant.held_eq
  refine ⟨hvalid.congr rfl rfl, hvacant.unnested, ?_, ?_, ?_⟩
  · rw [hheld]
    exact SlotPool.Accounts.ofCapacity capacity
  · intro slot
    simp [hheld, Buffer.empty]
  · intro o
    rw [Node.all_iff _ [] tree.domain]
    intro entry hentry
    exact Cell.followed_of_vacant
      ((hvacant o).tenancy_of_mem_listing hentry)

theorem Followed.gains {star : Star} (h : Followed detail tree buffer)
    (hgains : tree.Gains star next) : Followed detail next buffer := by
  have hheld := hgains.held_eq
  have hstar : 0 < star.length := by
    rw [hgains.width]
    exact h.valid.width_pos
  have hchunk := chunkOf_eq_chunkOf hgains.layout hgains.settings detail
  refine ⟨h.valid.congr hgains.settings hgains.layout,
    hgains.unnested h.unnested, ?_, ?_, ?_⟩
  · rw [hheld, hgains.slots]
    exact h.accounts
  · rw [hheld]
    exact h.filled
  · obtain ⟨child, hchild, hoctants⟩ := hgains.octants
    rw [hchunk, hoctants]
    refine Node.forall_replace (P := fun _ node => node.All _) ?_ h.cells
    exact hchild.all (fun _ => Cell.Followed.joined)
      (fun place _ hcell => hcell.split hstar place)
      (fun place _ hcell => hcell.passed hstar (fun _ _ => chunkOf_congr) place)
      (fun _ => Cell.followed_of_vacant rfl) (h.cells _)

/-! ## Frames -/

theorem Followed.entry (h : Followed detail tree buffer) {entry : Entry}
    (hentry : entry ∈ tree.listing) :
    entry.cell.Followed (tree.chunkOf detail) buffer entry.isLeaf := by
  obtain ⟨o, _, ho⟩ := List.mem_flatMap.mp hentry
  exact (Node.all_iff _ [o] (tree.domain.child o)).mp (h.cells o) entry ho

theorem Followed.recorded (h : Followed detail tree buffer) (oracle : Oracle)
    {entry : Entry} (hentry : entry ∈ tree.listing) :
    entry.Recorded (tree.pass oracle detail) buffer :=
  fun tenancy htenancy => (h.entry hentry tenancy htenancy).recorded

/-- The buffer that is tracked during a frame: the one before, or an empty one
when every node is placed anew. -/
def trackedBuffer (tree : Tree) (buffer : Buffer) : Buffer :=
  if tree.frameStart.2 then .empty else buffer

theorem Followed.tracks (h : Followed detail tree buffer) (oracle : Oracle) :
    Tracks (tree.trackedBuffer buffer)
      (trackedBy (tree.pass oracle detail) tree.listing ++ [])
      tree.frameStart.1 ∅ := by
  rw [trackedBuffer, trackedBy, List.append_nil]
  rcases frameStart_cases tree with hstart | hstart
  · simp only [pass, hstart, Bool.false_eq_true, if_false]
    refine ⟨h.accounts.reclaim, ?_⟩
    rw [Buffer.after_empty]
    exact h.filled
  · simp only [pass, hstart, if_true]
    refine ⟨SlotPool.Accounts.ofCapacity _, ?_⟩
    rw [Buffer.after_empty]
    simp [Buffer.empty]

variable {oracle : Oracle} {update : Update}

/-- A frame that places every node anew collects just the slots that nodes held
before it. -/
theorem mem_stale_settled_iff (hcompacting : tree.frameStart.2 = true)
    (hdone : (tree.settled oracle detail).2.exhausted = false) (slot : Nat) :
    slot ∈ (tree.settled oracle detail).2.stale ↔ slot ∈ tree.held := by
  rw [settled] at hdone ⊢
  rw [mem_stale_settleAll_iff hcompacting _ hdone, heldBy_plan]
  exact or_iff_left List.not_mem_nil

/-- After a frame a node that holds a slot shows what it would show now. -/
theorem followed_of_becomes {entry : Entry} {planned : Entry × Bool}
    (hplanned : planned ∈ (tree.plan oracle).1)
    (hbecomes : Entry.Becomes planned entry)
    (hmirrored : entry.Mirrored (tree.pass oracle detail) buffer) :
    entry.cell.Followed (tree.chunkOf detail) buffer entry.isLeaf := by
  intro tenancy htenancy
  have hshown := hbecomes.shown
  rw [Entry.shown?, htenancy] at hshown
  obtain ⟨before, drawn⟩ := planned
  cases drawn with
  | false => cases hshown
  | true =>
      have hshows : (tenancy.stars, tenancy.sampled) = entry.shows :=
        (Option.some.inj hshown).trans hbecomes.shows.symm
      have hpos : 0 < entry.shows.1 :=
        hbecomes.shows ▸ shows_pos_of_mem_plan hplanned
      have hstars : tenancy.stars = entry.shows.1 := congrArg Prod.fst hshows
      have hsampled : tenancy.sampled = entry.shows.2 := congrArg Prod.snd hshows
      refine ⟨hstars ▸ hpos, fun hleaf => ?_, fun hinner => ?_,
        fun _ => hmirrored tenancy htenancy⟩
      · have hleafShows : entry.shows = (entry.cell.count, 0) := if_pos hleaf
        rw [hleafShows] at hstars hsampled
        exact ⟨Nat.le_of_eq hstars, hsampled⟩
      · have hinnerShows : entry.shows =
            (entry.cell.stars.size, entry.cell.valueCount) :=
          if_neg (by simp [hinner])
        rw [hinnerShows] at hsampled
        exact Nat.le_of_eq hsampled

/-- Settling the plan of a frame to the end mirrors all nodes in the buffer that
is tracked. -/
theorem Followed.tracks_settled (h : Followed detail tree buffer)
    (hdone : (tree.settled oracle detail).2.exhausted = false) :
    Tracks (tree.trackedBuffer buffer) (heldBy (tree.settled oracle detail).1)
        (tree.settled oracle detail).2.slots
        (tree.settled oracle detail).2.changes ∧
      ∀ entry ∈ (tree.settled oracle detail).1,
        entry.Mirrored (tree.pass oracle detail)
          ((tree.trackedBuffer buffer).after
            (tree.settled oracle detail).2.changes) := by
  have hrecorded : tree.frameStart.2 = false →
      ∀ entry ∈ (tree.plan oracle).1.map Prod.fst,
        entry.Recorded (tree.pass oracle detail)
          ((tree.trackedBuffer buffer).after ∅) := by
    intro hkept entry hentry
    rw [map_fst_plan] at hentry
    rw [Buffer.after_empty, trackedBuffer, hkept]
    exact h.recorded oracle hentry
  have hbegun : Tracks (tree.trackedBuffer buffer)
      (trackedBy (tree.pass oracle detail)
        ((tree.plan oracle).1.map Prod.fst) ++ []) tree.frameStart.1 ∅ := by
    rw [map_fst_plan]
    exact h.tracks oracle
  obtain ⟨htracks, hmirrored, _⟩ :=
    @tracks_settleAll (tree.pass oracle detail) (tree.trackedBuffer buffer) []
      { slots := tree.frameStart.1 } h.valid.chunkOf_ne_nil
      (tree.plan oracle).1 hdone hrecorded hbegun
  rw [List.append_nil] at htracks
  exact ⟨htracks, hmirrored⟩

/-- The changes of a frame come to what is tracked during it. -/
theorem Followed.apply_eq (h : Followed detail tree buffer)
    (hreports : tree.Reports oracle detail update) :
    update.apply buffer =
      (tree.trackedBuffer buffer).after
        (tree.settled oracle detail).2.changes := by
  obtain ⟨changes, hoverwrites, hchanges⟩ := hreports.changes
  rw [← (h.tracks_settled hreports.done).1.after_eq hoverwrites, Update.apply,
    hchanges, trackedBuffer]
  cases hcompacting : tree.frameStart.2 with
  | false =>
      have hstale : (tree.settled oracle detail).2.stale = [] :=
        stale_settleAll hcompacting _ _
      rw [hstale]
      rfl
  | true =>
      rw [if_pos rfl]
      apply Buffer.after_stale
      intro slot hslot
      rw [mem_stale_settled_iff hcompacting hreports.done]
      exact (h.filled slot).mp hslot

/-- A frame that succeeds leaves a buffer that mirrors the tree. -/
theorem Followed.frame (h : Followed detail tree buffer)
    (hframe : (tree.frame oracle detail).outcome = .ok update) :
    Mirrors detail (tree.frame oracle detail).tree (update.apply buffer) ∧
      Followed detail (tree.frame oracle detail).tree
        (update.apply buffer) := by
  have hlisting := listing_frame oracle detail h.unnested
  have hslots := slots_frame oracle detail h.unnested
  have hreports := reports_frame oracle detail h.unnested hframe
  obtain ⟨htracks, hmirrored⟩ := h.tracks_settled hreports.done
  have hbecomes : List.Forall₂ Entry.Becomes (tree.plan oracle).1
      (tree.settled oracle detail).1 :=
    becomes_settleAll (tree.plan oracle).1 _ hreports.done
  rw [← hlisting] at htracks hmirrored hbecomes
  rw [h.apply_eq hreports]
  refine ⟨⟨htracks.filled, hmirrored⟩, h.valid.congr rfl rfl,
    h.unnested.frame oracle detail, ?_, htracks.filled, fun o => ?_⟩
  · rw [hslots]
    exact htracks.accounts
  · rw [Node.all_iff _ [o] (tree.domain.child o)]
    intro entry hentry
    have hentry' : entry ∈ (tree.frame oracle detail).tree.listing :=
      List.mem_flatMap.mpr ⟨o, Octant.mem_all o, hentry⟩
    obtain ⟨planned, hplanned, hplan⟩ := exists_planned hbecomes hentry'
    change entry.cell.Followed (tree.chunkOf detail) _ entry.isLeaf
    exact followed_of_becomes hplanned hplan (hmirrored entry hentry')

/-! ## Sessions -/

/-- Recording a frame changes the log only. -/
theorem Followed.log (h : Followed detail tree buffer) (log : FrameLog) :
    Followed detail { tree with log } buffer :=
  ⟨h.valid.congr rfl rfl, h.unnested, h.accounts, h.filled, h.cells⟩

theorem Follows.followed (h : Follows detail tree buffer) :
    Followed detail tree buffer := by
  induction h with
  | resized h capacity => exact .resized h.valid capacity
  | @insert _ buffer _ star ih =>
      exact act_insert_induction (P := fun tree => Followed detail tree buffer)
        Followed.gains ih star
  | @insertFlat _ buffer _ values ih =>
      exact insertFlat_induction (P := fun tree => Followed detail tree buffer)
        Followed.gains ih values
  | @runFrame tree _ oracle time update _ hframe ih =>
      obtain ⟨log, hrun⟩ := @exists_runFrame_eq tree oracle detail time
      rw [hrun] at hframe
      rw [act, hrun]
      exact (ih.frame hframe).2.log log

/-- After each frame the buffer holds the chunks of the nodes that hold slots,
as these nodes are now, and nothing else.  It holds for buffers that were empty
when the size was set and followed successful frames only, whatever was
inserted between them. -/
theorem Follows.mirrors {time : Option Nat}
    (h : Follows detail tree buffer)
    (hframe : (tree.runFrame oracle detail time).outcome = .ok update) :
    Mirrors detail (tree.runFrame oracle detail time).tree
      (update.apply buffer) := by
  obtain ⟨log, hrun⟩ := @exists_runFrame_eq tree oracle detail time
  rw [hrun] at hframe ⊢
  have hmirrors := (h.followed.frame hframe).1
  exact ⟨hmirrors.filled, hmirrors.chunk⟩

theorem follows_crowded : Follows .positions crowded .empty :=
  .resized managed_crowdedStars.reachable 2

/-- The second of the frames compacts the buffer, in which one slot is filled. -/
theorem mirrors_crowded :
    ∃ first second,
      (crowded.runFrame (seesAfter 7) .positions none).outcome = .ok first ∧
      (crowdedOnce.runFrame (seesAfter 0) .positions none).outcome =
        .ok second ∧
      second.compacted = true ∧
      Mirrors .positions
        (crowdedOnce.runFrame (seesAfter 0) .positions none).tree
        (second.apply (first.apply .empty)) ∧
      (second.apply (first.apply .empty) 0).isSome = true ∧
      second.apply (first.apply .empty) 1 = none := by
  have hok : (crowded.runFrame (seesAfter 7) .positions
      none).outcome.isOk = true := by
    decide +kernel
  have hok' : (crowdedOnce.runFrame (seesAfter 0) .positions
      none).outcome.isOk = true := by
    decide +kernel
  have hcompacted : (crowdedOnce.runFrame (seesAfter 0) .positions
      none).outcome.toOption.map Update.compacted = some true := by
    decide +kernel
  have hheld : (crowdedOnce.runFrame (seesAfter 0) .positions none).tree.held =
      [0] := by
    decide +kernel
  obtain ⟨first, hfirst⟩ := exists_ok_of_isOk hok
  obtain ⟨second, hsecond⟩ := exists_ok_of_isOk hok'
  have honce : Follows .positions crowdedOnce (first.apply .empty) :=
    .runFrame follows_crowded hfirst
  have hmirrors := Follows.mirrors honce hsecond
  have hfilled := hmirrors.filled
  rw [hheld] at hfilled
  rw [hsecond] at hcompacted
  refine ⟨first, second, hfirst, hsecond, Option.some.inj hcompacted, hmirrors,
    (hfilled 0).mpr List.mem_cons_self, Option.not_isSome_iff_eq_none.mp ?_⟩
  exact fun hsome => absurd ((hfilled 1).mp hsome) (by decide)

end Tree

end Starfield
