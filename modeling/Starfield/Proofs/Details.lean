import Starfield.Proofs.Exchange
import Starfield.Proofs.Flat.Frames

/-!
# In which detail a slot is written

The detail is chosen anew for every frame, but a frame writes only those nodes
that have changed.  A node that has not stays in the detail in which it was
written last, until it changes or the buffer is compacted.  So a buffer may hold
chunks of several details, and of different lengths.  Whoever draws can keep track
of this: the update itself tells which slots have been written.

Whether a node has changed is told from the number of stars and of values that its
slot shows.  These are words, so the values of a full cell must be countable with
one.
-/

namespace Starfield

namespace Update

variable {update : Update} {buffer : Buffer} {slot : Nat}

theorem apply_of_content {change : Change} {chunk : List Value}
    (hchange : update.changes[slot]? = some change)
    (hcontent : change.content = some chunk) :
    update.apply buffer slot = some chunk := by
  rw [apply, Buffer.after, hchange]
  exact hcontent

/-- A slot that is neither filled nor emptied is left alone. -/
theorem apply_of_untouched (hfills : update.fills slot = false)
    (hempties : update.empties slot = false) :
    update.apply buffer slot = buffer slot := by
  rw [apply, Buffer.after]
  rw [fills] at hfills
  rw [empties] at hempties
  cases hchange : update.changes[slot]? with
  | none => rfl
  | some change =>
      rw [hchange, Option.any_some] at hfills hempties
      cases hcontent : change.content <;> simp [hcontent] at hfills hempties

end Update

/-- The details in which the chunks in the slots were written; an empty slot has
none. -/
abbrev Details := Nat → Option Detail

def Details.after (details : Details) (detail : Detail) (update : Update) :
    Details := fun slot =>
  if update.fills slot then some detail
  else if update.empties slot then none
  else details slot

/-- What can be told about the slots of a drawing buffer since its size was
set. -/
structure Display where
  /-- The nodes as they were when they were written last. -/
  record : Record
  buffer : Buffer
  details : Details

namespace Display

def blank : Display :=
  { record := .empty, buffer := .empty, details := fun _ => none }

/-- The display after an update in the given detail that has left the given
tree. -/
def after (display : Display) (tree : Tree) (detail : Detail)
    (update : Update) : Display where
  record := display.record.after tree update
  buffer := update.apply display.buffer
  details := display.details.after detail update

end Display

/-- A node holds one slot at most. -/
theorem Cell.any_held {cell : Cell} {slot : Nat} (hslot : slot ∈ cell.held)
    (p : Nat → Bool) : cell.held.any p = p slot := by
  obtain ⟨tenancy, htenancy, rfl⟩ := mem_held_iff.mp hslot
  rw [held_of_tenancy htenancy, List.any_cons, List.any_nil, Bool.or_false]

/-- A node that shows the same as when it was written stores the same. -/
theorem Entry.Grows.stars_eq {layout : Layout} {capacity : Nat}
    {written entry : Entry} (h : written.Grows entry)
    (hwritten : written.cell.Regular layout capacity written.isLeaf)
    (hentry : entry.cell.Regular layout capacity entry.isLeaf)
    (hwidth : 0 < layout.width) (hpos : 0 < entry.shows.1)
    (hshows : written.shows = entry.shows) :
    entry.cell.stars = written.cell.stars := by
  have hsettled : ¬entry.Outgrows written := by
    rw [← h.shows_ne_iff hwritten hentry hwidth hpos]
    exact fun hne => hne hshows
  rw [Outgrows, not_or] at hsettled
  have hleaf : entry.isLeaf = written.isLeaf := by
    cases hwas : written.isLeaf with
    | false => exact h.inner hwas
    | true =>
        apply Bool.eq_true_of_not_eq_false
        exact fun hsplit => hsettled.2 ⟨hwas, hsplit⟩
  have hlength : entry.cell.stars.size ≤ written.cell.stars.size :=
    Nat.le_of_not_lt hsettled.1
  have hstars := (h.stars hleaf).eq_of_length_le hlength
  exact (Array.toList_inj.mp hstars).symm

namespace Tree

/-- The display of someone who began with an empty buffer when its size was set
and has followed all frames since then.  Each of them has succeeded, and each may
have been in another detail. -/
inductive Displays : Tree → Display → Prop
  | resized {tree : Tree} (h : Reachable tree) (capacity : Nat) :
      Displays (tree.act (.resizeBuffer capacity)) .blank
  | insert {tree : Tree} {display : Display} (h : Displays tree display)
      (star : Star) : Displays (tree.act (.insert star)) display
  | insertFlat {tree : Tree} {display : Display} (h : Displays tree display)
      (values : List Value) :
      Displays (tree.act (.insertFlat values)) display
  | runFrame {tree : Tree} {display : Display} {oracle : Oracle}
      {detail : Detail} {time : Option Nat} {update : Update}
      (h : Displays tree display)
      (hframe : (tree.runFrame oracle detail time).outcome = .ok update) :
      Displays (tree.act (.runFrame oracle detail time))
        (display.after (tree.act (.runFrame oracle detail time)) detail update)

variable {tree next : Tree} {display : Display} {oracle : Oracle}
  {detail : Detail} {time : Option Nat} {update : Update} {entry : Entry}
  {slot : Nat}

theorem Displays.recorded (h : Displays tree display) :
    Recorded tree display.record := by
  induction h with
  | resized h capacity => exact .resizeBuffer h capacity
  | insert _ star ih => exact ih.insert star
  | insertFlat _ values ih => exact ih.insertFlat values
  | runFrame _ hframe ih => exact ih.runFrame hframe

/-- The slot holds the chunk of the node as it is recorded, in the detail that is
known. -/
def IsDisplayed (tree : Tree) (display : Display) (entry : Entry) (slot : Nat) :
    Prop :=
  ∃ written last, display.record entry.path = some written ∧
    display.details slot = some last ∧
    display.buffer slot = some (tree.chunkOf last written.cell)

/-- This is so of all slots that nodes hold. -/
def Faithful (tree : Tree) (display : Display) : Prop :=
  ∀ entry ∈ tree.listing, ∀ slot ∈ entry.cell.held,
    tree.IsDisplayed display entry slot

/-! ## Between frames -/

theorem Vacant.faithful (h : tree.Vacant) (display : Display) :
    tree.Faithful display := by
  intro entry hentry slot hslot
  have hheld : slot ∈ tree.held := held_subset_heldBy hentry hslot
  rw [h.held_eq] at hheld
  exact absurd hheld List.not_mem_nil

theorem Faithful.gains {star : Star} (h : tree.Faithful display)
    (hgains : tree.Gains star next) : next.Faithful display := by
  intro entry hentry slot hslot
  rcases hgains.extends.origin entry hentry with
    ⟨old, hold, hgrows⟩ | ⟨hvacant, _⟩
  · have hslot' : slot ∈ old.cell.held := by
      rwa [Cell.held, ← hgrows.tenancy]
    obtain ⟨written, last, hwritten, hlast, hchunk⟩ := h old hold slot hslot'
    refine ⟨written, last, hgrows.path ▸ hwritten, hlast, ?_⟩
    rw [hchunk, chunkOf_eq_chunkOf hgains.layout hgains.settings]
  · rw [Cell.held_of_vacant hvacant] at hslot
    exact absurd hslot List.not_mem_nil

/-! ## Frames -/

theorem eq_of_held (haccounts : tree.slots.Accounts tree.held) {other : Entry}
    (hentry : entry ∈ tree.listing) (hslot : slot ∈ entry.cell.held)
    (hother : other ∈ tree.listing) (hslot' : slot ∈ other.cell.held) :
    other = entry := by
  have hholding : (entry.path, slot) ∈ tree.holdings :=
    mem_holdingsBy.mpr ⟨entry, hentry, rfl, hslot⟩
  have hholding' : (other.path, slot) ∈ tree.holdings :=
    mem_holdingsBy.mpr ⟨other, hother, rfl, hslot'⟩
  exact eq_of_path hentry hother (eq_of_holdings haccounts hholding hholding')

namespace Succeeds

variable (h : tree.Succeeds oracle detail update next)
  (haccounts : tree.slots.Accounts tree.held) (htree : tree.Valid)
  (hentry : entry ∈ next.listing) (hslot : slot ∈ entry.cell.held)

include h haccounts htree hentry hslot

/-- A chunk that is brought for the slot of a node is the chunk of this node. -/
theorem content_of_fills (hfills : update.fills slot = true) :
    ∃ change, update.changes[slot]? = some change ∧
      change.content = some (next.chunkOf detail entry.cell) := by
  cases hcompacted : update.compacted with
  | true => exact h.content_of_held hcompacted htree hentry hslot
  | false =>
      obtain ⟨change, hchange, hcontent⟩ := (Option.any_eq_true _ _).mp hfills
      rcases h.change_sound hcompacted hchange with
        ⟨rfl, _⟩ | ⟨other, hother, hslot', rfl⟩
      · cases hcontent
      · -- No other node holds the slot, so the chunk is that of this one.
        obtain rfl := eq_of_held (h.accounts (.inl haccounts)) hentry hslot
          hother hslot'
        refine ⟨_, hchange, ?_⟩
        have hchunk : (tree.pass oracle detail).chunk other.cell ≠ [] :=
          htree.chunkOf_ne_nil _
        rw [h.chunkOf_eq]
        exact if_neg (by simpa using hchunk)

/-- The slot of a node is not emptied. -/
theorem empties_eq_false : update.empties slot = false := by
  apply eq_false_of_ne_true
  intro hempties
  have hheld : slot ∈ next.held := held_subset_heldBy hentry hslot
  cases hcompacted : update.compacted with
  | true =>
      exact ((h.empties_iff_of_compacted hcompacted htree slot).mp
        hempties).2 hheld
  | false =>
      have hpending : next.slots.isPending slot = true := by
        rw [h.isPending_iff hcompacted haccounts]
        exact (h.empties_iff hcompacted haccounts htree slot).mp hempties
      rw [(h.accounts (.inl haccounts)).isPending_eq_false hheld] at hpending
      cases hpending

/-- A node whose chunk is not written had the slot before. -/
theorem exists_before (hfills : update.fills slot = false) :
    ∃ before ∈ tree.listing, slot ∈ before.cell.held ∧ before.Grows entry := by
  obtain ⟨before, hbefore, _, hgrows⟩ := h.exists_grows haccounts htree hentry
    (Entry.isResident_iff.mpr ⟨slot, hslot⟩)
    ((Cell.any_held hslot _).trans hfills)
  refine ⟨before, hbefore, ?_, hgrows⟩
  rwa [Cell.held, ← hgrows.tenancy]

end Succeeds

/-- A frame that succeeds keeps the display faithful, whatever its detail. -/
theorem Faithful.frame (hdisplay : tree.Faithful display)
    (h : tree.Succeeds oracle detail update next) (htree : tree.Valid)
    (haccounts : tree.slots.Accounts tree.held) :
    next.Faithful (display.after next detail update) := by
  intro entry hentry slot hslot
  have hempties := h.empties_eq_false haccounts htree hentry hslot
  cases hfills : update.fills slot with
  | true =>
      obtain ⟨change, hchange, hcontent⟩ :=
        h.content_of_fills haccounts htree hentry hslot hfills
      refine ⟨entry, detail, ?_, ?_, Update.apply_of_content hchange hcontent⟩
      · apply Record.after_of_written hentry
        rw [Cell.any_held hslot, hfills]
      · simp [Display.after, Details.after, hfills]
  | false =>
      obtain ⟨before, hbefore, hslot', hgrows⟩ :=
        h.exists_before haccounts htree hentry hslot hfills
      obtain ⟨written, last, hwritten, hlast, hchunk⟩ :=
        hdisplay before hbefore slot hslot'
      refine ⟨written, last, ?_, ?_, ?_⟩
      · rw [← hgrows.path] at hwritten
        refine Eq.trans ?_ hwritten
        apply Record.after_of_not_written hentry
        rw [Cell.any_held hslot, hfills]
      · simp [Display.after, Details.after, hfills, hempties, hlast]
      · rw [chunkOf_eq_chunkOf h.layout h.settings, ← hchunk]
        exact Update.apply_of_untouched hfills hempties

theorem Displays.faithful (h : Displays tree display) :
    tree.Faithful display := by
  induction h with
  | @resized tree _ capacity =>
      exact (vacant_resizeBuffer tree capacity).faithful .blank
  | @insert _ display _ star ih =>
      exact act_insert_induction (P := fun tree => tree.Faithful display)
        Faithful.gains ih star
  | @insertFlat _ display _ values ih =>
      exact insertFlat_induction (P := fun tree => tree.Faithful display)
        Faithful.gains ih values
  | runFrame h hframe ih =>
      have htidy := h.recorded.tidy
      exact ih.frame (succeeds_runFrame htidy.reachable.unnested hframe)
        htidy.reachable.valid htidy.accounts

/-! ## After a frame -/

/-- The frame has written the node: it has placed every node anew, or the node
held no slot before it, or had outgrown what was written. -/
def Renews (tree : Tree) (record : Record) (update : Update) (entry : Entry) :
    Prop :=
  update.compacted = true ∨ entry.path ∉ tree.holders ∨
    ∃ written, record entry.path = some written ∧ entry.Outgrows written

/-- What a slot shows of the node that holds it after a frame. -/
structure Draws (tree next : Tree) (display : Display) (detail : Detail)
    (update : Update) (entry : Entry) (slot : Nat) (last : Detail) : Prop where
  known : (display.after next detail update).details slot = some last
  /-- It is the chunk of the node as it is, in the detail in which it was written
  last. -/
  chunk : (display.after next detail update).buffer slot =
    some (next.chunkOf last entry.cell)
  length : (next.chunkOf last entry.cell).length = next.chunkLength last
  written : update.fills slot = true ↔
    tree.Renews display.record update entry
  renewed : tree.Renews display.record update entry → last = detail
  /-- A node that has not been written has its slot still, in the detail that it
  had before. -/
  kept : ¬tree.Renews display.record update entry →
    (entry.path, slot) ∈ tree.holdings ∧ display.details slot = some last

theorem Succeeds.fills_iff_renews {record : Record}
    (h : tree.Succeeds oracle detail update next)
    (hrecord : Recorded tree record) (hentry : entry ∈ next.listing)
    (hslot : slot ∈ entry.cell.held) :
    update.fills slot = true ↔ tree.Renews record update entry := by
  have htree := hrecord.tidy.reachable.regular
  have haccounts := hrecord.tidy.accounts
  cases hcompacted : update.compacted with
  | true =>
      refine iff_of_true ?_ (.inl hcompacted)
      rw [h.fills_iff_of_compacted hcompacted htree.valid]
      exact held_subset_heldBy hentry hslot
  | false =>
      have hexchanges := h.exchanges hcompacted haccounts hrecord.remembers htree
      rw [hexchanges.filled, Renews, hcompacted, or_iff_right Bool.false_ne_true]
      constructor
      · rintro ⟨other, hother, hslot', hnew⟩
        obtain rfl := eq_of_held (h.accounts (.inl haccounts)) hentry hslot
          hother hslot'
        exact hnew.imp_right And.right
      · intro hnew
        refine ⟨entry, hentry, hslot, ?_⟩
        by_cases hold : entry.path ∈ tree.holders
        · exact .inr ⟨hold, hnew.resolve_left (not_not_intro hold)⟩
        · exact .inl hold

/-- After a frame, what is recorded of a node that holds a slot has the stars
that the node has. -/
theorem Succeeds.stars_eq_of_remembers {record : Record}
    (h : tree.Succeeds oracle detail update next) (hnext : next.Regular)
    (hrecord : next.Remembers record) (hentry : entry ∈ next.listing)
    (hresident : entry.isResident = true) {written : Entry}
    (hwritten : record entry.path = some written) :
    entry.cell.stars = written.cell.stars := by
  obtain ⟨other, hother, hgrows, hshown, hregular⟩ :=
    hrecord entry hentry hresident
  obtain rfl := Option.some.inj (hwritten.symm.trans hother)
  obtain ⟨before, hnode⟩ := exists_mem_zip_right h.forall₂_continues hentry
  have hshows := (List.forall₂_zip h.forall₂_continues hnode).shown hresident
  rw [Entry.shown?, hgrows.tenancy] at hshows
  exact hgrows.stars_eq hregular (hnext.of_mem_listing hentry)
    hnext.valid.width_pos (h.shows_pos hentry hresident)
    (Option.some.inj (hshown.symm.trans hshows))

/-- Each slot has the chunk of the node that holds it, as this node is after the
frame, in the detail of the frame that wrote it last. -/
theorem Displays.draws_of_held (h : Displays tree display)
    (hframe : (tree.runFrame oracle detail time).outcome = .ok update)
    (hentry : entry ∈ (tree.runFrame oracle detail time).tree.listing)
    (hslot : slot ∈ entry.cell.held) :
    ∃ last, tree.Draws (tree.runFrame oracle detail time).tree display detail
      update entry slot last := by
  have htidy := h.recorded.tidy
  have hsucceeds := succeeds_runFrame htidy.reachable.unnested hframe
  have hnext := Displays.runFrame h hframe
  obtain ⟨written, last, hwritten, hlast, hchunk⟩ :=
    hnext.faithful entry hentry slot hslot
  have hstars := hsucceeds.stars_eq_of_remembers
    hnext.recorded.tidy.reachable.regular hnext.recorded.remembers hentry
    (Entry.isResident_iff.mpr ⟨slot, hslot⟩) hwritten
  have hrenews := hsucceeds.fills_iff_renews h.recorded hentry hslot
  refine ⟨last, {
    known := hlast
    chunk := hchunk.trans (congrArg some (chunkOf_congr hstars.symm))
    length := Cell.length_chunk _ _ _ _
    written := hrenews
    renewed := fun hrenewed => ?_
    kept := fun hkept => ?_ }⟩
  · have hfills := hrenews.mpr hrenewed
    simp only [Display.after, Details.after, hfills, if_true] at hlast
    exact (Option.some.inj hlast).symm
  · have hfills : update.fills slot = false :=
      eq_false_of_ne_true fun hfills => hkept (hrenews.mp hfills)
    have hempties := hsucceeds.empties_eq_false htidy.accounts
      htidy.reachable.valid hentry hslot
    obtain ⟨before, hbefore, hslot', hgrows⟩ := hsucceeds.exists_before
      htidy.accounts htidy.reachable.valid hentry hslot hfills
    refine ⟨mem_holdingsBy.mpr ⟨before, hbefore, hgrows.path.symm, hslot'⟩, ?_⟩
    simpa [Display.after, Details.after, hfills, hempties] using hlast

/-- A frame does the same whether it counts in words or in numbers, and after it a
slot has the chunk of the node that holds it, as this node is now, in the detail
of the frame that wrote it last: this frame, if it has written the node, and an
earlier one otherwise. -/
theorem Displays.draws (h : Displays tree display)
    (hwords : tree.settings.starsPerCell * tree.layout.width < 2 ^ 32)
    (hframe : (tree.runFrame oracle detail time).outcome = .ok update) :
    tree.flat.runFrame oracle detail time =
        ((tree.runFrame oracle detail time).tree.flat,
          (tree.runFrame oracle detail time).asked, .ok update) ∧
      ∀ entry ∈ (tree.runFrame oracle detail time).tree.listing,
        ∀ slot ∈ entry.cell.held, ∃ last,
          tree.Draws (tree.runFrame oracle detail time).tree display detail
            update entry slot last := by
  refine ⟨?_, fun entry hentry slot hslot =>
    h.draws_of_held hframe hentry hslot⟩
  rw [h.recorded.tidy.reachable.runFrame_flat hwords, hframe]

theorem exists_displays_lively :
    ∃ update, ((livelyStars.act (.resizeBuffer 5)).runFrame openView.oracle
        .positions none).outcome = .ok update ∧
      Displays lively (Display.blank.after lively .positions update) := by
  have hok : ((livelyStars.act (.resizeBuffer 5)).runFrame openView.oracle
      .positions none).outcome.isOk = true := by
    decide +kernel
  obtain ⟨update, hframe⟩ := exists_ok_of_isOk hok
  exact ⟨update, hframe,
    (Displays.resized reachable_livelyStars 5).runFrame hframe⟩

/-- The third leaf is left in its old detail while the slots of the others are
filled in the new one. -/
theorem draws_lively :
    ∃ display update,
      Displays livelier display ∧
      livelier.settings.starsPerCell * livelier.layout.width < 2 ^ 32 ∧
      (livelier.runFrame missesFirst .motion none).outcome = .ok update ∧
      livelier.flat.runFrame missesFirst .motion none =
        ((livelier.runFrame missesFirst .motion none).tree.flat,
          (livelier.runFrame missesFirst .motion none).asked, .ok update) ∧
      (∀ entry ∈ (livelier.runFrame missesFirst .motion none).tree.listing,
        ∀ slot ∈ entry.cell.held, ∃ last,
          livelier.Draws (livelier.runFrame missesFirst .motion none).tree
            display .motion update entry slot last) ∧
      (List.range 5).map (display.details.after .motion update) =
        [none, some .motion, some .positions, some .motion, some .motion] := by
  have hok : (livelier.runFrame missesFirst .motion none).outcome.isOk =
      true := by
    decide +kernel
  have hdetails : ((livelyStars.act (.resizeBuffer 5)).runFrame openView.oracle
      .positions none).outcome.toOption.bind (fun first =>
        (livelier.runFrame missesFirst .motion none).outcome.toOption.map
          fun update => (List.range 5).map
            ((Display.blank.after lively .positions first).details.after
              .motion update)) =
      some [none, some .motion, some .positions, some .motion,
        some .motion] := by
    decide +kernel
  obtain ⟨first, hfirst, hlively⟩ := exists_displays_lively
  obtain ⟨update, hframe⟩ := exists_ok_of_isOk hok
  have hdisplays : Displays livelier _ :=
    (((hlively.insert _).insert _).insert _).insert _
  rw [hfirst, hframe] at hdetails
  have hwords : livelier.settings.starsPerCell * livelier.layout.width <
      2 ^ 32 := by
    decide +kernel
  obtain ⟨hflat, hdraws⟩ := Displays.draws hdisplays hwords hframe
  exact ⟨_, update, hdisplays, hwords, hframe, hflat, hdraws,
    Option.some.inj hdetails⟩

/-- When the detail is changed and nothing else, the next frame writes nothing,
and all chunks stay as they are. -/
theorem not_forall_displayed :
    ¬ ∀ (tree : Tree) (display : Display) (oracle : Oracle) (detail : Detail)
      (time : Option Nat) (update : Update), Displays tree display →
      (tree.runFrame oracle detail time).outcome = .ok update →
      ∀ entry ∈ (tree.runFrame oracle detail time).tree.listing,
        ∀ slot ∈ entry.cell.held,
          (display.after (tree.runFrame oracle detail time).tree detail
              update).buffer slot =
            some ((tree.runFrame oracle detail time).tree.chunkOf detail
              entry.cell) := by
  intro h
  have hok : (lively.runFrame openView.oracle .motion none).outcome.isOk =
      true := by
    decide +kernel
  have hbuffer : ((livelyStars.act (.resizeBuffer 5)).runFrame openView.oracle
      .positions none).outcome.toOption.bind (fun first =>
        (lively.runFrame openView.oracle .motion none).outcome.toOption.bind
          fun update => (update.apply (first.apply .empty) 0).map
            List.length) = some 6 := by
    decide +kernel
  have hheld : 0 ∈ (lively.runFrame openView.oracle .motion none).tree.held := by
    decide +kernel
  have hlong : (lively.runFrame openView.oracle .motion
      none).tree.chunkLength .motion = 16 := by
    decide +kernel
  obtain ⟨first, hfirst, hdisplays⟩ := exists_displays_lively
  obtain ⟨update, hframe⟩ := exists_ok_of_isOk hok
  obtain ⟨entry, hentry, hslot⟩ := List.mem_flatMap.mp hheld
  have hchunk : update.apply (first.apply .empty) 0 = _ :=
    h lively _ openView.oracle .motion none update hdisplays hframe entry
      hentry 0 hslot
  rw [hfirst, hframe] at hbuffer
  change (update.apply (first.apply .empty) 0).map List.length = _ at hbuffer
  rw [hchunk, Option.map_some, Option.some_inj] at hbuffer
  have hlength := entry.cell.length_chunk
    (lively.runFrame openView.oracle .motion none).tree.layout
    (lively.runFrame openView.oracle .motion none).tree.settings.starsPerCell
    .motion
  exact absurd ((hbuffer.symm.trans hlength).trans hlong) (by decide)

end Tree

end Starfield
