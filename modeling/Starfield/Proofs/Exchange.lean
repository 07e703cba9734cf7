import Starfield.Proofs.Frame.Sending
import Starfield.Proofs.Repacking

/-!
# A frame sends what has changed

A frame that keeps the buffer fills the slots of the nodes that had none before,
and of those that have become something else than what was written last: a node
that has taken stars into its own store, or a leaf that has become an inner node.
It empties the slots that are given up, and no other ones.
-/

namespace Starfield

/-! ## Nodes before and after a frame -/

/-- The second node is what has become of the first one in a frame: it stores
the same, and if it holds a slot, the slot shows what is to be shown. -/
structure Entry.Continues (before after : Entry) : Prop where
  path : after.path = before.path
  isLeaf : after.isLeaf = before.isLeaf
  clear : after.cell.clear = before.cell.clear
  shows : after.shows = before.shows
  shown : after.isResident = true → after.shown? = some after.shows

theorem Entry.Becomes.continues {planned : Entry × Bool} {entry : Entry}
    (h : Becomes planned entry) : planned.1.Continues entry where
  path := h.path
  isLeaf := h.isLeaf
  clear := h.clear
  shows := h.shows
  shown := by
    intro hresident
    obtain ⟨tenancy, htenancy⟩ := Option.isSome_iff_exists.mp hresident
    have hshown := h.shown
    cases hdrawn : planned.2 with
    | true => rwa [hdrawn, if_pos rfl, ← h.shows] at hshown
    | false => simp [shown?, htenancy, hdrawn] at hshown

namespace Entry.Continues

variable {before after : Entry}

theorem stars_eq (h : before.Continues after) :
    after.cell.stars = before.cell.stars := by
  have hstars : after.cell.clear.stars = before.cell.clear.stars := by
    rw [h.clear]
  exact hstars

theorem outgrows_iff (h : before.Continues after) (written : Entry) :
    after.Outgrows written ↔ before.Outgrows written := by
  rw [Outgrows, Outgrows, h.stars_eq, h.isLeaf]

theorem grows (h : before.Continues after)
    (htenancy : after.cell.tenancy = before.cell.tenancy) :
    before.Grows after where
  path := h.path
  tenancy := htenancy
  inner := fun hleaf => h.isLeaf.trans hleaf
  stars := fun _ => h.stars_eq ▸ List.prefix_rfl

end Entry.Continues

/-! ## What a frame sends -/

theorem exists_mem_zip_left {α β : Type} {R : α → β → Prop} {xs : List α}
    {ys : List β} (h : List.Forall₂ R xs ys) {x : α} (hx : x ∈ xs) :
    ∃ y, (x, y) ∈ xs.zip ys := by
  induction h with
  | nil => exact absurd hx List.not_mem_nil
  | @cons _ y _ _ _ _ ih =>
      rcases List.mem_cons.mp hx with rfl | hx
      · exact ⟨y, List.mem_cons_self⟩
      · obtain ⟨y, hy⟩ := ih hx
        exact ⟨y, List.mem_cons_of_mem _ hy⟩

theorem exists_mem_zip_right {α β : Type} {R : α → β → Prop} {xs : List α}
    {ys : List β} (h : List.Forall₂ R xs ys) {y : β} (hy : y ∈ ys) :
    ∃ x, (x, y) ∈ xs.zip ys := by
  induction h with
  | nil => exact absurd hy List.not_mem_nil
  | @cons x _ _ _ _ _ ih =>
      rcases List.mem_cons.mp hy with rfl | hy
      · exact ⟨x, List.mem_cons_self⟩
      · obtain ⟨x, hx⟩ := ih hy
        exact ⟨x, List.mem_cons_of_mem _ hx⟩

namespace Tree

variable {tree next : Tree} {record : Record} {oracle : Oracle}
  {detail : Detail} {time : Option Nat} {update : Update}

namespace Succeeds

theorem forall₂_continues (h : tree.Succeeds oracle detail update next) :
    List.Forall₂ Entry.Continues tree.listing next.listing := by
  rw [← tree.map_fst_plan oracle, List.forall₂_map_left_iff]
  exact h.becomes.imp fun planned after hbecomes => hbecomes.continues

/-- A node with a slot was to be drawn, so it shows a star. -/
theorem shows_pos (h : tree.Succeeds oracle detail update next) {entry : Entry}
    (hentry : entry ∈ next.listing) (hresident : entry.isResident = true) :
    0 < entry.shows.1 := by
  obtain ⟨⟨before, drawn⟩, hplanned, hbecomes⟩ :=
    exists_planned h.becomes hentry
  obtain ⟨tenancy, htenancy⟩ := Option.isSome_iff_exists.mp hresident
  have hshown := hbecomes.shown
  rw [hbecomes.shows]
  cases drawn with
  | true => exact shows_pos_of_mem_plan hplanned
  | false => simp [Entry.shown?, htenancy] at hshown

section

variable (h : tree.Succeeds oracle detail update next)
  (hkept : update.compacted = false)
  (haccounts : tree.slots.Accounts tree.held)

include h hkept haccounts

theorem trades :
    Trades (tree.pass oracle detail) (tree.listing.zip next.listing)
      { slots := tree.slots.reclaim } (tree.settled oracle detail).2 := by
  have hstart := h.start_of_kept hkept
  have hslots : tree.frameStart.1 = tree.slots.reclaim :=
    congrArg Prod.fst hstart
  have hbegun : tree.slots.reclaim.Accounts
      (heldBy ((tree.plan oracle).1.map Prod.fst) ++ []) := by
    rw [List.append_nil, heldBy_plan]
    exact haccounts.reclaim
  have hdone := h.done
  rw [settled, hslots] at hdone
  have htrades := @trades_settleAll (tree.pass oracle detail)
    { slots := tree.slots.reclaim } (congrArg Prod.snd hstart)
    (tree.plan oracle).1 [] hdone hbegun fun _ _ =>
      Std.TreeMap.getElem?_emptyc
  rw [map_fst_plan] at htrades
  rw [h.listing, settled, hslots]
  exact htrades

/-- A node that had a slot and has one still has the same one. -/
theorem slot_eq {before after : Entry}
    (hnode : (before, after) ∈ tree.listing.zip next.listing)
    {slot slot' : Nat} (hbefore : slot ∈ before.cell.held)
    (hafter : slot' ∈ after.cell.held) : slot' = slot :=
  (h.trades hkept haccounts).kept _ hnode slot hbefore slot' hafter

theorem changes_iff (slot : Nat) (change : Change) :
    update.changes[slot]? = some change ↔
      ∃ node ∈ tree.listing.zip next.listing,
        node.1.Sends (tree.pass oracle detail) node.2 slot change := by
  rw [h.getElem?_of_kept hkept haccounts, (h.trades hkept haccounts).changes]
  simp

/-- Chunks are brought for the slots of the nodes that did not show before what
they show now. -/
theorem fills_iff (htree : tree.Valid) (slot : Nat) :
    update.fills slot = true ↔
      ∃ node ∈ tree.listing.zip next.listing, slot ∈ node.2.cell.held ∧
        node.1.shown? ≠ some node.1.shows := by
  rw [Update.fills, Option.any_eq_true]
  constructor
  · rintro ⟨change, hchange, hcontent⟩
    obtain ⟨node, hnode, hsends⟩ :=
      (h.changes_iff hkept haccounts slot change).mp hchange
    cases hsends with
    | filled hafter hnew =>
        exact ⟨node, hnode, by simp [Cell.held_of_tenancy hafter], hnew⟩
    | emptied => cases hcontent
  · rintro ⟨node, hnode, hheld, hnew⟩
    obtain ⟨tenancy, htenancy, rfl⟩ := Cell.mem_held_iff.mp hheld
    refine ⟨_, (h.changes_iff hkept haccounts _ _).mpr
      ⟨node, hnode, .filled htenancy hnew⟩, ?_⟩
    exact htree.isSome_content_chunk node.2.cell

/-- The slots that are given up are emptied. -/
theorem empties_iff (htree : tree.Valid) (slot : Nat) :
    update.empties slot = true ↔
      ∃ node ∈ tree.listing.zip next.listing, slot ∈ node.1.cell.held ∧
        node.2.cell.tenancy = none := by
  simp only [← @Entry.sends_vacate_iff (tree.pass oracle detail)]
  rw [← h.changes_iff hkept haccounts, Update.empties, Option.any_eq_true]
  constructor
  · rintro ⟨change, hchange, hcontent⟩
    obtain ⟨node, _, hsends⟩ :=
      (h.changes_iff hkept haccounts slot change).mp hchange
    cases hsends with
    | filled =>
        rw [← Option.not_isSome, htree.isSome_content_chunk] at hcontent
        cases hcontent
    | emptied => exact hchange
  · exact fun hchange => ⟨.vacate, hchange, rfl⟩

/-- They are the pending ones. -/
theorem isPending_iff (slot : Nat) :
    next.slots.isPending slot = true ↔
      ∃ node ∈ tree.listing.zip next.listing, slot ∈ node.1.cell.held ∧
        node.2.cell.tenancy = none := by
  simp only [← @Entry.sends_vacate_iff (tree.pass oracle detail)]
  rw [h.slots, (h.trades hkept haccounts).pending]
  exact or_iff_right (by simp [SlotPool.isPending, SlotPool.reclaim])

/-- A node whose chunk is not written shows what it showed before. -/
theorem grows_of_not_written (htree : tree.Valid) {before after : Entry}
    (hnode : (before, after) ∈ tree.listing.zip next.listing)
    (hresident : after.isResident = true)
    (hunwritten : after.cell.held.any update.fills = false) :
    before.isResident = true ∧ before.Grows after := by
  obtain ⟨tenancy, htenancy⟩ := Option.isSome_iff_exists.mp hresident
  have hheld : tenancy.slot ∈ after.cell.held := Entry.mem_held htenancy
  have hold : before.shown? = some before.shows := by
    by_contra hnew
    have hfills : update.fills tenancy.slot = true :=
      (h.fills_iff hkept haccounts htree _).mpr ⟨_, hnode, hheld, hnew⟩
    rw [List.any_eq_false] at hunwritten
    exact hunwritten _ hheld hfills
  obtain ⟨tenancy', htenancy', hshown⟩ := Option.map_eq_some_iff.mp hold
  have hcontinues := List.forall₂_zip h.forall₂_continues hnode
  have hshown' := hcontinues.shown hresident
  rw [Entry.shown?, htenancy, Option.map_some, Option.some_inj,
    hcontinues.shows, ← hshown, Prod.mk.injEq] at hshown'
  have hslot : tenancy.slot = tenancy'.slot :=
    h.slot_eq hkept haccounts hnode (Entry.mem_held htenancy') hheld
  refine ⟨Option.isSome_iff_exists.mpr ⟨_, htenancy'⟩, hcontinues.grows ?_⟩
  rw [htenancy, htenancy', Option.some_inj]
  obtain ⟨slot, stars, sampled⟩ := tenancy
  obtain ⟨slot', stars', sampled'⟩ := tenancy'
  obtain ⟨rfl, rfl⟩ := hshown'
  obtain rfl := hslot
  rfl

end

/-- So the node has its slot still, and the frame has not compacted the
buffer. -/
theorem exists_grows (h : tree.Succeeds oracle detail update next)
    (haccounts : tree.slots.Accounts tree.held) (htree : tree.Valid)
    {after : Entry} (hafter : after ∈ next.listing)
    (hresident : after.isResident = true)
    (hunwritten : after.cell.held.any update.fills = false) :
    ∃ before ∈ tree.listing, before.isResident = true ∧
      before.Grows after := by
  have hkept : update.compacted = false := by
    by_contra hcompacted
    obtain ⟨slot, hheld⟩ := Entry.isResident_iff.mp hresident
    rw [List.any_eq_false] at hunwritten
    exact hunwritten _ hheld ((h.fills_iff_of_compacted
      (Bool.eq_true_of_not_eq_false hcompacted) htree slot).mpr
        (held_subset_heldBy hafter hheld))
  obtain ⟨before, hnode⟩ := exists_mem_zip_right h.forall₂_continues hafter
  exact ⟨before, (List.of_mem_zip hnode).1,
    h.grows_of_not_written hkept haccounts htree hnode hresident hunwritten⟩

end Succeeds

/-- A frame that succeeds keeps the record true. -/
theorem Remembers.frame (hrecord : tree.Remembers record)
    (h : tree.Succeeds oracle detail update next) (htree : tree.Valid)
    (hnext : next.Regular) (haccounts : tree.slots.Accounts tree.held) :
    next.Remembers (record.after next update) := by
  intro after hafter hresident
  cases hwritten : after.cell.held.any update.fills with
  | true =>
      refine ⟨after, Record.after_of_written hafter hwritten, .refl after, ?_,
        hnext.of_mem_listing hafter⟩
      obtain ⟨before, hnode⟩ := exists_mem_zip_right h.forall₂_continues hafter
      exact (List.forall₂_zip h.forall₂_continues hnode).shown hresident
  | false =>
      obtain ⟨before, hbefore, hresident', hgrows⟩ :=
        h.exists_grows haccounts htree hafter hresident hwritten
      obtain ⟨written, hwas, hshown⟩ := hrecord before hbefore hresident'
      refine ⟨written, ?_, hshown.grows.trans hgrows, hshown.shown, ?_⟩
      · rw [Record.after_of_not_written hafter hwritten, hgrows.path, hwas]
      · rw [h.layout, h.settings]
        exact hshown.regular

theorem Recorded.remembers (h : Recorded tree record) :
    tree.Remembers record := by
  induction h with
  | fresh h => exact h.start.2.2.remembers _
  | insert _ star ih =>
      exact act_insert_induction Remembers.gains ih star
  | insertFlat _ values ih =>
      exact insertFlat_induction Remembers.gains ih values
  | @resizeBuffer tree _ capacity =>
      exact (vacant_resizeBuffer tree capacity).remembers _
  | @runFrame tree record oracle detail time update h hframe ih =>
      have htree := h.tidy.reachable
      exact ih.frame (succeeds_runFrame htree.unnested hframe) htree.valid
        (htree.act (.runFrame oracle detail time)).regular h.tidy.accounts

/-! ## Exactly what has changed -/

/-- What a frame that keeps the buffer exchanges between the nodes that hold
slots before it and those that hold slots after it. -/
structure Exchanges (tree next : Tree) (record : Record) (update : Update) :
    Prop where
  /-- Nodes that hold slots before and after keep theirs. -/
  kept : ∀ path slot slot', (path, slot) ∈ tree.holdings →
    (path, slot') ∈ next.holdings → slot' = slot
  /-- Chunks are brought for nodes that held no slot before, and for those that
  have outgrown what was written last. -/
  filled : ∀ slot, update.fills slot = true ↔
    ∃ entry ∈ next.listing, slot ∈ entry.cell.held ∧
      (entry.path ∉ tree.holders ∨
        entry.path ∈ tree.holders ∧
          ∃ written, record entry.path = some written ∧
            entry.Outgrows written)
  /-- The slots of nodes that hold none any more are emptied. -/
  emptied : ∀ slot, update.empties slot = true ↔
    ∃ path, (path, slot) ∈ tree.holdings ∧ path ∉ next.holders
  /-- They are the pending ones. -/
  pending : ∀ slot, next.slots.isPending slot = true ↔
    ∃ path, (path, slot) ∈ tree.holdings ∧ path ∉ next.holders

namespace Succeeds

variable (h : tree.Succeeds oracle detail update next)

include h

/-- Nodes that hold slots no more, told by their paths. -/
theorem exists_given_up_iff (slot : Nat) :
    (∃ node ∈ tree.listing.zip next.listing, slot ∈ node.1.cell.held ∧
        node.2.cell.tenancy = none) ↔
      ∃ path, (path, slot) ∈ tree.holdings ∧ path ∉ next.holders := by
  constructor
  · rintro ⟨⟨before, after⟩, hnode, hheld, hvacant⟩
    obtain ⟨hbefore, hafter⟩ := List.of_mem_zip hnode
    have hpath := (List.forall₂_zip h.forall₂_continues hnode).path
    refine ⟨before.path,
      mem_holdingsBy.mpr ⟨before, hbefore, rfl, hheld⟩, ?_⟩
    rw [← hpath, path_mem_holders_iff hafter,
      Entry.isResident_of_vacant hvacant]
    exact Bool.false_ne_true
  · rintro ⟨path, hholding, hgone⟩
    obtain ⟨before, hbefore, rfl, hheld⟩ := mem_holdingsBy.mp hholding
    obtain ⟨after, hnode⟩ := exists_mem_zip_left h.forall₂_continues hbefore
    have hpath := (List.forall₂_zip h.forall₂_continues hnode).path
    rw [← hpath, path_mem_holders_iff (List.of_mem_zip hnode).2] at hgone
    exact ⟨(before, after), hnode, hheld,
      Option.not_isSome_iff_eq_none.mp hgone⟩

/-- A node did not show before what it is to show when it held no slot, or has
outgrown what was written. -/
theorem shown_ne_iff (hrecord : tree.Remembers record) (htree : tree.Regular)
    {before after : Entry}
    (hnode : (before, after) ∈ tree.listing.zip next.listing)
    (hresident : after.isResident = true) :
    before.shown? ≠ some before.shows ↔
      after.path ∉ tree.holders ∨
        after.path ∈ tree.holders ∧
          ∃ written, record after.path = some written ∧
            after.Outgrows written := by
  obtain ⟨hbefore, hafter⟩ := List.of_mem_zip hnode
  have hcontinues := List.forall₂_zip h.forall₂_continues hnode
  rw [hcontinues.path, path_mem_holders_iff hbefore]
  cases hold : before.isResident with
  | false =>
      have hvacant : before.cell.tenancy = none :=
        Option.isSome_eq_false_iff.mp hold |> Option.isNone_iff_eq_none.mp
      refine iff_of_true ?_ (.inl Bool.false_ne_true)
      rw [Entry.shown?, hvacant]
      exact (Option.some_ne_none _).symm
  | true =>
      obtain ⟨written, hwritten, hgrows, hshown, hregular⟩ :=
        hrecord before hbefore hold
      have hshows : 0 < before.shows.1 :=
        hcontinues.shows ▸ h.shows_pos hafter hresident
      have hshown' : before.shown? = some written.shows := by
        rw [Entry.shown?, hgrows.tenancy]
        exact hshown
      rw [hshown', Ne, Option.some_inj, hwritten, or_iff_right (by simp),
        and_iff_right rfl]
      refine (hgrows.shows_ne_iff hregular (htree.of_mem_listing hbefore)
        htree.valid.width_pos hshows).trans ?_
      simp [hcontinues.outgrows_iff]

theorem exchanges (hkept : update.compacted = false)
    (haccounts : tree.slots.Accounts tree.held)
    (hrecord : tree.Remembers record) (htree : tree.Regular) :
    tree.Exchanges next record update where
  kept := by
    intro path slot slot' hbefore hafter
    obtain ⟨before, hlisted, rfl, hheld⟩ := mem_holdingsBy.mp hbefore
    obtain ⟨after, hlisted', hpath, hheld'⟩ := mem_holdingsBy.mp hafter
    obtain ⟨other, hnode⟩ := exists_mem_zip_right h.forall₂_continues hlisted'
    have hpath' := (List.forall₂_zip h.forall₂_continues hnode).path
    obtain rfl := eq_of_path hlisted (List.of_mem_zip hnode).1
      (hpath'.symm.trans hpath)
    exact h.slot_eq hkept haccounts hnode hheld hheld'
  filled := by
    intro slot
    rw [h.fills_iff hkept haccounts htree.valid]
    constructor
    · rintro ⟨⟨before, after⟩, hnode, hheld, hnew⟩
      have hresident := Entry.isResident_iff.mpr ⟨slot, hheld⟩
      exact ⟨after, (List.of_mem_zip hnode).2, hheld,
        (h.shown_ne_iff hrecord htree hnode hresident).mp hnew⟩
    · rintro ⟨after, hafter, hheld, hnew⟩
      obtain ⟨before, hnode⟩ := exists_mem_zip_right h.forall₂_continues hafter
      have hresident := Entry.isResident_iff.mpr ⟨slot, hheld⟩
      exact ⟨(before, after), hnode, hheld,
        (h.shown_ne_iff hrecord htree hnode hresident).mpr hnew⟩
  emptied := by
    intro slot
    rw [h.empties_iff hkept haccounts htree.valid, h.exists_given_up_iff]
  pending := by
    intro slot
    rw [h.isPending_iff hkept haccounts, h.exists_given_up_iff]

end Succeeds

/-- After frames that have all succeeded since the buffer got its size, a frame
that keeps the buffer sends exactly what has changed. -/
theorem Recorded.exchange (h : Recorded tree record)
    (hframe : (tree.runFrame oracle detail time).outcome = .ok update)
    (hkept : update.compacted = false) :
    tree.Exchanges (tree.runFrame oracle detail time).tree record update :=
  (succeeds_runFrame h.tidy.reachable.unnested hframe).exchanges hkept h.tidy.accounts
    h.remembers h.tidy.reachable.regular

/-! ## Changes of every kind -/

/-- Two stars fill a leaf, every inner node has a sample, and the buffer is never
compacted. -/
def livelySettings : Settings :=
  { starsPerCell := 2, firstSampleDepth := 0, compaction := .never }

/-- Four leaves with a star each. -/
def livelyStars : Tree :=
  (((Tree.act { settings := livelySettings, layout := {} }
    (.insert (cornerStar (.ofIndex 0)))).act
    (.insert (cornerStar (.ofIndex 1)))).act
    (.insert (cornerStar (.ofIndex 2)))).act
    (.insert (cornerStar (.ofIndex 7)))

/-- The leaves hold the first four of five slots. -/
def lively : Tree :=
  (livelyStars.act (.resizeBuffer 5)).act
    (.runFrame openView.oracle .positions none)

/-- The second leaf has taken a star since, the last one has been split, and
there is a star in a new leaf. -/
def livelier : Tree :=
  (((lively.act (.insert (cornerStar (.ofIndex 1)))).act
    (.insert (cornerStar (.ofIndex 3)))).act (.insert farStar)).act
    (.insert farStar)

/-- Everything is seen but what is asked about first. -/
def missesFirst : Oracle := fun asked =>
  { sees := fun _ => asked.length ≠ 0, pixels := fun _ => (0, 0) }

theorem reachable_livelyStars : Reachable livelyStars :=
  ((((Reachable.fresh (@Fresh.created livelySettings {} _ rfl)).act _).act
    _).act _).act _

theorem exists_recorded_livelier : ∃ record, Recorded livelier record := by
  have hok : ((livelyStars.act (.resizeBuffer 5)).runFrame openView.oracle
      .positions none).outcome.isOk = true := by
    decide +kernel
  obtain ⟨update, hframe⟩ := exists_ok_of_isOk hok
  have hlively := (Recorded.resizeBuffer reachable_livelyStars 5).runFrame
    hframe
  exact ⟨_, (((hlively.insert _).insert _).insert _).insert _⟩

/-- The first leaf gives up its slot, the third one keeps it in silence, and the
slots of the others are filled. -/
theorem exchange_lively :
    ∃ record update,
      (livelier.runFrame missesFirst .positions none).outcome = .ok update ∧
      livelier.Exchanges (livelier.runFrame missesFirst .positions none).tree
        record update ∧
      livelier.holdings = [([.ofIndex 0], 0), ([.ofIndex 1], 1),
        ([.ofIndex 2], 2), ([.ofIndex 7], 3)] ∧
      (List.range 5).filter update.empties = [0] ∧
      (List.range 5).filter update.fills = [1, 3, 4] := by
  have hok : (livelier.runFrame missesFirst .positions
      none).outcome.isOk = true := by
    decide +kernel
  have hstart : livelier.frameStart.2 = false := by decide +kernel
  have hholdings : livelier.holdings = [([.ofIndex 0], 0), ([.ofIndex 1], 1),
      ([.ofIndex 2], 2), ([.ofIndex 7], 3)] := by
    decide +kernel
  have hsends : (livelier.runFrame missesFirst .positions
      none).outcome.toOption.map (fun update =>
        ((List.range 5).filter update.empties,
          (List.range 5).filter update.fills)) = some ([0], [1, 3, 4]) := by
    decide +kernel
  obtain ⟨record, hrecord⟩ := exists_recorded_livelier
  obtain ⟨update, hframe⟩ := exists_ok_of_isOk hok
  have hkept : update.compacted = false :=
    (succeeds_runFrame hrecord.tidy.reachable.unnested hframe).compacted.trans
      hstart
  rw [hframe] at hsends
  obtain ⟨hempties, hfills⟩ := Prod.mk.inj (Option.some.inj hsends)
  exact ⟨record, update, hframe, Recorded.exchange hrecord hframe hkept,
    hholdings, hempties, hfills⟩

end Tree

end Starfield
