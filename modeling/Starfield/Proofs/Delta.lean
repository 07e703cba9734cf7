import Starfield.Proofs.Recount

/-!
# The changes of frames add up

Every update says how many more stars the buffer shows than before.  This file
proves that whoever adds these numbers up since the buffer was given its size
always knows how many stars are shown: settling a node changes the sum by just
what its slot shows more, and inserting a star changes no slot, not even when a
node that holds one is split.
-/

namespace Starfield

/-! ## One frame -/

namespace Cell

variable {pass : Pass} {stars sampled : Nat} {cell : Cell} {walk : Walk}

theorem Seats.delta_eq {seated : Cell × Walk × Bool}
    (h : cell.Seats pass stars sampled walk seated) :
    seated.2.1.delta = walk.delta + (seated.1.shown - cell.shown) := by
  cases h with
  | kept | refused => rw [Int.sub_self, Int.add_zero]
  | rewritten | placed => rfl

theorem Vacates.delta_eq {vacated : Cell × Walk}
    (h : cell.Vacates pass walk vacated) :
    vacated.2.delta = walk.delta + (vacated.1.shown - cell.shown) := by
  cases h with
  | idle => rw [Int.sub_self, Int.add_zero]
  | released hcell | dropped hcell =>
      rw [shown_of_tenancy hcell, shown_of_vacant rfl, Int.natCast_zero,
        Int.zero_sub]
      rfl

end Cell

/-- The number of stars that the slots of the nodes show. -/
def shownBy (entries : List Entry) : Nat :=
  (entries.map fun entry => entry.cell.shown).sum

theorem shownBy_cons (entry : Entry) (entries : List Entry) :
    shownBy (entry :: entries) = entry.cell.shown + shownBy entries := by
  rw [shownBy, List.map_cons, List.sum_cons, shownBy]

theorem Entry.Settles.delta_eq {pass : Pass} {drawn : Bool} {entry : Entry}
    {walk : Walk} {settled : Entry × Walk}
    (h : entry.Settles pass walk drawn settled) :
    settled.2.delta =
      walk.delta + (settled.1.cell.shown - entry.cell.shown) := by
  cases h with
  | seated hseats => exact hseats.delta_eq
  | vacated hvacates => exact hvacates.delta_eq

/-- Settling nodes changes the sum by what they show more afterwards, also when
the slots run out. -/
theorem delta_settleAll (pass : Pass) (plan : List (Entry × Bool))
    (walk : Walk) :
    (settleAll pass plan walk).2.delta =
      walk.delta + (shownBy (settleAll pass plan walk).1 -
        shownBy (plan.map Prod.fst)) := by
  apply settleAll_induction (P := fun plan walk settled =>
    settled.2.delta =
      walk.delta + (shownBy settled.1 - shownBy (plan.map Prod.fst)))
  case stopped =>
    intro plan walk
    rw [Int.sub_self, Int.add_zero]
  case step =>
    intro entry drawn plan walk here rest hsettles hrest
    have hhere := hsettles.delta_eq
    rw [List.map_cons, shownBy_cons, shownBy_cons]
    dsimp only
    omega

/-! ## Insertion -/

namespace Node

variable {settings : Settings} {layout : Layout} {star : Star} {place : Place}
  {node next : Node}

def shown : Node → Nat
  | leaf cell => cell.shown
  | inner cell children =>
      cell.shown + (Octant.all.map fun o => (children o).shown).sum

theorem shownBy_listing (node : Node) (path : List Octant) (place : Place) :
    shownBy (node.listing path place) = node.shown := by
  induction node generalizing path place with
  | leaf cell => exact List.sum_singleton
  | inner cell children ih =>
      rw [listing, shownBy_cons, shownBy, List.map_flatMap, List.flatMap_def,
        List.sum_flatten, List.map_map, shown]
      exact congrArg (cell.shown + ·) (congrArg List.sum
        (List.map_congr_left fun o _ => ih o _ _))

/-- Whatever slots the nodes of a subtree hold, a star changes nothing that they
show. -/
theorem Gains.shown_eq (h : Gains settings layout star place node next) :
    next.shown = node.shown := by
  induction h with
  | joined => rfl
  | @parted place cell child _ _ ih =>
      have hchildren := sum_replace (fun _ child => child.shown)
        (partLeaf place cell.stars) (ih.trans (Nat.add_zero _).symm)
      rw [shown, shown, hchildren]
      rfl
  | @passed place cell children child _ ih =>
      have hchildren := sum_replace (fun _ child => child.shown)
        children (ih.trans (Nat.add_zero _).symm)
      rw [shown, shown, hchildren]
      rfl

theorem Vacant.shown_eq (hnode : node.Vacant) : node.shown = 0 := by
  induction node with
  | leaf cell => exact Cell.shown_of_vacant hnode
  | inner cell children ih =>
      rw [shown, Cell.shown_of_vacant hnode.1, Nat.zero_add,
        List.map_congr_left fun o _ => ih o (hnode.2 o)]
      rfl

end Node

namespace Tree

variable {tree next : Tree} {oracle : Oracle} {detail : Detail}
  {time : Option Nat} {update : Update} {total : Int}

def shown (tree : Tree) : Nat := shownBy tree.listing

/-- The number of stars that the nodes with slots hold themselves: all stars of
a leaf and the sample of an inner node. -/
def drawn (tree : Tree) : Nat :=
  (tree.residents.map fun entry => entry.cell.stars.size).sum

theorem shown_eq (tree : Tree) :
    tree.shown = (Octant.all.map fun o => (tree.octants o).shown).sum := by
  rw [shown, listing, shownBy, List.map_flatMap, List.flatMap_def,
    List.sum_flatten, List.map_map]
  exact congrArg List.sum
    (List.map_congr_left fun o _ => Node.shownBy_listing _ _ _)

theorem Gains.shown_eq {star : Star} (h : tree.Gains star next) :
    next.shown = tree.shown := by
  obtain ⟨child, hchild, hoctants⟩ := h.octants
  have hsum := Node.sum_replace (fun _ child => child.shown) tree.octants
    (hchild.shown_eq.trans (Nat.add_zero _).symm)
  rw [Tree.shown_eq, Tree.shown_eq, hoctants]
  exact hsum

theorem Vacant.shown_eq (h : tree.Vacant) : tree.shown = 0 := by
  rw [Tree.shown_eq, List.map_congr_left fun o _ => (h o).shown_eq]
  rfl

/-- What the user of a tree makes of the updates since the buffer was given its
size: the sum of their changes.  All frames since then have succeeded. -/
inductive Totals : Tree → Int → Prop
  | fresh {tree : Tree} (h : Fresh tree) : Totals tree 0
  | resized {tree : Tree} (h : Reachable tree) (capacity : Nat) :
      Totals (tree.act (.resizeBuffer capacity)) 0
  | insert {tree : Tree} {total : Int} (h : Totals tree total) (star : Star) :
      Totals (tree.act (.insert star)) total
  | insertFlat {tree : Tree} {total : Int} (h : Totals tree total)
      (values : List Value) : Totals (tree.act (.insertFlat values)) total
  | runFrame {tree : Tree} {total : Int} {oracle : Oracle} {detail : Detail}
      {time : Option Nat} {update : Update} (h : Totals tree total)
      (hframe : (tree.runFrame oracle detail time).outcome = .ok update) :
      Totals (tree.act (.runFrame oracle detail time)) (total + update.delta)

theorem Totals.reachable (h : Totals tree total) : Reachable tree := by
  induction h with
  | fresh h => exact .fresh h
  | resized h _ => exact h.act _
  | insert _ _ ih | insertFlat _ _ ih | runFrame _ _ ih => exact ih.act _

/-- A frame changes the number of stars shown by what it says. -/
theorem delta_frame (htree : tree.Unnested)
    (hframe : (tree.frame oracle detail).outcome = .ok update) :
    update.delta =
      (tree.frame oracle detail).tree.shown - (tree.shown : Int) := by
  have hdelta := delta_settleAll (tree.pass oracle detail)
    (tree.plan oracle).1 { slots := tree.frameStart.1 }
  rw [map_fst_plan] at hdelta
  rw [(reports_frame oracle detail htree hframe).delta, shown,
    listing_frame oracle detail htree]
  exact hdelta.trans (Int.zero_add _)

/-- The sum is the number of stars that the slots show. -/
theorem Totals.eq_shown (h : Totals tree total) : total = tree.shown := by
  induction h with
  | fresh h => rw [h.start.2.2.shown_eq, Int.natCast_zero]
  | @resized tree _ capacity =>
      rw [act, (vacant_resizeBuffer tree capacity).shown_eq, Int.natCast_zero]
  | @insert tree total _ star ih =>
      exact act_insert_induction (P := fun tree => total = tree.shown)
        (fun htree h => by rw [htree, h.shown_eq]) ih star
  | @insertFlat tree total _ values ih =>
      exact insertFlat_induction (P := fun tree => total = tree.shown)
        (fun htree h => by rw [htree, h.shown_eq]) ih values
  | @runFrame tree total oracle detail time update h hframe ih =>
      obtain ⟨log, hrun⟩ := @exists_runFrame_eq tree oracle detail time
      rw [hrun] at hframe
      rw [act, hrun, ih, delta_frame h.reachable.unnested hframe,
        add_sub_cancel]
      rfl

theorem shownBy_eq_sum_filter {entries : List Entry}
    (h : ∀ entry ∈ entries, entry.cell.shown =
      if entry.isResident then entry.cell.stars.size else 0) :
    shownBy entries = ((entries.filter Entry.isResident).map
      fun entry => entry.cell.stars.size).sum := by
  induction entries with
  | nil => rfl
  | cons entry entries ih =>
      rw [List.forall_mem_cons] at h
      rw [shownBy_cons, h.1, ih h.2, List.filter_cons]
      split
      · rw [List.map_cons, List.sum_cons]
      · exact Nat.zero_add _

/-- A regular node that has become what a plan says shows what it holds. -/
theorem shown_of_becomes {planned : Entry × Bool} {entry : Entry}
    {layout : Layout} {capacity : Nat} (h : Entry.Becomes planned entry)
    (hentry : entry.cell.Regular layout capacity entry.isLeaf) :
    entry.cell.shown =
      if entry.isResident then entry.cell.stars.size else 0 := by
  have hshown := h.shown
  rw [← h.shows, Entry.shown?] at hshown
  rw [Entry.isResident]
  cases hcell : entry.cell.tenancy with
  | none => exact Cell.shown_of_vacant hcell
  | some tenancy =>
      have hshows : (tenancy.stars, tenancy.sampled) = entry.shows := by
        rw [hcell] at hshown
        split at hshown
        · exact Option.some.inj hshown
        · cases hshown
      have hstars : tenancy.stars = entry.shows.1 := congrArg Prod.fst hshows
      rw [Cell.shown_of_tenancy hcell, hstars, Entry.shows, Cell.shows]
      split
      · exact hentry.count ‹_›
      · rfl

theorem listing_runFrame (tree : Tree) (oracle : Oracle) (detail : Detail)
    (time : Option Nat) :
    (tree.runFrame oracle detail time).tree.listing =
      (tree.frame oracle detail).tree.listing := by
  obtain ⟨log, hrun⟩ := @exists_runFrame_eq tree oracle detail time
  rw [hrun]
  rfl

/-- After a frame every slot shows just what its node holds. -/
theorem shown_eq_drawn_of_runFrame (htree : Reachable tree)
    (hframe : (tree.runFrame oracle detail time).outcome = .ok update) :
    (tree.runFrame oracle detail time).tree.shown =
      (tree.runFrame oracle detail time).tree.drawn := by
  have hregular := (htree.act (.runFrame oracle detail time)).regular
  refine shownBy_eq_sum_filter fun entry hentry => ?_
  have hcell := hregular.of_mem_listing hentry
  obtain ⟨log, hrun⟩ := @exists_runFrame_eq tree oracle detail time
  rw [hrun] at hframe
  rw [listing_runFrame, listing_frame oracle detail htree.unnested] at hentry
  have hbecomes := becomes_settleAll (tree.plan oracle).1 _
    (reports_frame oracle detail htree.unnested hframe).done
  obtain ⟨planned, _, hplanned⟩ := exists_planned hbecomes hentry
  exact shown_of_becomes hplanned hcell

/-- Adding up the changes of all updates since the buffer was given its size
always gives the number of stars that the slots show.  After a frame this is the
number of stars that the nodes with slots hold. -/
theorem Totals.agrees (h : Totals tree total) :
    total = tree.shown ∧
      ∀ (oracle : Oracle) (detail : Detail) (time : Option Nat)
        (update : Update),
        (tree.runFrame oracle detail time).outcome = .ok update →
        total + update.delta =
            (tree.runFrame oracle detail time).tree.shown ∧
          total + update.delta =
            (tree.runFrame oracle detail time).tree.drawn := by
  refine ⟨h.eq_shown, fun oracle detail time update hframe => ?_⟩
  have hshown : total + update.delta =
      (tree.runFrame oracle detail time).tree.shown :=
    (h.runFrame hframe).eq_shown
  rw [← shown_eq_drawn_of_runFrame h.reachable hframe]
  exact ⟨hshown, hshown⟩

/-- The first of the frames brings a star.  The second one compacts the buffer
and brings another star for it. -/
theorem totals_crowded :
    ∃ first second,
      (crowded.runFrame (seesAfter 7) .positions none).outcome = .ok first ∧
      (crowdedOnce.runFrame (seesAfter 0) .positions none).outcome =
        .ok second ∧
      first.delta = 1 ∧ second.delta = 0 ∧
      first.delta = crowdedOnce.shown ∧
      first.delta + second.delta =
        (crowdedOnce.runFrame (seesAfter 0) .positions none).tree.drawn := by
  have hok : (crowded.runFrame (seesAfter 7) .positions
      none).outcome.isOk = true := by
    decide +kernel
  have hok' : (crowdedOnce.runFrame (seesAfter 0) .positions
      none).outcome.isOk = true := by
    decide +kernel
  have hone : (crowded.runFrame (seesAfter 7) .positions
      none).outcome.toOption.map Update.delta = some 1 := by
    decide +kernel
  have hnone : (crowdedOnce.runFrame (seesAfter 0) .positions
      none).outcome.toOption.map Update.delta = some 0 := by
    decide +kernel
  obtain ⟨first, hfirst⟩ := exists_ok_of_isOk hok
  obtain ⟨second, hsecond⟩ := exists_ok_of_isOk hok'
  rw [hfirst] at hone
  rw [hsecond] at hnone
  have hcrowded : Totals crowded 0 := .resized managed_crowdedStars.reachable 2
  have honce : Totals crowdedOnce first.delta :=
    (Int.zero_add first.delta) ▸ hcrowded.runFrame hfirst
  obtain ⟨hshown, hframes⟩ := Totals.agrees honce
  exact ⟨first, second, hfirst, hsecond, Option.some.inj hone,
    Option.some.inj hnone, hshown,
    (hframes (seesAfter 0) .positions none second hsecond).2⟩

end Tree

end Starfield
