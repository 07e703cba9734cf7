import Starfield.Proofs.Frame.Plan

/-!
# What a frame comes to

The frame of a tree settles the plan of the whole tree, starting with the slots
at the beginning of the frame.  This file says so for each part of a frame: the
listing and the slots afterwards, the questions and the outcome.
-/

namespace Starfield

namespace Tree

/-- No node that holds a slot lies below another one that does. -/
def Unnested (tree : Tree) : Prop := ∀ o, (tree.octants o).Unnested

def pass (tree : Tree) (oracle : Oracle) (detail : Detail) : Pass :=
  { settings := tree.settings, layout := tree.layout, detail, oracle,
    compacting := tree.frameStart.2 }

/-- The nodes of the tree in pre-order, each with a mark whether it is to be
drawn, and the questions asked, the latest first. -/
def plan (tree : Tree) (oracle : Oracle) :
    List (Entry × Bool) × List Question :=
  Octant.collect
    (fun o =>
      (tree.octants o).plan tree.settings oracle [o] (tree.domain.child o))
    Octant.all []

theorem map_fst_plan (tree : Tree) (oracle : Oracle) :
    (tree.plan oracle).1.map Prod.fst = tree.listing := by
  have hcollect : ∀ (os : List Octant) (asked : List Question),
      (Octant.collect
          (fun o => (tree.octants o).plan tree.settings oracle [o]
            (tree.domain.child o)) os asked).1.map Prod.fst =
        os.flatMap fun o =>
          (tree.octants o).listing [o] (tree.domain.child o) := by
    intro os
    induction os with
    | nil => intro asked; rfl
    | cons o os ih =>
        intro asked
        rw [Octant.collect, List.map_append, Node.map_fst_plan, ih,
          List.flatMap_cons]
  exact hcollect Octant.all []

theorem shows_pos_of_mem_plan {tree : Tree} {oracle : Oracle} {entry : Entry}
    (hentry : (entry, true) ∈ (tree.plan oracle).1) : 0 < entry.shows.1 := by
  obtain ⟨o, before, ho⟩ := Octant.exists_of_mem_collect hentry
  exact Node.shows_pos_of_mem_plan ho

/-- The nodes after a frame in pre-order, and how far its walk has come. -/
def settled (tree : Tree) (oracle : Oracle) (detail : Detail) :
    List Entry × Walk :=
  settleAll (tree.pass oracle detail) (tree.plan oracle).1
    { slots := tree.frameStart.1 }

variable {tree : Tree} (oracle : Oracle) (detail : Detail)

theorem realizes_frame (htree : tree.Unnested) :
    Realizes (tree.pass oracle detail)
      (Octant.collect
        (fun o =>
          (tree.octants o).plan tree.settings oracle [o] (tree.domain.child o))
        Octant.all)
      (Octant.collect
        (fun o => (tree.octants o).walkListing (tree.pass oracle detail) [o]
          (tree.domain.child o))
        Octant.all) :=
  Realizes.collect
    (fun o => Node.realizes_walk (htree o) [o] (tree.domain.child o)) Octant.all

def walked (tree : Tree) (oracle : Oracle) (detail : Detail) :
    Octet Node × Walk :=
  Octet.thread
    (fun o => (tree.octants o).walk (tree.pass oracle detail)
      (tree.domain.child o))
    { slots := tree.frameStart.1 }

/-- The octants as they are walked have the listing that settling the plan gives,
and the walk agrees with what has been settled. -/
theorem realizesAt_frame (htree : tree.Unnested) :
    RealizesAt (tree.pass oracle detail) { slots := tree.frameStart.1 }
      (tree.plan oracle)
      ((tree.frame oracle detail).tree.listing,
        (tree.walked oracle detail).2) :=
  realizes_frame oracle detail htree { slots := tree.frameStart.1 } []
    fun _ => rfl

theorem listing_frame (htree : tree.Unnested) :
    (tree.frame oracle detail).tree.listing =
      (tree.settled oracle detail).1 :=
  (realizesAt_frame oracle detail htree).settled.symm

theorem agrees_frame (htree : tree.Unnested) :
    Walk.Agrees (tree.pass oracle detail) (tree.settled oracle detail).1
      (tree.settled oracle detail).2 (tree.walked oracle detail).2 := by
  have hagrees := (realizesAt_frame oracle detail htree).agrees
  rw [listing_frame oracle detail htree] at hagrees
  exact hagrees

theorem slots_frame (htree : tree.Unnested) :
    (tree.frame oracle detail).tree.slots =
      (tree.settled oracle detail).2.slots :=
  (agrees_frame oracle detail htree).slots

theorem asked_frame (htree : tree.Unnested)
    (hdone : (tree.settled oracle detail).2.exhausted = false) :
    (tree.frame oracle detail).asked = (tree.plan oracle).2.reverse :=
  congrArg List.reverse ((realizesAt_frame oracle detail htree).asked
    ((agrees_frame oracle detail htree).exhausted.trans hdone))

/-! ## The outcome -/

/-- What a frame that has succeeded reports of what it has settled. -/
structure Reports (tree : Tree) (oracle : Oracle) (detail : Detail)
    (update : Update) : Prop where
  /-- There was a slot for every node to be drawn. -/
  done : (tree.settled oracle detail).2.exhausted = false
  changes : ∃ changes,
    Overwrites (tree.pass oracle detail) (tree.settled oracle detail).1
        (tree.settled oracle detail).2.changes changes ∧
      update.changes = (tree.settled oracle detail).2.stale.foldl
        (fun changes slot => changes.insertIfNew slot .vacate) changes
  delta : update.delta = (tree.settled oracle detail).2.delta
  compacted : update.compacted = tree.frameStart.2

/-- A frame whose slots have run out says how many there are. -/
theorem outcome_of_exhausted (htree : tree.Unnested)
    (hexhausted : (tree.settled oracle detail).2.exhausted = true) :
    (tree.frame oracle detail).outcome =
      .error (.slotsExhausted
        (tree.settled oracle detail).2.slots.capacity) := by
  have hagrees := agrees_frame oracle detail htree
  rw [← hagrees.slots]
  exact if_pos (hagrees.exhausted.trans hexhausted)

theorem exists_reports (htree : tree.Unnested)
    (hdone : (tree.settled oracle detail).2.exhausted = false) :
    ∃ update, (tree.frame oracle detail).outcome = .ok update ∧
      tree.Reports oracle detail update := by
  have hagrees := agrees_frame oracle detail htree
  refine ⟨_, if_neg (ne_true_of_eq_false (hagrees.exhausted.trans hdone)),
    hdone, ⟨_, hagrees.changes, ?_⟩, hagrees.delta, rfl⟩
  rw [← hagrees.stale]
  rfl

theorem isOk_frame (htree : tree.Unnested) :
    (tree.frame oracle detail).outcome.isOk =
      !(tree.settled oracle detail).2.exhausted := by
  cases hexhausted : (tree.settled oracle detail).2.exhausted with
  | true =>
      rw [outcome_of_exhausted oracle detail htree hexhausted]
      rfl
  | false =>
      obtain ⟨update, hframe, _⟩ :=
        exists_reports oracle detail htree hexhausted
      rw [hframe]
      rfl

theorem reports_frame {update : Update} (htree : tree.Unnested)
    (hframe : (tree.frame oracle detail).outcome = .ok update) :
    tree.Reports oracle detail update := by
  cases hexhausted : (tree.settled oracle detail).2.exhausted with
  | true =>
      rw [outcome_of_exhausted oracle detail htree hexhausted] at hframe
      cases hframe
  | false =>
      obtain ⟨_, hok, hreports⟩ :=
        exists_reports oracle detail htree hexhausted
      cases hframe.symm.trans hok
      exact hreports

theorem exists_ok_of_isOk {outcome : Except Fault Update}
    (h : outcome.isOk = true) : ∃ update, outcome = .ok update := by
  cases outcome with
  | error fault => cases h
  | ok update => exact ⟨update, rfl⟩

/-! ## The tree after a frame -/

theorem clear_frame (o : Octant) :
    ((tree.frame oracle detail).tree.octants o).clear =
      (tree.octants o).clear :=
  Octet.forall_get_thread
    (P := fun o (child : Node) => child.clear = (tree.octants o).clear)
    (fun o => (tree.octants o).clear_walk (tree.domain.child o))
    { slots := tree.frameStart.1 } o

theorem Unnested.frame (htree : tree.Unnested) :
    (tree.frame oracle detail).tree.Unnested :=
  Octet.forall_get_thread (P := fun _ (child : Node) => child.Unnested)
    (fun o => (htree o).walk (tree.domain.child o))
    { slots := tree.frameStart.1 }

/-- Recording a frame changes the log only. -/
theorem exists_runFrame_eq (time : Option Nat) :
    ∃ log, tree.runFrame oracle detail time =
      { tree.frame oracle detail with
        tree := { (tree.frame oracle detail).tree with log } } := by
  simp only [runFrame]
  split
  · exact ⟨_, rfl⟩
  · exact ⟨_, rfl⟩

end Tree

end Starfield
