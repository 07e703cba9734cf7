import Starfield.Frame
import Starfield.Proofs.Frame.Agreement
import Starfield.Proofs.Nesting

/-!
# What a frame plans to draw

The answers of an oracle decide which nodes are to be drawn, whatever slots
there are.  The plan of a frame lists the nodes in pre-order, each with a mark
whether it is to be drawn.  Walking a tree whose seated nodes are not nested
comes to the same as settling its plan, node after node, so everything about
slots can be proved on lists.
-/

namespace Starfield

variable {pass : Pass}

namespace Node

def descendants (path : List Octant) (place : Place)
    (children : Octant → Node) : List Entry :=
  Octant.all.flatMap fun o => (children o).listing (path ++ [o]) (place.child o)

/-- The nodes of a subtree in pre-order, each with a mark whether it is to be
drawn, and the questions asked after that. -/
def plan (settings : Settings) (oracle : Oracle) (path : List Octant)
    (place : Place) :
    Node → List Question → List (Entry × Bool) × List Question
  | leaf cell, asked =>
      let seen := oracle.sees settings place asked
      ([(⟨path, place, true, cell⟩, seen.1 && cell.count ≠ 0)], seen.2)
  | inner cell children, asked =>
      let entry : Entry := ⟨path, place, false, cell⟩
      let seen := oracle.sees settings place asked
      if seen.1 then
        let small := oracle.prefersSample settings place cell seen.2
        if small.1 then
          ((entry, true) :: (descendants path place children).map (·, false),
            small.2)
        else
          let below := Octant.collect
            (fun o => (children o).plan settings oracle (path ++ [o])
              (place.child o))
            Octant.all small.2
          ((entry, false) :: below.1, below.2)
      else
        ((entry, false) :: (descendants path place children).map (·, false),
          seen.2)

/-- A plan is about the nodes of the listing. -/
theorem map_fst_plan (settings : Settings) (oracle : Oracle) (node : Node)
    (path : List Octant) (place : Place) (asked : List Question) :
    (node.plan settings oracle path place asked).1.map Prod.fst =
      node.listing path place := by
  induction node generalizing path place asked with
  | leaf cell => rfl
  | inner cell children ih =>
      have hcollect : ∀ (os : List Octant) (asked : List Question),
          (Octant.collect
              (fun o => (children o).plan settings oracle (path ++ [o])
                (place.child o)) os asked).1.map Prod.fst =
            os.flatMap fun o =>
              (children o).listing (path ++ [o]) (place.child o) := by
        intro os
        induction os with
        | nil => intro asked; rfl
        | cons o os hos =>
            intro asked
            rw [Octant.collect, List.map_append, ih, hos, List.flatMap_cons]
      simp only [plan, listing, descendants]
      split
      · split
        · simp [Function.comp_def]
        · rw [List.map_cons, hcollect]
      · simp [Function.comp_def]

theorem not_mem_map_false {entries : List Entry} {entry : Entry} :
    (entry, true) ∉ entries.map (·, false) := by
  simp

/-- A node that is to be drawn has a star to show. -/
theorem shows_pos_of_mem_plan {settings : Settings} {oracle : Oracle}
    {node : Node} {path : List Octant} {place : Place} {asked : List Question}
    {entry : Entry}
    (hentry : (entry, true) ∈ (node.plan settings oracle path place asked).1) :
    0 < entry.shows.1 := by
  induction node generalizing path place asked with
  | leaf cell =>
      simp only [plan, List.mem_singleton, Prod.mk.injEq] at hentry
      obtain ⟨rfl, hdrawn⟩ := hentry
      have hcount : cell.count ≠ 0 := by
        simpa using (Bool.and_eq_true_iff.mp hdrawn.symm).2
      exact Nat.pos_of_ne_zero hcount
  | inner cell children ih =>
      simp only [plan] at hentry
      split at hentry
      · split at hentry
        · rename_i hsmall
          rcases List.mem_cons.mp hentry with hroot | hbelow
          · obtain rfl := congrArg Prod.fst hroot
            rw [Oracle.prefersSample] at hsmall
            split at hsmall
            · cases hsmall
            · rename_i hstars
              exact Array.size_pos_iff.mpr (by simpa using hstars)
          · exact absurd hbelow not_mem_map_false
        · rcases List.mem_cons.mp hentry with hroot | hbelow
          · cases hroot
          · obtain ⟨o, before, ho⟩ := Octant.exists_of_mem_collect hbelow
            exact ih o ho
      · rcases List.mem_cons.mp hentry with hroot | hbelow
        · cases hroot
        · exact absurd hbelow not_mem_map_false

end Node

/-! ## Settling a plan -/

/-- For one walk, what is walked comes to the same as settling what is planned,
and unless the slots run out, it asks the same questions. -/
structure RealizesAt (pass : Pass) (walk : Walk)
    (planned : List (Entry × Bool) × List Question)
    (walked : List Entry × Walk) : Prop where
  settled : (settleAll pass planned.1 walk).1 = walked.1
  agrees :
    Walk.Agrees pass walked.1 (settleAll pass planned.1 walk).2 walked.2
  asked : walked.2.exhausted = false → walked.2.asked = planned.2

/-- Every walk that has asked what the plan begins with realizes the plan. -/
def Realizes (pass : Pass)
    (planned : List Question → List (Entry × Bool) × List Question)
    (walked : Walk → List Entry × Walk) : Prop :=
  ∀ (walk : Walk) (asked : List Question),
    (walk.exhausted = false → walk.asked = asked) →
      RealizesAt pass walk (planned asked) (walked walk)

/-- What has been asked before makes no difference. -/
theorem RealizesAt.of_asked {walk : Walk}
    {planned : List (Entry × Bool) × List Question}
    {walked : List Entry × Walk} (asked : List Question)
    (h : RealizesAt pass { walk with asked } planned walked) :
    RealizesAt pass walk planned walked := by
  obtain ⟨hsame, hagrees⟩ :=
    ((Walk.Agrees.refl pass walked.1 walk).ask asked).settleAll planned.1
  exact ⟨hsame.symm.trans h.settled, hagrees.trans h.agrees, h.asked⟩

theorem Realizes.collect
    {planned : Octant → List Question → List (Entry × Bool) × List Question}
    {walked : Octant → Walk → List Entry × Walk}
    (h : ∀ o, Realizes pass (planned o) (walked o)) (os : List Octant) :
    Realizes pass (Octant.collect planned os) (Octant.collect walked os) := by
  induction os with
  | nil =>
      intro walk asked hasked
      exact ⟨rfl, .refl pass [] walk, hasked⟩
  | cons o os ih =>
      intro walk asked hasked
      have hhere := h o walk asked hasked
      have hrest := ih _ _ hhere.asked
      -- The rest of the plan is settled from where the settling of the first
      -- octant has come to, and walked from where its walk has.
      obtain ⟨hsame, hagrees⟩ :=
        hhere.agrees.settleAll (Octant.collect planned os (planned o asked).2).1
      refine ⟨?_, ?_, hrest.asked⟩ <;>
        simp only [Octant.collect, settleAll_append]
      · rw [hhere.settled, ← hsame, hrest.settled]
      · exact (hagrees.mono (List.subset_append_left _ _)).trans
          (hrest.agrees.mono (List.subset_append_right _ _))

/-- What is vacated comes to the same as settling entries of which none is to
be drawn; it never runs out of slots and asks no questions. -/
def Empties (pass : Pass) (entries : List Entry)
    (vacated : Walk → List Entry × Walk) : Prop :=
  ∀ walk : Walk, walk.exhausted = false →
    settleAll pass (entries.map (·, false)) walk = vacated walk ∧
      (vacated walk).2.exhausted = false ∧
      (vacated walk).2.asked = walk.asked

theorem Empties.collect {entries : Octant → List Entry}
    {vacated : Octant → Walk → List Entry × Walk}
    (h : ∀ o, Empties pass (entries o) (vacated o)) (os : List Octant) :
    Empties pass (os.flatMap entries) (Octant.collect vacated os) := by
  induction os with
  | nil =>
      intro walk hwalk
      exact ⟨rfl, hwalk, rfl⟩
  | cons o os ih =>
      intro walk hwalk
      obtain ⟨hhere, hexhausted, hasked⟩ := h o walk hwalk
      obtain ⟨hrest, hexhausted', hasked'⟩ := ih _ hexhausted
      refine ⟨?_, hexhausted', hasked'.trans hasked⟩
      rw [List.flatMap_cons, List.map_append, settleAll_append, hhere, hrest]
      rfl

namespace Node

/-- The subtree without slots, with the listing of what becomes of it. -/
def vacateListing (pass : Pass) (path : List Octant) (place : Place)
    (node : Node) (walk : Walk) : List Entry × Walk :=
  ((node.vacate pass.compacting walk).1.listing path place,
    (node.vacate pass.compacting walk).2)

/-- Vacating a subtree vacates its nodes one after the other. -/
theorem empties_vacate (node : Node) (path : List Octant) (place : Place) :
    Empties pass (node.listing path place)
      (node.vacateListing pass path place) := by
  induction node generalizing path place with
  | leaf cell =>
      intro walk hwalk
      have hvacates := Cell.vacates_vacate pass cell walk
      refine ⟨?_, hvacates.exhausted_eq.trans hwalk, hvacates.asked_eq⟩
      rw [listing, List.map_singleton, settleAll_cons hwalk]
      rfl
  | inner cell children ih =>
      intro walk hwalk
      have hvacates := Cell.vacates_vacate pass cell walk
      obtain ⟨hrest, hexhausted, hasked⟩ :=
        Empties.collect (fun o => ih o (path ++ [o]) (place.child o))
          Octant.all _ (hvacates.exhausted_eq.trans hwalk)
      refine ⟨?_, hexhausted, hasked.trans hvacates.asked_eq⟩
      rw [listing, List.map_cons, settleAll_cons hwalk]
      simp only [Entry.settle, Bool.false_eq_true, if_false]
      rw [hrest]
      rfl

/-- Vacating the nodes below a node. -/
theorem empties_descendants (path : List Octant) (place : Place)
    (children : Octant → Node) :
    Empties pass (descendants path place children)
      (Octant.collect
        (fun o => (children o).vacateListing pass (path ++ [o]) (place.child o))
        Octant.all) :=
  Empties.collect (fun o => (children o).empties_vacate _ _) Octant.all

/-- Below a node that is seated in its old slot, or that found none, there is
nothing to vacate. -/
theorem settleAll_descendants {stars sampled : Nat} {cell : Cell}
    {children : Octant → Node} {walk : Walk}
    {seated : Cell × Walk × Bool} (path : List Octant) (place : Place)
    (hnode : (inner cell children).Unnested)
    (hseats : cell.Seats pass stars sampled walk seated)
    (hnew : seated.2.2 = false) :
    settleAll pass ((descendants path place children).map (·, false))
        seated.2.1 = (descendants path place children, seated.2.1) := by
  rcases hseats.exhausted_or_of_not_new hnew with hexhausted | hcell
  · rw [settleAll_of_exhausted _ hexhausted]
    simp [Function.comp_def]
  · apply settleAll_vacant
    intro entry hentry
    obtain ⟨o, _, ho⟩ := List.mem_flatMap.mp hentry
    exact (hnode.1 hcell o).tenancy_of_mem_listing ho

/-- The walk of a subtree, with the listing of what becomes of it. -/
def walkListing (pass : Pass) (path : List Octant) (place : Place)
    (node : Node) (walk : Walk) : List Entry × Walk :=
  ((node.walk pass place walk).1.listing path place,
    (node.walk pass place walk).2)

/-- It is enough to look at walks that have not run out of slots. -/
theorem realizes_of_running {node : Node} {path : List Octant} {place : Place}
    (h : ∀ walk : Walk, walk.exhausted = false →
      RealizesAt pass walk
        (node.plan pass.settings pass.oracle path place walk.asked)
        (node.walkListing pass path place walk)) :
    Realizes pass (node.plan pass.settings pass.oracle path place)
      (node.walkListing pass path place) := by
  intro walk asked hasked
  cases hwalk : walk.exhausted with
  | true =>
      rw [walkListing, walk_of_exhausted _ _ hwalk]
      refine ⟨?_, ?_, fun h => absurd (hwalk.symm.trans h) (by decide)⟩ <;>
        rw [settleAll_of_exhausted _ hwalk]
      · exact map_fst_plan _ _ _ _ _ _
      · exact .refl pass _ walk
  | false =>
      obtain rfl := hasked hwalk
      exact h walk hwalk

/-- Vacating a subtree realizes a plan in which nothing is drawn. -/
theorem realizesAt_vacate {walk : Walk} (node : Node) (path : List Octant)
    (place : Place) (hwalk : walk.exhausted = false) :
    RealizesAt pass walk ((node.listing path place).map (·, false), walk.asked)
      (node.vacateListing pass path place walk) := by
  obtain ⟨hsettle, _, hasked⟩ := node.empties_vacate path place walk hwalk
  refine ⟨?_, ?_, fun _ => hasked⟩ <;> rw [hsettle]
  exact .refl pass _ _

section

variable {walk : Walk} (path : List Octant) (place : Place) (cell : Cell)
  (children : Octant → Node)

theorem realizesAt_leaf (hwalk : walk.exhausted = false) :
    RealizesAt pass walk
      ((leaf cell).plan pass.settings pass.oracle path place walk.asked)
      ((leaf cell).walkListing pass path place walk) := by
  rw [plan, walkListing, walk_leaf path hwalk]
  generalize pass.oracle.sees pass.settings place walk.asked = seen
  have hrunning : Walk.exhausted { walk with asked := seen.2 } = false := hwalk
  have hsettle := Entry.settle_cell pass (seen.1 && cell.count ≠ 0)
    ⟨path, place, true, cell⟩ { walk with asked := seen.2 }
  apply RealizesAt.of_asked seen.2
  refine ⟨?_, ?_, fun _ => (Entry.settles_settle _ _ _ _).asked_eq⟩ <;>
    rw [settleAll_cons hrunning]
  · exact congrArg (fun entry => [entry]) hsettle.symm
  · exact .refl pass _ _

theorem realizesAt_unseen (hwalk : walk.exhausted = false)
    (hseen : (pass.oracle.sees pass.settings place walk.asked).1 = false) :
    RealizesAt pass walk
      ((inner cell children).plan pass.settings pass.oracle path place
        walk.asked)
      ((inner cell children).walkListing pass path place walk) := by
  rw [walkListing, walk_unseen hwalk hseen]
  simp only [plan, hseen]
  generalize (pass.oracle.sees pass.settings place walk.asked).2 = asked
  have hrunning : Walk.exhausted { walk with asked } = false := hwalk
  exact .of_asked asked
    ((inner cell children).realizesAt_vacate path place hrunning)

section

variable (hwalk : walk.exhausted = false)
  (hseen : (pass.oracle.sees pass.settings place walk.asked).1 = true)

include hwalk hseen

/-- A node with a new slot is written after the nodes below it have been
vacated, but the plan settles it before them. -/
theorem realizesAt_small_of_new
    (hsmall : (pass.oracle.prefersSample pass.settings place cell
      (pass.oracle.sees pass.settings place walk.asked).2).1 = true)
    (hnew : (cell.seat pass cell.stars.size cell.valueCount
      { walk with
        asked := (pass.oracle.prefersSample pass.settings place cell
          (pass.oracle.sees pass.settings place walk.asked).2).2 }).2.2 =
            true) :
    RealizesAt pass walk
      ((inner cell children).plan pass.settings pass.oracle path place
        walk.asked)
      ((inner cell children).walkListing pass path place walk) := by
  obtain ⟨slot, claimed, hclaim, hseat⟩ := Cell.exists_claim_of_new hnew
  rw [walkListing, walk_small_of_new hwalk hseen hsmall hclaim]
  simp only [plan, hseen, hsmall, if_true]
  generalize (pass.oracle.prefersSample pass.settings place cell
    (pass.oracle.sees pass.settings place walk.asked).2).2 = asked
    at hnew hclaim hseat ⊢
  apply RealizesAt.of_asked asked
  have hrunning : Walk.exhausted { walk with asked } = false := hwalk
  have hseats := Cell.seats_seat pass cell.stars.size cell.valueCount cell
    { walk with asked }
  have hexhausted := hseats.exhausted_of_new hwalk hnew
  have hasked := hseats.asked_eq
  rw [hseat] at hexhausted hasked
  let written := cell.write pass slot cell.stars.size cell.valueCount claimed
  let entry : Entry := ⟨path, place, false, written.1⟩
  obtain ⟨hbelow, _, hsame⟩ :=
    empties_descendants path place children claimed hexhausted
  obtain ⟨hrest, hagrees⟩ :=
    @settleAll_write pass
      (entry :: (settleAll pass
        ((descendants path place children).map (·, false)) claimed).1)
      entry cell slot cell.stars.size cell.valueCount List.mem_cons_self
      (Cell.mem_held_iff.mpr ⟨_, rfl, rfl⟩) rfl
      (descendants path place children) claimed
  rw [hbelow] at hrest hagrees
  refine ⟨?_, ?_, fun _ => hsame.trans hasked⟩ <;>
    rw [settleAll_cons hrunning, Entry.settle, if_pos rfl] <;>
    simp only [Entry.shows, Cell.shows, Bool.false_eq_true, if_false, hseat]
  · exact congrArg (entry :: ·) hrest
  · exact hagrees

/-- Whether the nodes below are vacated or not, the walk settles them as the
plan says: when it leaves them alone, they hold no slots. -/
theorem realizesAt_small (hnode : (inner cell children).Unnested)
    (hsmall : (pass.oracle.prefersSample pass.settings place cell
      (pass.oracle.sees pass.settings place walk.asked).2).1 = true) :
    RealizesAt pass walk
      ((inner cell children).plan pass.settings pass.oracle path place
        walk.asked)
      ((inner cell children).walkListing pass path place walk) := by
  cases hnew : (cell.seat pass cell.stars.size cell.valueCount
      { walk with asked := _ }).2.2 with
  | true =>
      exact realizesAt_small_of_new path place cell children hwalk hseen hsmall
        hnew
  | false =>
      rw [walkListing, walk_small hwalk hseen hsmall hnew]
      simp only [plan, hseen, hsmall, if_true]
      generalize (pass.oracle.prefersSample pass.settings place cell
        (pass.oracle.sees pass.settings place walk.asked).2).2 = asked
        at hnew ⊢
      have hrunning : Walk.exhausted { walk with asked } = false := hwalk
      have hseats := Cell.seats_seat pass cell.stars.size cell.valueCount cell
        { walk with asked }
      have hbelow := settleAll_descendants path place hnode hseats hnew
      apply RealizesAt.of_asked asked
      refine ⟨?_, ?_, fun _ => hseats.asked_eq⟩ <;>
        rw [settleAll_cons hrunning, Entry.settle, if_pos rfl] <;>
        simp only [Entry.shows, Cell.shows, Bool.false_eq_true, if_false,
          hbelow]
      · rfl
      · exact .refl pass _ _

theorem realizesAt_through
    (hsmall : (pass.oracle.prefersSample pass.settings place cell
      (pass.oracle.sees pass.settings place walk.asked).2).1 = false)
    (hchildren : ∀ o, Realizes pass
      ((children o).plan pass.settings pass.oracle (path ++ [o])
        (place.child o))
      ((children o).walkListing pass (path ++ [o]) (place.child o))) :
    RealizesAt pass walk
      ((inner cell children).plan pass.settings pass.oracle path place
        walk.asked)
      ((inner cell children).walkListing pass path place walk) := by
  rw [walkListing, walk_through hwalk hseen hsmall]
  simp only [plan, hseen, hsmall, if_true, if_neg Bool.false_ne_true]
  generalize (pass.oracle.prefersSample pass.settings place cell
    (pass.oracle.sees pass.settings place walk.asked).2).2 = asked
  apply RealizesAt.of_asked asked
  have hrunning : Walk.exhausted { walk with asked } = false := hwalk
  have hvacates := Cell.vacates_vacate pass cell { walk with asked }
  obtain ⟨hbelow, hagrees, hquestions⟩ :=
    Realizes.collect hchildren Octant.all
      (cell.vacate pass.compacting { walk with asked }).2 asked
      fun _ => hvacates.asked_eq
  refine ⟨?_, ?_, hquestions⟩ <;>
    rw [settleAll_cons hrunning, Entry.settle, if_neg Bool.false_ne_true]
  · exact congrArg (List.cons _) hbelow
  · exact hagrees.mono (List.subset_cons_self _ _)

end

end

/-- The walk of a subtree settles its plan. -/
theorem realizes_walk {node : Node} (hnode : node.Unnested)
    (path : List Octant) (place : Place) :
    Realizes pass (node.plan pass.settings pass.oracle path place)
      (node.walkListing pass path place) := by
  induction node generalizing path place with
  | leaf cell =>
      exact realizes_of_running fun walk hwalk =>
        realizesAt_leaf path place cell hwalk
  | inner cell children ih =>
      apply realizes_of_running
      intro walk hwalk
      cases hseen : (pass.oracle.sees pass.settings place walk.asked).1 with
      | false => exact realizesAt_unseen path place cell children hwalk hseen
      | true =>
      cases hsmall : (pass.oracle.prefersSample pass.settings place cell
          (pass.oracle.sees pass.settings place walk.asked).2).1 with
      | true =>
          exact realizesAt_small path place cell children hwalk hseen hnode
            hsmall
      | false =>
          apply realizesAt_through path place cell children hwalk hseen hsmall
          exact fun o => ih o (hnode.2 o) (path ++ [o]) (place.child o)

end Node

end Starfield
