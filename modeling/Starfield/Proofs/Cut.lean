import Starfield.Proofs.Frame.Drawn
import Starfield.Proofs.Ownership

/-!
# A frame draws a cut

Which nodes hold slots after a frame, and what they show, could depend on what
was drawn before: the walk keeps slots, moves them and takes them away as it
goes.  For a view that always answers the same it does not.  The nodes drawn form
a cut of the tree that is found by looking at the view and the stars alone.
-/

namespace Starfield

/-- A node that is drawn: where it is found and what its slot shows. -/
structure Drawing where
  path : List Octant
  stars : Nat
  sampled : Nat
deriving DecidableEq

def Entry.drawing? (entry : Entry) : Option Drawing :=
  entry.cell.tenancy.map fun tenancy =>
    ⟨entry.path, tenancy.stars, tenancy.sampled⟩

namespace View

def seesPlace (view : View) (settings : Settings) (place : Place) : Bool :=
  view.sees (place.cube.worldCorners settings.worldScale)

def pixelsPlace (view : View) (settings : Settings) (place : Place) :
    Float32 × Float32 :=
  view.pixels (place.cube.worldCorners settings.worldScale)

/-- Whether the cube at a place covers so few pixels that a sample will do. -/
def isSmall (view : View) (settings : Settings) (place : Place) : Bool :=
  let size := view.pixelsPlace settings place
  size.1 * size.2 < settings.pixelThreshold place.depth

end View

namespace Node

/-- The nodes that are to be drawn for a view: visible leaves with stars, and the
topmost visible inner nodes that have a sample and are small. -/
def cut (settings : Settings) (view : View) (path : List Octant)
    (place : Place) : Node → List Drawing
  | leaf cell =>
      if view.seesPlace settings place ∧ 0 < cell.count then
        [⟨path, cell.count, 0⟩]
      else []
  | inner cell children =>
      if view.seesPlace settings place then
        if 0 < cell.stars.size ∧ view.isSmall settings place then
          [⟨path, cell.stars.size, cell.valueCount⟩]
        else
          Octant.all.flatMap fun o =>
            (children o).cut settings view (path ++ [o]) (place.child o)
      else []

def questions (settings : Settings) (view : View) (place : Place) :
    Node → List Question
  | leaf _ =>
      [.sees (place.cube.worldCorners settings.worldScale)
        (view.seesPlace settings place)]
  | inner cell children =>
      let corners := place.cube.worldCorners settings.worldScale
      let size := view.pixelsPlace settings place
      .sees corners (view.seesPlace settings place) ::
        if view.seesPlace settings place then
          if 0 < cell.stars.size then
            .pixels corners size.1 size.2 ::
              if view.isSmall settings place then []
              else
                Octant.all.flatMap fun o =>
                  (children o).questions settings view (place.child o)
          else
            Octant.all.flatMap fun o =>
              (children o).questions settings view (place.child o)
        else []

/-! ## History does not matter -/

theorem cut_clear (settings : Settings) (view : View) (node : Node)
    (path : List Octant) (place : Place) :
    node.clear.cut settings view path place =
      node.cut settings view path place := by
  induction node generalizing path place with
  | leaf cell => rfl
  | inner cell children ih =>
      rw [clear_inner]
      simp only [cut, ih]
      rfl

theorem questions_clear (settings : Settings) (view : View) (node : Node)
    (place : Place) :
    node.clear.questions settings view place =
      node.questions settings view place := by
  induction node generalizing place with
  | leaf cell => rfl
  | inner cell children ih =>
      rw [clear_inner]
      simp only [questions, ih]
      rfl

end Node

/-- How an entry of a plan is to be drawn, if it is marked. -/
def plannedDrawing? (planned : Entry × Bool) : Option Drawing :=
  if planned.2 then
    some ⟨planned.1.path, planned.1.shows.1, planned.1.shows.2⟩
  else none

theorem prefersSample_view (settings : Settings) (view : View) (place : Place)
    (cell : Cell) (asked : List Question) :
    view.oracle.prefersSample settings place cell asked =
      if 0 < cell.stars.size then
        (view.isSmall settings place,
          .pixels (place.cube.worldCorners settings.worldScale)
            (view.pixelsPlace settings place).1
            (view.pixelsPlace settings place).2 :: asked)
      else (false, asked) := by
  rw [Oracle.prefersSample]
  by_cases hstars : 0 < cell.stars.size
  · rw [if_pos hstars, if_neg (by simpa using Array.size_pos_iff.mp hstars)]
    rfl
  · rw [if_neg hstars, if_pos (by simpa using hstars)]

/-- What is planned marks these drawings and asks these questions, whatever was
asked before. -/
def Marks (drawings : List Drawing) (questions : List Question)
    (planned : List Question → List (Entry × Bool) × List Question) : Prop :=
  ∀ asked, (planned asked).1.filterMap plannedDrawing? = drawings ∧
    (planned asked).2 = questions.reverse ++ asked

theorem Marks.collect {drawings : Octant → List Drawing}
    {questions : Octant → List Question}
    {planned : Octant → List Question → List (Entry × Bool) × List Question}
    (h : ∀ o, Marks (drawings o) (questions o) (planned o))
    (os : List Octant) :
    Marks (os.flatMap drawings) (os.flatMap questions)
      (Octant.collect planned os) := by
  induction os with
  | nil => exact fun asked => ⟨rfl, rfl⟩
  | cons o os ih =>
      intro asked
      obtain ⟨hhere, hasked⟩ := h o asked
      obtain ⟨hrest, hasked'⟩ := ih (planned o asked).2
      refine ⟨?_, ?_⟩
      · rw [Octant.collect, List.filterMap_append, hhere, hrest]
        rfl
      · rw [Octant.collect, hasked', hasked, List.flatMap_cons,
          List.reverse_append, List.append_assoc]

/-- For a view the plan of a subtree marks the nodes of the cut. -/
theorem Node.marks_plan (settings : Settings) (view : View) (node : Node)
    (path : List Octant) (place : Place) :
    Marks (node.cut settings view path place)
      (node.questions settings view place)
      (node.plan settings view.oracle path place) := by
  have hsees : ∀ (place : Place) (asked : List Question),
      view.oracle.sees settings place asked =
        (view.seesPlace settings place,
          .sees (place.cube.worldCorners settings.worldScale)
            (view.seesPlace settings place) :: asked) :=
    fun _ _ => rfl
  induction node generalizing path place with
  | leaf cell =>
      intro asked
      refine ⟨?_, rfl⟩
      simp only [plan, cut, hsees, Nat.pos_iff_ne_zero]
      cases view.seesPlace settings place with
      | false => rfl
      | true =>
          by_cases hcount : cell.count = 0
          · simp [hcount, plannedDrawing?]
          · simp [hcount, plannedDrawing?, Entry.shows, Cell.shows]
  | inner cell children ih =>
      intro asked
      simp only [plan, cut, questions, hsees, prefersSample_view]
      cases view.seesPlace settings place with
      | false => simp [plannedDrawing?]
      | true =>
      have hbelow := Marks.collect
        (fun o => ih o (path ++ [o]) (place.child o)) Octant.all
      by_cases hstars : 0 < cell.stars.size
      · cases hsmall : view.isSmall settings place with
        | true =>
            simp [hstars, plannedDrawing?, Entry.shows, Cell.shows]
        | false =>
            simp [hstars, plannedDrawing?, hbelow _]
      · simp [hstars, plannedDrawing?, hbelow _]

/-! ## Whole trees -/

theorem drawing?_of_becomes {planned : Entry × Bool} {entry : Entry}
    (h : Entry.Becomes planned entry) :
    entry.drawing? = plannedDrawing? planned := by
  have hdrawing : entry.drawing? = entry.shown?.map fun shown =>
      ⟨entry.path, shown.1, shown.2⟩ := by
    rw [Entry.drawing?, Entry.shown?, Option.map_map]
    rfl
  rw [hdrawing, h.shown, h.path, plannedDrawing?]
  split <;> rfl

theorem filterMap_drawing? {plan : List (Entry × Bool)} {entries : List Entry}
    (h : List.Forall₂ Entry.Becomes plan entries) :
    entries.filterMap Entry.drawing? = plan.filterMap plannedDrawing? := by
  induction h with
  | nil => rfl
  | cons hhere _ ih =>
      rw [List.filterMap_cons, List.filterMap_cons, drawing?_of_becomes hhere,
        ih]

namespace Tree

/-- The nodes that hold slots and what these show, in pre-order. -/
def drawings (tree : Tree) : List Drawing :=
  tree.listing.filterMap Entry.drawing?

/-- The nodes of the tree that are to be drawn for a view, in pre-order. -/
def cut (tree : Tree) (view : View) : List Drawing :=
  Octant.all.flatMap fun o =>
    (tree.octants o).cut tree.settings view [o] (tree.domain.child o)

def questions (tree : Tree) (view : View) : List Question :=
  Octant.all.flatMap fun o =>
    (tree.octants o).questions tree.settings view (tree.domain.child o)

/-- The trees have the same settings and the same nodes, but may hold slots at
different nodes. -/
structure SameContent (tree other : Tree) : Prop where
  settings : other.settings = tree.settings
  octants : ∀ o, (other.octants o).clear = (tree.octants o).clear

variable {tree other : Tree}

theorem SameContent.cut_eq (h : tree.SameContent other) (view : View) :
    other.cut view = tree.cut view := by
  have hdomain : other.domain = tree.domain := by
    rw [domain, domain, h.settings]
  rw [cut, cut, h.settings, hdomain]
  apply List.flatMap_congr
  intro o _
  rw [← Node.cut_clear, h.octants, Node.cut_clear]

theorem SameContent.questions_eq (h : tree.SameContent other) (view : View) :
    other.questions view = tree.questions view := by
  have hdomain : other.domain = tree.domain := by
    rw [domain, domain, h.settings]
  rw [questions, questions, h.settings, hdomain]
  apply List.flatMap_congr
  intro o _
  rw [← Node.questions_clear, h.octants, Node.questions_clear]

theorem marks_plan (tree : Tree) (view : View) :
    Marks (tree.cut view) (tree.questions view)
      (Octant.collect
        (fun o => (tree.octants o).plan tree.settings view.oracle [o]
          (tree.domain.child o)) Octant.all) :=
  Marks.collect
    (fun o => (tree.octants o).marks_plan tree.settings view [o] _) Octant.all

/-- A frame that succeeds draws the cut for its view and asks just the questions
that finding the cut takes. -/
theorem drawings_runFrame (htree : tree.Unnested) {view : View}
    {detail : Detail} {time : Option Nat} {update : Update}
    (hframe : (tree.runFrame view.oracle detail time).outcome = .ok update) :
    (tree.runFrame view.oracle detail time).tree.drawings = tree.cut view ∧
      (tree.runFrame view.oracle detail time).asked =
        tree.questions view := by
  obtain ⟨log, hrun⟩ := @exists_runFrame_eq tree view.oracle detail time
  obtain ⟨hcut, hasked⟩ := tree.marks_plan view []
  rw [hrun] at hframe ⊢
  have hdone := (reports_frame view.oracle detail htree hframe).done
  refine ⟨?_, ?_⟩
  · have hdrawings := filterMap_drawing?
      (becomes_settleAll (tree.plan view.oracle).1 _ hdone)
    change (tree.frame view.oracle detail).tree.listing.filterMap _ = _
    rw [listing_frame view.oracle detail htree]
    exact hdrawings.trans hcut
  · have hquestions := asked_frame view.oracle detail htree hdone
    change (tree.frame view.oracle detail).asked = _
    rw [hquestions, plan, hasked, List.append_nil, List.reverse_reverse]

/-- Nothing of the history of a tree shows after a frame: the nodes drawn are
the cut for the view, each with what it has now, and every other tree with the
same nodes comes to the same by the same questions. -/
theorem Reachable.draws_cut (htree : Reachable tree) (view : View)
    (detail : Detail) (time : Option Nat) {update : Update}
    (hframe : (tree.runFrame view.oracle detail time).outcome = .ok update) :
    let frame := tree.runFrame view.oracle detail time
    frame.tree.drawings = tree.cut view ∧
      frame.asked = tree.questions view ∧
      ∀ (other : Tree) (detail' : Detail) (time' : Option Nat)
        (update' : Update), Reachable other → tree.SameContent other →
        (other.runFrame view.oracle detail' time').outcome = .ok update' →
        (other.runFrame view.oracle detail' time').tree.drawings =
            frame.tree.drawings ∧
          (other.runFrame view.oracle detail' time').asked = frame.asked := by
  intro frame
  obtain ⟨hdrawings, hasked⟩ := drawings_runFrame htree.unnested hframe
  refine ⟨hdrawings, hasked, ?_⟩
  intro other detail' time' update' hother hsame hframe'
  obtain ⟨hdrawings', hasked'⟩ := drawings_runFrame hother.unnested hframe'
  constructor
  · calc
      (other.runFrame view.oracle detail' time').tree.drawings =
          other.cut view := hdrawings'
      _ = tree.cut view := hsame.cut_eq view
      _ = frame.tree.drawings := hdrawings.symm
  · calc
      (other.runFrame view.oracle detail' time').asked =
          other.questions view := hasked'
      _ = tree.questions view := hsame.questions_eq view
      _ = frame.asked := hasked.symm

/-- A frame changes slots only. -/
theorem sameContent_runFrame (tree : Tree) (oracle : Oracle) (detail : Detail)
    (time : Option Nat) :
    tree.SameContent (tree.act (.runFrame oracle detail time)) := by
  obtain ⟨log, hrun⟩ := @exists_runFrame_eq tree oracle detail time
  rw [act, hrun]
  exact ⟨rfl, clear_frame oracle detail⟩

/-- The crowded tree with a buffer that is large enough. -/
def roomy : Tree := crowdedStars.act (.resizeBuffer 4)

/-- The same after a frame that has seen the last of its leaves only. -/
def roomyOnce : Tree := roomy.act (.runFrame (seesAfter 7) .positions none)

theorem reachable_roomy : Reachable roomy := managed_crowdedStars.reachable.act _

/-- Whether a leaf has been drawn before makes no difference. -/
theorem draws_cut_roomy :
    (roomyOnce.runFrame openView.oracle .positions none).tree.drawings =
        roomyOnce.cut openView ∧
      (roomyOnce.runFrame openView.oracle .positions none).asked =
        roomyOnce.questions openView ∧
      (roomyOnce.runFrame openView.oracle .positions none).tree.drawings =
        (roomy.runFrame openView.oracle .positions none).tree.drawings := by
  have hok : (roomy.runFrame openView.oracle .positions
      none).outcome.isOk = true := by
    decide +kernel
  have hok' : (roomyOnce.runFrame openView.oracle .positions
      none).outcome.isOk = true := by
    decide +kernel
  obtain ⟨update, hupdate⟩ := exists_ok_of_isOk hok
  obtain ⟨update', hupdate'⟩ := exists_ok_of_isOk hok'
  have hsame := roomy.sameContent_runFrame (seesAfter 7) .positions none
  obtain ⟨_, _, hroomy⟩ := Reachable.draws_cut reachable_roomy openView
    .positions none hupdate
  obtain ⟨hdrawings, hasked, _⟩ := Reachable.draws_cut
    (reachable_roomy.act _) openView .positions none hupdate'
  exact ⟨hdrawings, hasked, (hroomy roomyOnce .positions none update'
    (reachable_roomy.act _) hsame hupdate').1⟩

end Tree

end Starfield
