import Starfield.Proofs.Frame.Settling

/-!
# The walk in terms of its parts

These equations describe the walk of a frame by what is asked, what is settled
and how the walk goes on below.  They are the only place where the recursion of
the walk is unfolded.
-/

namespace Starfield

namespace Oracle

def sees (oracle : Oracle) (settings : Settings) (place : Place)
    (asked : List Question) : Bool × List Question :=
  let corners := place.cube.worldCorners settings.worldScale
  let answer := (oracle asked).sees corners
  (answer, .sees corners answer :: asked)

/-- Ask whether the sample of an inner node is good enough to be drawn; there
is nothing to ask when the sample is empty. -/
def prefersSample (oracle : Oracle) (settings : Settings) (place : Place)
    (cell : Cell) (asked : List Question) : Bool × List Question :=
  if cell.stars.isEmpty then (false, asked)
  else
    let corners := place.cube.worldCorners settings.worldScale
    let (width, height) := (oracle asked).pixels corners
    (width * height < settings.pixelThreshold place.depth,
      .pixels corners width height :: asked)

end Oracle

namespace Node

variable {pass : Pass} {place : Place} {cell : Cell}
  {children : Octant → Node} {walk : Walk}

theorem vacate_leaf (compacting : Bool) :
    (leaf cell).vacate compacting walk =
      (leaf (cell.vacate compacting walk).1, (cell.vacate compacting walk).2) :=
  rfl

theorem vacate_inner (compacting : Bool) :
    (inner cell children).vacate compacting walk =
      let vacated := cell.vacate compacting walk
      let below :=
        Octet.thread (fun o => (children o).vacate compacting) vacated.2
      (inner vacated.1 below.1.get, below.2) :=
  rfl

theorem walk_of_exhausted (node : Node) (place : Place)
    (hwalk : walk.exhausted = true) :
    node.walk pass place walk = (node, walk) := by
  cases node <;> simp [Node.walk, hwalk]

theorem walk_leaf (path : List Octant) (hwalk : walk.exhausted = false) :
    (leaf cell).walk pass place walk =
      let seen := pass.oracle.sees pass.settings place walk.asked
      let settled :=
        Entry.settle pass (seen.1 && cell.count ≠ 0) ⟨path, place, true, cell⟩
          { walk with asked := seen.2 }
      (leaf settled.1.cell, settled.2) := by
  have hsettle : ∀ (drawn : Bool) (walk : Walk),
      (if drawn = true then
        (leaf (cell.seat pass cell.count 0 walk).1,
          (cell.seat pass cell.count 0 walk).2.1)
      else
        (leaf (cell.vacate pass.compacting walk).1,
          (cell.vacate pass.compacting walk).2)) =
        (leaf (Entry.settle pass drawn ⟨path, place, true, cell⟩ walk).1.cell,
          (Entry.settle pass drawn ⟨path, place, true, cell⟩ walk).2) := by
    intro drawn walk
    cases drawn <;> rfl
  rw [Node.walk, if_neg (ne_true_of_eq_false hwalk)]
  exact hsettle
    ((pass.oracle.sees pass.settings place walk.asked).1 &&
      decide (cell.count ≠ 0))
    { walk with
      asked := (pass.oracle.sees pass.settings place walk.asked).2 }

/-- The first question about a node is whether it can be seen. -/
theorem askSees_eq (walk : Walk) :
    walk.askSees pass (place.cube.worldCorners pass.settings.worldScale) =
      let seen := pass.oracle.sees pass.settings place walk.asked
      (seen.1, { walk with asked := seen.2 }) :=
  rfl

/-- A node that cannot be seen is vacated with everything below it. -/
theorem walk_unseen (hwalk : walk.exhausted = false)
    (hseen : (pass.oracle.sees pass.settings place walk.asked).1 = false) :
    (inner cell children).walk pass place walk =
      (inner cell children).vacate pass.compacting
        { walk with
          asked := (pass.oracle.sees pass.settings place walk.asked).2 } := by
  rw [Node.walk, if_neg (ne_true_of_eq_false hwalk)]
  simp only [askSees_eq, hseen, Bool.not_false, if_true]

/-- Whether a sample is drawn is asked only when there is one. -/
theorem askSmall_eq (walk : Walk) :
    (if cell.stars.isEmpty then (false, walk)
      else walk.askSmall pass place.depth
        (place.cube.worldCorners pass.settings.worldScale)) =
      let small :=
        pass.oracle.prefersSample pass.settings place cell walk.asked
      (small.1, { walk with asked := small.2 }) := by
  rw [Oracle.prefersSample]
  cases cell.stars.isEmpty <;> rfl

section

variable (hwalk : walk.exhausted = false)
  (hseen : (pass.oracle.sees pass.settings place walk.asked).1 = true)
  (hsmall :
    (pass.oracle.prefersSample pass.settings place cell
      (pass.oracle.sees pass.settings place walk.asked).2).1 = true)

include hwalk hseen hsmall

/-- A node whose sample is good enough is seated.  Unless its slot is a new one,
the walk is done with the subtree. -/
theorem walk_small :
    let small := pass.oracle.prefersSample pass.settings place cell
      (pass.oracle.sees pass.settings place walk.asked).2
    let seated := cell.seat pass cell.stars.size cell.valueCount
      { walk with asked := small.2 }
    seated.2.2 = false →
      (inner cell children).walk pass place walk =
        (inner seated.1 children, seated.2.1) := by
  intro small seated hold
  rw [Node.walk, if_neg (ne_true_of_eq_false hwalk)]
  simp only [askSees_eq, askSmall_eq, hseen, hsmall, Bool.not_true,
    Bool.false_eq_true, if_false, if_true]
  simp only [seated, Cell.seat, small] at hold ⊢
  generalize cell.claim pass cell.stars.size cell.valueCount
    { walk with asked := _ } = claimed at hold ⊢
  obtain ⟨_ | ⟨slot, isNew⟩, claimed⟩ := claimed
  · rfl
  · cases hold
    rfl

/-- A node with a new slot is written into it after everything below has been
vacated. -/
theorem walk_small_of_new {slot : Nat} {claimed : Walk}
    (hclaim :
      cell.claim pass cell.stars.size cell.valueCount
          { walk with
            asked :=
              (pass.oracle.prefersSample pass.settings place cell
                (pass.oracle.sees pass.settings place walk.asked).2).2 } =
        (some (slot, true), claimed)) :
    (inner cell children).walk pass place walk =
      let below := Octet.thread
        (fun o => (children o).vacate pass.compacting) claimed
      let written := cell.write pass slot cell.stars.size cell.valueCount
        below.2
      (inner written.1 below.1.get, written.2) := by
  rw [Node.walk, if_neg (ne_true_of_eq_false hwalk)]
  simp only [askSees_eq, askSmall_eq, hseen, hsmall, hclaim, Bool.not_true,
    Bool.false_eq_true, if_false, if_true]
  rfl

end

/-- The walk passes through a node whose sample is not good enough. -/
theorem walk_through (hwalk : walk.exhausted = false)
    (hseen : (pass.oracle.sees pass.settings place walk.asked).1 = true)
    (hsmall :
      (pass.oracle.prefersSample pass.settings place cell
        (pass.oracle.sees pass.settings place walk.asked).2).1 = false) :
    (inner cell children).walk pass place walk =
      let small := pass.oracle.prefersSample pass.settings place cell
        (pass.oracle.sees pass.settings place walk.asked).2
      let vacated := cell.vacate pass.compacting { walk with asked := small.2 }
      let below := Octet.thread
        (fun o => (children o).walk pass (place.child o)) vacated.2
      (inner vacated.1 below.1.get, below.2) := by
  rw [Node.walk, if_neg (ne_true_of_eq_false hwalk)]
  simp only [askSees_eq, askSmall_eq, hseen, hsmall, Bool.not_true,
    Bool.false_eq_true, if_false]
  rfl

end Node

end Starfield
