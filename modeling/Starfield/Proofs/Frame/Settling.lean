import Starfield.Node.Listing
import Starfield.Proofs.Frame.Step

/-!
# Settling nodes one after the other

Once it is known which nodes are to be drawn, a frame has only to settle the
nodes in pre-order: each is seated or vacated by itself, until a slot is needed
and none is left.  What happens to the slots in a frame is proved about this
fold over a list and not about the recursion on the tree.
-/

namespace Starfield

/-- What a cell shows when it is drawn: the number of stars and, for a sample,
the number of its values. -/
def Cell.shows (isLeaf : Bool) (cell : Cell) : Nat × Nat :=
  if isLeaf then (cell.count, 0) else (cell.stars.size, cell.valueCount)

namespace Entry

def shows (entry : Entry) : Nat × Nat := entry.cell.shows entry.isLeaf

/-- Seat a node that is to be drawn, and vacate any other. -/
def settle (pass : Pass) (drawn : Bool) (entry : Entry) (walk : Walk) :
    Entry × Walk :=
  if drawn then
    let seated := entry.cell.seat pass entry.shows.1 entry.shows.2 walk
    ({ entry with cell := seated.1 }, seated.2.1)
  else
    let vacated := entry.cell.vacate pass.compacting walk
    ({ entry with cell := vacated.1 }, vacated.2)

inductive Settles (pass : Pass) (entry : Entry) (walk : Walk) :
    Bool → Entry × Walk → Prop
  | seated {seated : Cell × Walk × Bool}
      (hseats : entry.cell.Seats pass entry.shows.1 entry.shows.2 walk seated) :
      Settles pass entry walk true ({ entry with cell := seated.1 }, seated.2.1)
  | vacated {vacated : Cell × Walk}
      (hvacates : entry.cell.Vacates pass walk vacated) :
      Settles pass entry walk false ({ entry with cell := vacated.1 }, vacated.2)

theorem settles_settle (pass : Pass) (drawn : Bool) (entry : Entry)
    (walk : Walk) :
    entry.Settles pass walk drawn (entry.settle pass drawn walk) := by
  cases drawn with
  | true => exact .seated (Cell.seats_seat _ _ _ _ _)
  | false => exact .vacated (Cell.vacates_vacate _ _ _)

/-- Settling a node changes its cell only. -/
theorem settle_cell (pass : Pass) (drawn : Bool) (entry : Entry)
    (walk : Walk) :
    { entry with cell := (entry.settle pass drawn walk).1.cell } =
      (entry.settle pass drawn walk).1 := by
  cases drawn <;> rfl

theorem Settles.asked_eq {pass : Pass} {entry : Entry} {walk : Walk}
    {drawn : Bool} {settled : Entry × Walk}
    (h : entry.Settles pass walk drawn settled) :
    settled.2.asked = walk.asked := by
  cases h with
  | seated hseats => exact hseats.asked_eq
  | vacated hvacates => exact hvacates.asked_eq

end Entry

/-- Settle the nodes of a list one after the other, each as its mark says, as
long as there are slots. -/
def settleAll (pass : Pass) : List (Entry × Bool) → Walk → List Entry × Walk
  | [], walk => ([], walk)
  | (entry, drawn) :: plan, walk =>
      if walk.exhausted then (entry :: plan.map Prod.fst, walk)
      else
        let here := entry.settle pass drawn walk
        let rest := settleAll pass plan here.2
        (here.1 :: rest.1, rest.2)

variable {pass : Pass}

theorem settleAll_of_exhausted (plan : List (Entry × Bool)) {walk : Walk}
    (hwalk : walk.exhausted = true) :
    settleAll pass plan walk = (plan.map Prod.fst, walk) := by
  cases plan with
  | nil => rfl
  | cons head plan => simp [settleAll, hwalk]

theorem settleAll_cons {entry : Entry} {drawn : Bool}
    {plan : List (Entry × Bool)} {walk : Walk}
    (hwalk : walk.exhausted = false) :
    settleAll pass ((entry, drawn) :: plan) walk =
      ((entry.settle pass drawn walk).1 ::
          (settleAll pass plan (entry.settle pass drawn walk).2).1,
        (settleAll pass plan (entry.settle pass drawn walk).2).2) := by
  simp [settleAll, hwalk]

/-- What holds when nothing is settled, and passes from the rest of a plan to
the plan with one more node in front, holds of every plan. -/
theorem settleAll_induction
    {P : List (Entry × Bool) → Walk → List Entry × Walk → Prop}
    (stopped : ∀ plan walk, P plan walk (plan.map Prod.fst, walk))
    (step : ∀ {entry : Entry} {drawn : Bool} {plan : List (Entry × Bool)}
      {walk : Walk} {here : Entry × Walk} {rest : List Entry × Walk},
      entry.Settles pass walk drawn here → P plan here.2 rest →
        P ((entry, drawn) :: plan) walk (here.1 :: rest.1, rest.2))
    (plan : List (Entry × Bool)) (walk : Walk) :
    P plan walk (settleAll pass plan walk) := by
  induction plan generalizing walk with
  | nil => exact stopped [] walk
  | cons head plan ih =>
      obtain ⟨entry, drawn⟩ := head
      cases hwalk : walk.exhausted with
      | true =>
          rw [settleAll_of_exhausted _ hwalk]
          exact stopped _ walk
      | false =>
          rw [settleAll_cons hwalk]
          exact step (Entry.settles_settle pass drawn entry walk) (ih _)

/-- Slots that have run out do not come back. -/
theorem running_of_done {plan : List (Entry × Bool)} {walk : Walk}
    (hdone : (settleAll pass plan walk).2.exhausted = false) :
    walk.exhausted = false := by
  apply eq_false_of_ne_true
  intro hwalk
  rw [settleAll_of_exhausted plan hwalk] at hdone
  exact absurd (hwalk.symm.trans hdone) (by decide)

theorem settleAll_append (first second : List (Entry × Bool)) (walk : Walk) :
    settleAll pass (first ++ second) walk =
      ((settleAll pass first walk).1 ++
          (settleAll pass second (settleAll pass first walk).2).1,
        (settleAll pass second (settleAll pass first walk).2).2) := by
  induction first generalizing walk with
  | nil => rfl
  | cons head first ih =>
      obtain ⟨entry, drawn⟩ := head
      cases hwalk : walk.exhausted with
      | true => simp [settleAll_of_exhausted _ hwalk]
      | false =>
          rw [List.cons_append, settleAll_cons hwalk, settleAll_cons hwalk, ih]
          rfl

/-- Vacating entries that hold no slot changes nothing. -/
theorem settleAll_vacant {entries : List Entry}
    (hvacant : ∀ entry ∈ entries, entry.cell.tenancy = none) (walk : Walk) :
    settleAll pass (entries.map (·, false)) walk = (entries, walk) := by
  induction entries with
  | nil => rfl
  | cons entry entries ih =>
      have hentry : entry.settle pass false walk = (entry, walk) := by
        simp [Entry.settle, Cell.vacate, hvacant entry List.mem_cons_self]
      have hrest := ih fun other hother =>
        hvacant other (List.mem_cons_of_mem _ hother)
      cases hwalk : walk.exhausted with
      | true =>
          rw [settleAll_of_exhausted _ hwalk]
          simp [Function.comp_def]
      | false =>
          rw [List.map_cons, settleAll_cons hwalk, hentry, hrest]

end Starfield
