import Starfield.Proofs.Archive.Reload
import Starfield.Proofs.Frame.Drawn

/-!
# Plans that ask for no change

The marks of a plan come from the answers of the oracle, and no answer depends
on who holds slots.  So the plan that a frame has carried out is the plan of the
next frame for the same oracle, and every node already is what it is to become.
Settling such a plan in a buffer that is kept changes nothing at all.
-/

namespace Starfield

/-! ## Marks do not depend on slots -/

/-- The marks of a plan and the questions asked. -/
def marksOf (planned : List (Entry × Bool) × List Question) :
    List Bool × List Question :=
  (planned.1.map Prod.snd, planned.2)

/-- Plans of all octants have the same marks together when they have the same
marks one by one. -/
theorem marksOf_collect
    {planned planned' :
      Octant → List Question → List (Entry × Bool) × List Question}
    (h : ∀ o asked, marksOf (planned' o asked) = marksOf (planned o asked))
    (os : List Octant) (asked : List Question) :
    marksOf (Octant.collect planned' os asked) =
      marksOf (Octant.collect planned os asked) := by
  induction os generalizing asked with
  | nil => rfl
  | cons o os ih =>
      obtain ⟨hmarks, hasked⟩ := Prod.ext_iff.mp (h o asked)
      obtain ⟨hmarks', hasked'⟩ := Prod.ext_iff.mp (ih (planned o asked).2)
      simp only [marksOf] at hmarks hasked hmarks' hasked' ⊢
      simp only [Octant.collect, List.map_append, hasked, hmarks, hmarks',
        hasked']

theorem Node.marksOf_plan_clear (settings : Settings) (oracle : Oracle)
    (node : Node) (path : List Octant) (place : Place)
    (asked : List Question) :
    marksOf (node.clear.plan settings oracle path place asked) =
      marksOf (node.plan settings oracle path place asked) := by
  induction node generalizing path place asked with
  | leaf cell => rfl
  | inner cell children ih =>
      have hunmarked :
          ((descendants path place fun o => (children o).clear).map
            (·, false)).map Prod.snd =
          ((descendants path place children).map (·, false)).map Prod.snd := by
        simp only [descendants, listing_clear, ← List.map_flatMap, List.map_map]
        rfl
      have hsample : ∀ asked,
          oracle.prefersSample settings place cell.clear asked =
            oracle.prefersSample settings place cell asked := fun _ => rfl
      rw [clear_inner]
      simp only [plan, hsample]
      split
      · split
        · simp only [marksOf, List.map_cons, hunmarked]
        · have hbelow := marksOf_collect (fun o =>
            ih o (path ++ [o]) (place.child o)) Octant.all
            (oracle.prefersSample settings place cell
              (oracle.sees settings place asked).2).2
          obtain ⟨hmarks, hasked⟩ := Prod.ext_iff.mp hbelow
          simp only [marksOf] at hmarks hasked
          simp only [marksOf, List.map_cons, hmarks, hasked]
      · simp only [marksOf, List.map_cons, hunmarked]

theorem Tree.SameContent.marksOf_plan {tree next : Tree}
    (h : tree.SameContent next) (oracle : Oracle) :
    marksOf (next.plan oracle) = marksOf (tree.plan oracle) := by
  have hdomain : next.domain = tree.domain := by
    rw [domain, domain, h.settings]
  rw [plan, plan, h.settings, hdomain]
  refine marksOf_collect (fun o asked => ?_) Octant.all []
  rw [← Node.marksOf_plan_clear, h.octants, Node.marksOf_plan_clear]

/-! ## Settling a plan that is carried out -/

/-- The node already is what the plan says: it shows what it has when it is to
be drawn, and holds no slot otherwise. -/
def IsSettled (planned : Entry × Bool) : Prop :=
  planned.1.shown? = if planned.2 then some planned.1.shows else none

theorem IsSettled.isResident_iff {planned : Entry × Bool}
    (h : IsSettled planned) :
    planned.1.cell.tenancy.isSome = planned.2 := by
  rw [IsSettled, Entry.shown?] at h
  rw [← Option.isSome_map (f := fun tenancy : Tenancy =>
    (tenancy.stars, tenancy.sampled)), h]
  cases planned.2 <;> rfl

/-- Nodes that have become what a plan said are settled in every plan with the
same marks. -/
theorem isSettled_of_becomes {plan next : List (Entry × Bool)}
    (h : List.Forall₂ Entry.Becomes plan (next.map Prod.fst))
    (hmarks : next.map Prod.snd = plan.map Prod.snd) :
    ∀ planned ∈ next, IsSettled planned := by
  induction next generalizing plan with
  | nil => exact nofun
  | cons head next ih =>
      cases h with
      | @cons before _ plan _ hhere hrest =>
          obtain ⟨hmark, hmarks⟩ := List.cons_eq_cons.mp hmarks
          rw [List.forall_mem_cons]
          refine ⟨?_, ih hrest hmarks⟩
          rw [IsSettled, hhere.shown, hhere.shows, hmark]

variable {pass : Pass}

/-- A cell that shows what it is to show is left alone. -/
theorem Cell.seat_eq_self {cell : Cell} {tenancy : Tenancy}
    {stars sampled : Nat} (hcell : cell.tenancy = some tenancy)
    (hpass : pass.compacting = false)
    (hsame : tenancy.stars = stars ∧ tenancy.sampled = sampled) (walk : Walk) :
    cell.seat pass stars sampled walk = (cell, walk, false) := by
  simp only [seat, claim, hcell, hpass, Bool.false_eq_true, if_false]
  rw [if_pos hsame]

theorem Cell.vacate_eq_self {cell : Cell} (hcell : cell.tenancy = none)
    (compacting : Bool) (walk : Walk) :
    cell.vacate compacting walk = (cell, walk) := by
  simp only [vacate, hcell]

/-- Settling a settled node does nothing. -/
theorem IsSettled.settle_eq {entry : Entry} {drawn : Bool}
    (h : IsSettled (entry, drawn)) (hpass : pass.compacting = false)
    (walk : Walk) : entry.settle pass drawn walk = (entry, walk) := by
  rw [IsSettled, Entry.shown?] at h
  cases drawn with
  | true =>
      obtain ⟨tenancy, htenancy, hshows⟩ := Option.map_eq_some_iff.mp h
      rw [Entry.settle, if_pos rfl, Cell.seat_eq_self htenancy hpass
        (Prod.ext_iff.mp hshows)]
  | false =>
      rw [Entry.settle, if_neg Bool.false_ne_true,
        Cell.vacate_eq_self (Option.map_eq_none_iff.mp h)]

/-- Settling a plan that is carried out already does nothing. -/
theorem settleAll_settled (hpass : pass.compacting = false)
    {plan : List (Entry × Bool)} (h : ∀ planned ∈ plan, IsSettled planned)
    (walk : Walk) : settleAll pass plan walk = (plan.map Prod.fst, walk) := by
  induction plan with
  | nil => rfl
  | cons head plan ih =>
      obtain ⟨entry, drawn⟩ := head
      rw [List.forall_mem_cons] at h
      cases hrunning : walk.exhausted with
      | true => exact settleAll_of_exhausted _ hrunning
      | false =>
          rw [settleAll_cons hrunning, h.1.settle_eq hpass, ih h.2]
          rfl

end Starfield
