import Mathlib.Data.List.Forall2
import Starfield.Proofs.Frame.Settling

/-!
# What a settled plan shows

When a plan is settled to the end, exactly the nodes with a mark hold slots, and
each of them shows what it would show now, whatever held slots before.
-/

namespace Starfield

variable {pass : Pass}

namespace Entry

/-- What the slot of a node shows, if it holds one. -/
def shown? (entry : Entry) : Option (Nat × Nat) :=
  entry.cell.tenancy.map fun tenancy => (tenancy.stars, tenancy.sampled)

/-- What a node would show does not depend on its slot. -/
theorem shows_of_clear {entry : Entry} {cell : Cell}
    (h : cell.clear = entry.cell.clear) :
    ({ entry with cell } : Entry).shows = entry.shows := by
  obtain ⟨count, stars, tenancy⟩ := cell
  obtain ⟨hcount, hstars⟩ : count = entry.cell.count ∧ stars = entry.cell.stars :=
    by simpa [Cell.clear] using h
  simp only [shows, Cell.shows, Cell.valueCount, hcount, hstars]

structure Becomes (planned : Entry × Bool) (entry : Entry) : Prop where
  path : entry.path = planned.1.path
  isLeaf : entry.isLeaf = planned.1.isLeaf
  clear : entry.cell.clear = planned.1.cell.clear
  shows : entry.shows = planned.1.shows
  shown : entry.shown? = if planned.2 then some planned.1.shows else none

theorem Settles.becomes {drawn : Bool} {entry : Entry} {walk : Walk}
    {settled : Entry × Walk} (h : entry.Settles pass walk drawn settled)
    (hdone : settled.2.exhausted = false) :
    Becomes (entry, drawn) settled.1 := by
  cases h with
  | seated hseats =>
      refine ⟨rfl, rfl, hseats.clear_eq, shows_of_clear hseats.clear_eq, ?_⟩
      cases hseats with
      | kept hcell _ hsame => simp [shown?, hcell, hsame]
      | rewritten | placed => rfl
      | refused => cases hdone
  | vacated hvacates =>
      refine ⟨rfl, rfl, hvacates.clear_eq, shows_of_clear hvacates.clear_eq, ?_⟩
      simp [shown?, hvacates.tenancy_eq]

end Entry

theorem becomes_settleAll (plan : List (Entry × Bool)) (walk : Walk)
    (hdone : (settleAll pass plan walk).2.exhausted = false) :
    List.Forall₂ Entry.Becomes plan (settleAll pass plan walk).1 := by
  induction plan generalizing walk with
  | nil => exact .nil
  | cons head plan ih =>
      obtain ⟨entry, drawn⟩ := head
      have hrunning := running_of_done hdone
      rw [settleAll_cons hrunning] at hdone ⊢
      exact .cons ((Entry.settles_settle pass drawn entry walk).becomes
        (running_of_done hdone)) (ih _ hdone)

/-- Every settled node comes from the plan. -/
theorem exists_planned {plan : List (Entry × Bool)} {entries : List Entry}
    (h : List.Forall₂ Entry.Becomes plan entries) {entry : Entry}
    (hentry : entry ∈ entries) :
    ∃ planned ∈ plan, Entry.Becomes planned entry := by
  induction h with
  | nil => exact absurd hentry List.not_mem_nil
  | @cons planned _ plan _ hhere _ ih =>
      rcases List.mem_cons.mp hentry with rfl | hrest
      · exact ⟨planned, List.mem_cons_self, hhere⟩
      · obtain ⟨other, hother, hbecomes⟩ := ih hrest
        exact ⟨other, List.mem_cons_of_mem _ hother, hbecomes⟩

end Starfield
