import Starfield.Job
import Starfield.Proofs.Family

/-!
# What a build does to files

A job works on files step by step, and no step is undone when a later one fails.
All the same a build that fails has changed no file: until the tree is complete
it only looks at files, and a file that could be emptied can be filled.
-/

namespace Starfield

namespace Job

variable {ε ε' α β : Type} {files after : Files} {job : Job ε α}
  {rest : α → Job ε β}

/-- The job changes no file. -/
def Reads (job : Job ε α) : Prop := ∀ files, (job files).2 = files

/-- The job changes no file when it fails. -/
def Atomic (job : Job ε α) : Prop :=
  ∀ ⦃files after : Files⦄ ⦃why : ε⦄, job files = (.error why, after) →
    after = files

/-- A job of two steps succeeds just when the first step does and the second
one does with the files that the first one left. -/
theorem bind_eq_ok_iff {value : β} :
    (job >>= rest) files = (.ok value, after) ↔
      ∃ here between, job files = (.ok here, between) ∧
        rest here between = (.ok value, after) := by
  change ExceptT.bindCont rest (job files).1 (job files).2 = _ ↔ _
  rcases job files with ⟨why | here, between⟩
  · exact ⟨nofun, fun ⟨_, _, h, _⟩ => nomatch h⟩
  · constructor
    · exact fun h => ⟨here, between, rfl, h⟩
    · rintro ⟨_, _, ⟨⟩, h⟩
      exact h

/-- It fails when the first step does, and when the second one does with the
files that the first one left. -/
theorem bind_eq_error_iff {why : ε} :
    (job >>= rest) files = (.error why, after) ↔
      job files = (.error why, after) ∨
        ∃ here between, job files = (.ok here, between) ∧
          rest here between = (.error why, after) := by
  change ExceptT.bindCont rest (job files).1 (job files).2 = _ ↔ _
  rcases job files with ⟨fault | here, between⟩
  · constructor
    · rintro ⟨⟩
      exact .inl rfl
    · rintro (⟨⟨⟩⟩ | ⟨_, _, h, _⟩)
      · rfl
      · cases h
  · constructor
    · exact fun h => .inr ⟨here, between, rfl, h⟩
    · rintro (h | ⟨_, _, ⟨⟩, h⟩)
      · cases h
      · exact h

theorem adapt_eq_ok_iff {f : ε → ε'} {value : α} :
    job.adapt f files = (.ok value, after) ↔ job files = (.ok value, after) := by
  change ((job files).1.mapError f, (job files).2) = _ ↔ _
  rw [Prod.ext_iff, mapError_eq_ok_iff, Prod.ext_iff]

theorem lift_eq_ok_iff {result : Except ε α} {value : α} :
    (liftM result : Job ε α) files = (.ok value, after) ↔
      result = .ok value ∧ after = files := by
  change (result, files) = _ ↔ _
  rw [Prod.mk.injEq, eq_comm (a := files)]

theorem get_eq_ok_iff {found : Files} :
    (get : Job ε Files) files = (.ok found, after) ↔
      found = files ∧ after = files := by
  change (Except.ok files, files) = _ ↔ _
  rw [Prod.mk.injEq, Except.ok.injEq, eq_comm, eq_comm (a := files)]

/-- A job that only looks at files until it comes to its last step fails without
a change when this step does. -/
theorem Reads.bind (h : Reads job) (hrest : ∀ here, Atomic (rest here)) :
    Atomic (job >>= rest) := by
  intro files after why hfails
  rcases bind_eq_error_iff.mp hfails with hjob | ⟨here, between, hjob, hlast⟩
  · have hsame := h files
    rw [hjob] at hsame
    exact hsame
  · have hsame := h files
    rw [hjob] at hsame
    cases hsame
    exact hrest here hlast

theorem Atomic.adapt (h : Atomic job) (f : ε → ε') : Atomic (job.adapt f) := by
  intro files after why hfails
  change ((job files).1.mapError f, (job files).2) = _ at hfails
  rcases hjob : job files with ⟨fault | value, left⟩
  · rw [hjob] at hfails
    cases hfails
    exact h hjob
  · rw [hjob] at hfails
    cases hfails

theorem write_eq_ok_iff {name : String} {bytes : Bytes} {value : Unit} :
    Job.write name bytes files = (.ok value, after) ↔
      files.write name bytes = .ok after := by
  rw [Job.write]
  cases files.write name bytes with
  | error why => exact ⟨nofun, nofun⟩
  | ok written => exact ⟨fun h => by cases h; rfl, fun h => by cases h; rfl⟩

end Job

namespace Tree

variable {tree : Tree} {files written : Files} {name : String}

/-- A tree is stored just when its bytes can be written. -/
theorem save_eq_ok_iff :
    tree.save name files = (.ok (), written) ↔
      files.write name tree.encode = .ok written := by
  rw [save, Job.adapt_eq_ok_iff, Job.bind_eq_ok_iff]
  simp only [Job.write_eq_ok_iff]
  constructor
  · rintro ⟨_, emptied, hempty, hfill⟩
    rwa [Files.write_write hempty] at hfill
  · intro h
    obtain ⟨_, _, _, _, _, _, hwrite⟩ := Files.write_eq_ok h
    refine ⟨(), _, hwrite [], ?_⟩
    rwa [Files.write_write (hwrite [])]

end Tree

end Starfield
