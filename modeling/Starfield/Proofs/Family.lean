import Mathlib.Data.List.Basic
import Starfield.Geometry.Octant

/-!
# Threading a state through a family

A family of eight is computed by giving each octant in turn the state that the
one before it left.  These lemmas prove that this is a walk along the list of
all octants, so a fact about threading follows by induction on a list.
-/

namespace Starfield

variable {α β σ ε : Type}

/-- Give each octant of a list in turn the current state and put together the
lists that they make of it. -/
def Octant.collect (f : Octant → σ → List α × σ) : List Octant → σ → List α × σ
  | [], s => ([], s)
  | o :: os, s =>
      let here := f o s
      let rest := collect f os here.2
      (here.1 ++ rest.1, rest.2)

theorem Octant.exists_of_mem_collect {f : Octant → σ → List α × σ}
    {os : List Octant} {s : σ} {x : α} (hx : x ∈ (collect f os s).1) :
    ∃ o before, x ∈ (f o before).1 := by
  induction os generalizing s with
  | nil => exact absurd hx List.not_mem_nil
  | cons o os ih =>
      rcases List.mem_append.mp hx with hhere | hrest
      · exact ⟨o, s, hhere⟩
      · exact ih hrest

/-- A run of steps succeeds only when its first step does and the rest succeeds
after it. -/
theorem ok_of_bind {result : Except ε α} {rest : α → Except ε β} {value : β}
    (h : (result >>= rest) = .ok value) :
    ∃ here, result = .ok here ∧ rest here = .ok value := by
  cases result with
  | error fault => cases h
  | ok here => exact ⟨here, rfl, h⟩

/-- A run of steps succeeds just when its first step does and the rest succeeds
after it. -/
theorem bind_eq_ok_iff {result : Except ε α} {rest : α → Except ε β}
    {value : β} :
    (result >>= rest) = .ok value ↔
      ∃ here, result = .ok here ∧ rest here = .ok value := by
  refine ⟨ok_of_bind, ?_⟩
  rintro ⟨here, rfl, hrest⟩
  exact hrest

/-- A run that has passed a check goes on behind it. -/
theorem ok_of_check {c : Prop} [Decidable c] {fault : ε}
    {refused : α → Except ε β} {passed : Except ε β} {value : β}
    (h : (if c then Except.error fault >>= refused else passed) = .ok value) :
    ¬c ∧ passed = .ok value := by
  split at h
  · cases h
  · exact ⟨‹_›, h⟩

/-- A run with a check succeeds just when the check is passed and the rest
succeeds. -/
theorem check_eq_ok_iff {c : Prop} [Decidable c] {fault : ε}
    {refused : α → Except ε β} {passed : Except ε β} {value : β} :
    (if c then Except.error fault >>= refused else passed) = .ok value ↔
      ¬c ∧ passed = .ok value := by
  refine ⟨ok_of_check, ?_⟩
  rintro ⟨hc, hpassed⟩
  rw [if_neg hc]
  exact hpassed

/-- A fault that is told otherwise is still a fault. -/
theorem mapError_eq_ok_iff {ε' : Type} {result : Except ε α} {f : ε → ε'}
    {value : α} : result.mapError f = .ok value ↔ result = .ok value := by
  cases result <;> simp [Except.mapError]

/-- A run along the list succeeds and makes the members of the family: each
octant makes its own from the state that the one before it left. -/
def Octant.Makes (f : Octant → σ → Except ε (β × σ)) (family : Octant → β) :
    List Octant → σ → σ → Prop
  | [], s, after => s = after
  | o :: os, s, after =>
      ∃ next, f o s = .ok (family o, next) ∧ Makes f family os next after

theorem Octant.Makes.exists_of_mem {f : Octant → σ → Except ε (β × σ)}
    {family : Octant → β} {os : List Octant} {s after : σ}
    (h : Makes f family os s after) {o : Octant} (ho : o ∈ os) :
    ∃ before next, f o before = .ok (family o, next) := by
  induction os generalizing s with
  | nil => exact absurd ho List.not_mem_nil
  | cons p os ih =>
      obtain ⟨next, hhere, hrest⟩ := h
      rcases List.mem_cons.mp ho with rfl | ho
      · exact ⟨s, next, hhere⟩
      · exact ih hrest ho

namespace Octet

/-- What a step gives whatever state it begins in holds of every member of a
threaded family. -/
theorem forall_get_thread {P : Octant → β → Prop} {f : Octant → σ → β × σ}
    (h : ∀ o before, P o (f o before).1) (s : σ) (o : Octant) :
    P o ((thread f s).1.get o) := by
  obtain ⟨x, y, z⟩ := o
  cases x <;> cases y <;> cases z <;> exact h _ _

/-- When what is kept at each step is translated, so is the family, and the state
is the same. -/
theorem thread_map {γ : Type} (g : Octant → β → γ) (f : Octant → σ → β × σ)
    (s : σ) :
    (thread (fun o s => (g o (f o s).1, (f o s).2)) s).1.get =
        (fun o => g o ((thread f s).1.get o)) ∧
      (thread (fun o s => (g o (f o s).1, (f o s).2)) s).2 =
        (thread f s).2 := by
  refine ⟨funext fun o => ?_, rfl⟩
  obtain ⟨x, y, z⟩ := o
  cases x <;> cases y <;> cases z <;> rfl

/-- Threading through a family is a run along the list of all octants. -/
theorem thread?_eq_ok_iff_makes {f : Octant → σ → Except ε (β × σ)}
    {s after : σ} {family : Octet β} :
    thread? f s = .ok (family, after) ↔
      Octant.Makes f family.get Octant.all s after := by
  simp only [thread?, bind_eq_ok_iff, Prod.exists]
  constructor
  · rintro ⟨_, s0, h0, _, s1, h1, _, s2, h2, _, s3, h3, _, s4, h4, _, s5, h5,
      _, s6, h6, _, s7, h7, hend⟩
    cases hend
    exact ⟨s0, h0, s1, h1, s2, h2, s3, h3, s4, h4, s5, h5, s6, h6, _, h7, rfl⟩
  · rintro ⟨s0, h0, s1, h1, s2, h2, s3, h3, s4, h4, s5, h5, s6, h6, _, h7, rfl⟩
    exact ⟨_, s0, h0, _, s1, h1, _, s2, h2, _, s3, h3, _, s4, h4, _, s5, h5,
      _, s6, h6, _, _, h7, rfl⟩

/-- When no step of a threaded family failed, every member was made by its
octant from some state. -/
theorem exists_get_thread? {f : Octant → σ → Except ε (β × σ)} {s after : σ}
    {family : Octet β} (h : thread? f s = .ok (family, after)) (o : Octant) :
    ∃ before next, f o before = .ok (family.get o, next) :=
  (thread?_eq_ok_iff_makes.mp h).exists_of_mem (Octant.mem_all o)

end Octet

end Starfield
