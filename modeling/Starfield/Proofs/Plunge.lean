import Starfield.Proofs.Flat.Growth

/-!
# Inserting without looking ahead

This is what insertion comes to when nobody has found out before whether there is
room.  A star goes down to a leaf.  A full leaf becomes an inner node with eight
empty leaves below it, its stars are inserted there one by one, each in the same
way, and the star follows them.  Nothing stops this: a leaf may be split at any
depth, for a star that is handed down as well as for the new one, and where all
stars go the same way it never ends.  So only so many calls are followed one
inside the other, and every split is recorded, also when that is not enough.
-/

namespace Starfield

/-- The split of a leaf: where it is, and whether it is done for a star that is
handed down from another leaf being split. -/
structure Split where
  place : Place
  handed : Bool
deriving DecidableEq

/-- What has been found out about a computation: the splits on its way, in order,
and its result, if it has come to an end. -/
structure Course (α : Type) where
  splits : List Split
  result : Option α

namespace Course

variable {α β σ : Type}

def unknown : Course α := ⟨[], none⟩

def split (place : Place) (handed : Bool) : Course Unit :=
  ⟨[⟨place, handed⟩], some ()⟩

instance : Monad Course where
  pure a := ⟨[], some a⟩
  bind course next :=
    match course.result with
    | none => ⟨course.splits, none⟩
    | some a => ⟨course.splits ++ (next a).splits, (next a).result⟩

theorem ended_bind (splits : List Split) (a : α) (next : α → Course β) :
    ((⟨splits, some a⟩ : Course α) >>= next) =
      ⟨splits ++ (next a).splits, (next a).result⟩ := rfl

/-- The second course is known further than the first one.  When that has come
to an end, nothing is left to be known. -/
structure Below (course further : Course α) : Prop where
  splits : course.splits <+: further.splits
  ended : ∀ a, course.result = some a → further = course

theorem Below.refl (course : Course α) : course.Below course :=
  ⟨List.prefix_rfl, fun _ _ => rfl⟩

theorem Below.trans {course further furthest : Course α}
    (h : course.Below further) (h' : further.Below furthest) :
    course.Below furthest where
  splits := h.splits.trans h'.splits
  ended := by
    intro a ha
    have hsame := h.ended a ha
    rw [← hsame]
    exact h'.ended a (hsame ▸ ha)

theorem Below.bind {course further : Course α} {next next' : α → Course β}
    (h : course.Below further) (hnext : ∀ a, (next a).Below (next' a)) :
    (course >>= next).Below (further >>= next') := by
  obtain ⟨splits, _ | a⟩ := course
  · refine ⟨h.splits.trans ?_, fun _ h => nomatch h⟩
    obtain ⟨splits', _ | a⟩ := further
    · exact List.prefix_rfl
    · exact List.prefix_append _ _
  · obtain rfl := h.ended a rfl
    rw [ended_bind, ended_bind]
    refine ⟨(List.prefix_append_right_inj _).mpr (hnext a).splits,
      fun b hb => ?_⟩
    rw [(hnext a).ended b hb]

theorem Below.foldlM {step step' : σ → α → Course σ}
    (h : ∀ s a, (step s a).Below (step' s a)) (xs : List α) (s : σ) :
    (xs.foldlM step s).Below (xs.foldlM step' s) := by
  induction xs generalizing s with
  | nil => exact .refl _
  | cons x xs ih => exact (h s x).bind fun next => ih next

end Course

namespace Node

section

variable (settings : Settings) (layout : Layout)

/-- The family with one more star, which `insert` gives to the member that it
belongs to. -/
def handDown (insert : Place → Node → Star → Course Node) (place : Place)
    (children : Octant → Node) (star : Star) : Course (Octant → Node) := do
  let target := place.cube.octantOf star.point
  let child ← insert (place.child target) (children target) star
  return replace children target child

/-- The subtree with one more star, as far as it is known after following
`levels` calls one inside the other.  The flag tells whether the star is handed
down from a leaf that is being split. -/
def plunge : (levels : Nat) → (handed : Bool) → Place → Node → Star →
    Course Node
  | 0, _, _, _, _ => .unknown
  | levels + 1, handed, place, leaf cell, star =>
    if cell.count < settings.starsPerCell then
      return leaf (cell.joined star)
    else do
      Course.split place handed
      let children ← cell.stars.toList.foldlM
        (handDown (plunge levels true) place) fun _ => leaf {}
      let children ← handDown (plunge levels handed) place children star
      return inner
        ((cell.subdivided settings layout place).passed settings star place)
        children
  | levels + 1, handed, place, inner cell children, star => do
    let children ← handDown (plunge levels handed) place children star
    return inner (cell.passed settings star place) children

end

variable {settings : Settings} {layout : Layout} {star : Star} {place : Place}
  {cell : Cell} {node next : Node} {growth : Growth} {handed : Bool}

end Node

end Starfield
