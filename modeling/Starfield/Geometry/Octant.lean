/-!
# Octants

A cube is split into eight octants by the three planes through its centre.  An
octant is told by the sides of these planes it lies on, and a family of eight
things, one for each octant, is a function.  The families that programs build
are backed by eight evaluated fields, and the operations below go through the
octants in the order of their numbers.
-/

namespace Starfield

/-- One of the eight parts of a cube: for each axis, whether the part lies
below the centre. -/
structure Octant where
  x : Bool
  y : Bool
  z : Bool
deriving DecidableEq, Inhabited

namespace Octant

/-- The number of an octant has one bit for each axis, lowest for `x`. -/
def index (o : Octant) : Nat :=
  o.x.toNat + 2 * o.y.toNat + 4 * o.z.toNat

/-- The octant with the given number; only the three lowest bits count. -/
def ofIndex (n : Nat) : Octant :=
  ⟨n.testBit 0, n.testBit 1, n.testBit 2⟩

def all : List Octant :=
  (List.range 8).map ofIndex

theorem mem_all (o : Octant) : o ∈ all := by
  obtain ⟨_ | _, _ | _, _ | _⟩ := o <;> decide

@[simp]
theorem length_all : all.length = 8 := rfl

end Octant

structure Octet (α : Type) where
  c0 : α
  c1 : α
  c2 : α
  c3 : α
  c4 : α
  c5 : α
  c6 : α
  c7 : α

namespace Octet

variable {α β σ ε : Type}

@[noinline]
def get (cs : Octet α) : Octant → α
  | ⟨false, false, false⟩ => cs.c0
  | ⟨true, false, false⟩ => cs.c1
  | ⟨false, true, false⟩ => cs.c2
  | ⟨true, true, false⟩ => cs.c3
  | ⟨false, false, true⟩ => cs.c4
  | ⟨true, false, true⟩ => cs.c5
  | ⟨false, true, true⟩ => cs.c6
  | ⟨true, true, true⟩ => cs.c7

def ofFamily (f : Octant → α) : Octet α :=
  ⟨f (.ofIndex 0), f (.ofIndex 1), f (.ofIndex 2), f (.ofIndex 3),
    f (.ofIndex 4), f (.ofIndex 5), f (.ofIndex 6), f (.ofIndex 7)⟩

@[simp]
theorem get_ofFamily (f : Octant → α) : (ofFamily f).get = f := by
  funext o
  obtain ⟨_ | _, _ | _, _ | _⟩ := o <;> rfl

/-- Give each octant in turn the current state and keep what it makes of it. -/
def thread (f : Octant → σ → β × σ) (s : σ) : Octet β × σ :=
  let (c0, s) := f (.ofIndex 0) s
  let (c1, s) := f (.ofIndex 1) s
  let (c2, s) := f (.ofIndex 2) s
  let (c3, s) := f (.ofIndex 3) s
  let (c4, s) := f (.ofIndex 4) s
  let (c5, s) := f (.ofIndex 5) s
  let (c6, s) := f (.ofIndex 6) s
  let (c7, s) := f (.ofIndex 7) s
  (⟨c0, c1, c2, c3, c4, c5, c6, c7⟩, s)

/-- The same with steps that may fail; the first failure ends the run. -/
def thread? (f : Octant → σ → Except ε (β × σ)) (s : σ) : Except ε (Octet β × σ) := do
  let (c0, s) ← f (.ofIndex 0) s
  let (c1, s) ← f (.ofIndex 1) s
  let (c2, s) ← f (.ofIndex 2) s
  let (c3, s) ← f (.ofIndex 3) s
  let (c4, s) ← f (.ofIndex 4) s
  let (c5, s) ← f (.ofIndex 5) s
  let (c6, s) ← f (.ofIndex 6) s
  let (c7, s) ← f (.ofIndex 7) s
  return (⟨c0, c1, c2, c3, c4, c5, c6, c7⟩, s)

end Octet

end Starfield
