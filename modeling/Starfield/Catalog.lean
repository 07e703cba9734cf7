import Starfield.Bytes
import Starfield.Rows

/-!
# Star catalogues

A catalogue is a file that begins with the width of its stars and goes on with
their values, star after star, until it ends.  It is read piece by piece: each
read may be interrupted or may return less than was asked for.  The main
statement is that a fill gets exactly the bytes that stand first, however the
reads are cut.
-/

namespace Starfield

/-- How one read of a source goes: it is interrupted, or it returns at most so
many bytes, but at least one unless the source has ended. -/
inductive Turn where
  | interrupted
  | upTo (most : Nat)
deriving DecidableEq

/-- The bytes that are still to be read, and how the next reads go.  Later
reads return all they are asked for. -/
structure Source where
  bytes : Bytes
  turns : List Turn := []

namespace Source

def fillFrom (bytes : Bytes) (need : Nat) : List Turn → Bytes × Source
  | [] => (bytes.take need, ⟨bytes.drop need, []⟩)
  | turn :: turns =>
    if need = 0 then ([], ⟨bytes, turn :: turns⟩)
    else
      match turn with
      | .interrupted => fillFrom bytes need turns
      | .upTo most =>
        let size := min need (max most 1)
        if bytes.isEmpty then ([], ⟨bytes, turns⟩)
        else
          let (more, source) := fillFrom (bytes.drop size) (need - size) turns
          (bytes.take size ++ more, source)

/-- Read until `need` bytes are there or the source has ended. -/
def fill (need : Nat) (source : Source) : Bytes × Source :=
  fillFrom source.bytes need source.turns

private theorem fillFrom_eq (bytes : Bytes) (need : Nat) (turns : List Turn) :
    (fillFrom bytes need turns).1 = bytes.take need ∧
      (fillFrom bytes need turns).2.bytes = bytes.drop need := by
  induction turns generalizing bytes need with
  | nil => simp [fillFrom]
  | cons turn turns ih =>
    unfold fillFrom
    split
    · simp_all
    · cases turn with
      | interrupted => exact ih bytes need
      | upTo most =>
        dsimp only
        split
        · simp_all
        · obtain ⟨h1, h2⟩ := ih (bytes.drop (min need (max most 1)))
            (need - min need (max most 1))
          have hsize : min need (max most 1) ≤ need := Nat.min_le_left _ _
          simp only [h1, h2, List.drop_drop]
          constructor
          · rw [← List.take_add]
            congr 1
            omega
          · congr 1
            omega

/-- A fill gets the bytes that stand first. -/
@[simp]
theorem fill_fst (need : Nat) (source : Source) :
    (source.fill need).1 = source.bytes.take need :=
  (fillFrom_eq _ _ _).1

/-- A fill leaves the bytes after them. -/
@[simp]
theorem bytes_fill_snd (need : Nat) (source : Source) :
    (source.fill need).2.bytes = source.bytes.drop need :=
  (fillFrom_eq _ _ _).2

end Source

inductive CatalogFault where
  /-- The file is shorter than a header. -/
  | noHeader
  /-- The header states a width that leaves no room for a position. -/
  | width (stated : Int)
  /-- The header states another width than the layout has. -/
  | foreign (stated : Int) (expected : Nat)
  /-- The file ends inside a star. -/
  | cut (found expected : Nat)
deriving DecidableEq

/-- A catalogue whose header has been read. -/
structure Catalog where
  width : Nat
  source : Source

namespace Catalog

def start (expected : Nat) (source : Source) : Except CatalogFault Catalog :=
  let (header, source) := source.fill 4
  if header.length < 4 then .error .noHeader
  else
    let stated := signed (wordOf header)
    if stated < 3 then .error (.width stated)
    else if stated ≠ expected then .error (.foreign stated expected)
    else .ok ⟨expected, source⟩

def starOf (width : Nat) (bytes : Bytes) : Star :=
  (rows 4 width bytes).map fun word => ⟨wordOf word⟩

/-- Read the stars up to the end of the file after those read before, and tell
whether the file ends inside a star. -/
def starsAfter (before : Array Star) (catalog : Catalog) : Array Star × Option CatalogFault :=
  let size := 4 * catalog.width
  let filled := catalog.source.fill size
  if filled.1.isEmpty then (before, none)
  else if filled.1.length < size then (before, some (.cut filled.1.length size))
  else starsAfter (before.push (starOf catalog.width filled.1)) ⟨catalog.width, filled.2⟩
termination_by catalog.source.bytes.length
decreasing_by
  rename_i hsome _
  simp only [filled, Source.fill_fst, List.isEmpty_iff, List.take_eq_nil_iff, not_or] at hsome
  simp only [Source.bytes_fill_snd, List.length_drop]
  have := List.length_pos_iff.2 hsome.2
  omega

/-- Read the stars up to the end of the file, and tell whether the file ends
inside a star. -/
def stars (catalog : Catalog) : List Star × Option CatalogFault :=
  let (stars, fault) := starsAfter #[] catalog
  (stars.toList, fault)

end Catalog

end Starfield
