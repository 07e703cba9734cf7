import Starfield.Bytes
import Starfield.Fault

/-!
# Files

The files that a job works on, as a value.  A name is followed part by part
from the directory that the job works in, or from the root when it begins with
a slash, and every part but the last must lead to a directory.  A directory is
there when it is listed or when a file below it is; the root, the directory
that the job works in and those above it always are.  The main statement is
that a file that was written is read back.
-/

namespace Starfield

/-- A place in the tree of directories: the names that lead to it, the last one
first.  They start in the working directory, or in the root when the first of
them is a slash; steps up from the working directory come before all others. -/
abbrev Location := List String

namespace Location

/-- The directory that a location lies in.  The root lies in itself. -/
def parent : Location → Location
  | [] => [".."]
  | name :: rest =>
    if name = "/" then name :: rest
    else if name = ".." then ".." :: name :: rest
    else rest

/-- Where a part of a name leads from a directory. -/
def step (location : Location) (part : String) : Location :=
  if part = "." then location
  else if part = ".." then location.parent
  else part :: location

end Location

inductive FileEntry where
  | file (bytes : Bytes)
  | directory

structure Files where
  entries : List (Location × Bytes) := []
  /-- Directories that are there although no file below them is known. -/
  directories : List Location := []
deriving Inhabited

namespace Files

def longestPart : Nat := 255

def longestName : Nat := 4095

/-- The parts of a name; slashes in a row count as one. -/
def parts (name : String) : List String :=
  (name.splitOn "/").filter fun part => part ≠ ""

def origin (name : String) : Location :=
  if name.startsWith "/" then ["/"] else []

/-- The locations that a name leads through, with the one it leads to at the
end. -/
def trail (name : String) : List Location :=
  go (origin name) (parts name)
where
  go (location : Location) : List String → List Location
    | [] => []
    | part :: rest => location.step part :: go (location.step part) rest

def locate (name : String) : Location :=
  (parts name).foldl Location.step (origin name)

def isDirectory (files : Files) (location : Location) : Bool :=
  location.all (· = "..") || location = ["/"] || files.directories.contains location ||
    files.entries.any fun entry => location.isSuffixOf entry.1 && entry.1 ≠ location

def find (files : Files) (location : Location) : Except StreamFault FileEntry :=
  match files.entries.lookup location with
  | some bytes => .ok (.file bytes)
  | none => if files.isDirectory location then .ok .directory else .error .notFound

def look (files : Files) (location : Location) (part : String) : Except StreamFault FileEntry :=
  if longestPart < part.utf8ByteSize then .error .nameTooLong
  else files.find (location.step part)

def enter (files : Files) (location : Location) (part : String) : Except StreamFault Location :=
  match files.look location part with
  | .ok .directory => .ok (location.step part)
  | .ok (.file _) => .error .notDirectory
  | .error fault => .error fault

/-- Follow a name up to its last part.  The result is the directory reached and
the last part, which is a point when the name has no parts. -/
def follow (files : Files) (name : String) : Except StreamFault (Location × String) :=
  if name.contains '\x00' then .error .nulInName
  else if name = "" then .error .notFound
  else if longestName < name.utf8ByteSize then .error .nameTooLong
  else
    ((parts name).dropLast.foldlM files.enter (origin name)).map fun location =>
      (location, (parts name).getLastD ".")

/-- What a name stands for.  A name that ends in a slash can only mean a
directory. -/
def lookUp (files : Files) (name : String) : Except StreamFault FileEntry :=
  match files.follow name with
  | .error fault => .error fault
  | .ok (location, part) =>
    match files.look location part with
    | .ok (.file bytes) =>
      if name.endsWith "/" then .error .notDirectory else .ok (.file bytes)
    | found => found

def read (files : Files) (name : String) : Except StreamFault Bytes :=
  match files.lookUp name with
  | .ok (.file bytes) => .ok bytes
  | .ok .directory => .error .isDirectory
  | .error fault => .error fault

def put (files : Files) (location : Location) (bytes : Bytes) : Files :=
  { files with
    entries := (location, bytes) :: files.entries.filter fun entry => entry.1 ≠ location }

def write (files : Files) (name : String) (bytes : Bytes) : Except StreamFault Files :=
  match files.follow name with
  | .error fault => .error fault
  | .ok (location, part) =>
    if name.endsWith "/" then .error .isDirectory
    else
      match files.look location part with
      | .ok .directory => .error .isDirectory
      | .ok (.file _) | .error .notFound => .ok (files.put (location.step part) bytes)
      | .error fault => .error fault

private theorem lookup_filter_ne {entries : List (Location × Bytes)} {location other : Location}
    (h : other ≠ location) :
    (entries.filter fun entry => entry.1 ≠ location).lookup other = entries.lookup other := by
  induction entries with
  | nil => rfl
  | cons entry rest ih =>
    obtain ⟨place, bytes⟩ := entry
    by_cases hplace : place = location
    · subst hplace
      have hother : (other == place) = false := by simpa using h
      simp [List.lookup_cons, hother, ← ih]
    · simp only [List.filter_cons, hplace, ne_eq, not_false_eq_true, decide_true, if_true,
        List.lookup_cons, ih]

/-- What was put at a location is found there. -/
@[simp]
theorem find_put_self (files : Files) (location : Location) (bytes : Bytes) :
    (files.put location bytes).find location = .ok (.file bytes) := by
  simp [find, put]

/-- A directory stays a directory when a file is put somewhere. -/
theorem isDirectory_put {files : Files} {place : Location} (location : Location) (bytes : Bytes)
    (h : files.isDirectory place = true) : (files.put location bytes).isDirectory place = true := by
  simp only [isDirectory, put, Bool.or_eq_true, List.any_cons, List.any_eq_true] at h ⊢
  rcases h with h | ⟨entry, hmem, hentry⟩
  · exact .inl h
  · by_cases heq : entry.1 = location
    · exact .inr (.inl (heq ▸ hentry))
    · exact .inr (.inr ⟨entry, List.mem_filter.2 ⟨hmem, by simpa using heq⟩, hentry⟩)

/-- A directory is still found when a file is put at another location. -/
theorem find_put_directory {files : Files} {place location : Location} (bytes : Bytes)
    (hne : place ≠ location) (h : files.find place = .ok .directory) :
    (files.put location bytes).find place = .ok .directory := by
  have hbeq : (place == location) = false := by simpa using hne
  cases hlookup : files.entries.lookup place with
  | some found => simp [find, hlookup] at h
  | none =>
    cases hdirectory : files.isDirectory place with
    | false => simp [find, hlookup, hdirectory] at h
    | true =>
      have hput : (files.put location bytes).entries.lookup place = none := by
        simp only [put, List.lookup_cons, hbeq]
        rw [lookup_filter_ne hne, hlookup]
      simp [find, hput, isDirectory_put location bytes hdirectory]

theorem enter_eq_ok_iff {files : Files} {start reached : Location} {part : String} :
    files.enter start part = .ok reached ↔
      files.look start part = .ok .directory ∧ reached = start.step part := by
  cases hlook : files.look start part with
  | error fault => simp [enter, hlook]
  | ok entry => cases entry <;> simp [enter, hlook, eq_comm]

/-- A way through directories stays one when a file is put where there is no
directory. -/
theorem foldlM_enter_put {files : Files} {location : Location} (bytes : Bytes)
    (hfree : files.find location ≠ .ok .directory) (way : List String) (start : Location) {reached}
    (h : way.foldlM files.enter start = .ok reached) :
    way.foldlM (files.put location bytes).enter start = .ok reached := by
  induction way generalizing start with
  | nil => exact h
  | cons part way ih =>
    rw [List.foldlM_cons] at h ⊢
    cases hstep : files.enter start part with
    | error fault => rw [hstep] at h; cases h
    | ok next =>
      rw [hstep] at h
      obtain ⟨hlook, rfl⟩ := enter_eq_ok_iff.1 hstep
      have hput : (files.put location bytes).enter start part = .ok (start.step part) := by
        refine enter_eq_ok_iff.2 ⟨?_, rfl⟩
        unfold look at hlook ⊢
        split at hlook
        · cases hlook
        · rw [if_neg ‹_›]
          refine find_put_directory bytes ?_ hlook
          rintro rfl
          exact hfree hlook
      rw [hput]
      exact ih _ h

/-- A name leads the same way when a file is put where there is no directory. -/
theorem follow_put {files : Files} {location : Location} (bytes : Bytes) {name : String} {reached}
    (hfree : files.find location ≠ .ok .directory) (h : files.follow name = .ok reached) :
    (files.put location bytes).follow name = .ok reached := by
  unfold follow at h ⊢
  split at h
  · cases h
  · split at h
    · cases h
    · split at h
      · cases h
      · rw [if_neg ‹_›, if_neg ‹_›, if_neg ‹_›]
        cases hway : (parts name).dropLast.foldlM files.enter (origin name) with
        | error fault => rw [hway] at h; cases h
        | ok place =>
          rw [hway] at h
          rw [foldlM_enter_put bytes hfree _ _ hway]
          exact h

/-- A file is written where its name leads to, and there is no directory.  What
is written there makes no difference. -/
theorem write_eq_ok {files written : Files} {name : String} {bytes : Bytes}
    (h : files.write name bytes = .ok written) :
    ∃ location part, files.follow name = .ok (location, part) ∧
      name.endsWith "/" = false ∧ part.utf8ByteSize ≤ longestPart ∧
      files.find (location.step part) ≠ .ok .directory ∧
      ∀ content, files.write name content = .ok (files.put (location.step part) content) := by
  unfold write at h ⊢
  cases hfollow : files.follow name with
  | error fault => simp [hfollow] at h
  | ok reached =>
    obtain ⟨location, part⟩ := reached
    by_cases hslash : name.endsWith "/" = true
    · simp [hfollow, hslash] at h
    · by_cases hlong : longestPart < part.utf8ByteSize
      · simp [hfollow, hslash, look, hlong] at h
      · refine ⟨location, part, rfl, Bool.eq_false_iff.2 hslash, Nat.le_of_not_lt hlong, ?_, ?_⟩
        · intro hdirectory
          simp [hfollow, hslash, look, hlong, hdirectory] at h
        · intro content
          simp only [hfollow, hslash, look, if_neg hlong] at h ⊢
          cases hfind : files.find (location.step part) with
          | error fault => cases fault <;> simp_all
          | ok entry => cases entry <;> simp_all

/-- Of what is put at a location only the last bytes stay. -/
@[simp]
theorem put_put (files : Files) (location : Location) (bytes content : Bytes) :
    (files.put location bytes).put location content = files.put location content := by
  simp [put, List.filter_filter]

/-- A file that was written can be written again, and only the last bytes stay. -/
theorem write_write {files written : Files} {name : String} {bytes : Bytes}
    (h : files.write name bytes = .ok written) (content : Bytes) :
    written.write name content = files.write name content := by
  obtain ⟨location, part, hfollow, hslash, hlong, hfree, hput⟩ := write_eq_ok h
  cases h.symm.trans (hput bytes)
  rw [hput content, write, follow_put bytes hfree hfollow]
  simp [hslash, look, Nat.not_lt_of_le hlong]

/-- A file that was written is read back. -/
theorem read_write {files written : Files} {name : String} {bytes : Bytes}
    (h : files.write name bytes = .ok written) : written.read name = .ok bytes := by
  obtain ⟨location, part, hfollow, hslash, hlong, hfree, hput⟩ := write_eq_ok h
  cases h.symm.trans (hput bytes)
  simp [read, lookUp, follow_put bytes hfree hfollow, look, Nat.not_lt_of_le hlong, hslash]

/-- A file is still found when another one is put somewhere else. -/
theorem find_put_file {files : Files} {place location : Location} {found : Bytes} (bytes : Bytes)
    (hne : place ≠ location) (h : files.find place = .ok (.file found)) :
    (files.put location bytes).find place = .ok (.file found) := by
  have hbeq : (place == location) = false := by simpa using hne
  cases hlookup : files.entries.lookup place with
  | some stored =>
    have hput : (files.put location bytes).entries.lookup place = some stored := by
      simp only [put, List.lookup_cons, hbeq]
      rw [lookup_filter_ne hne, hlookup]
    simp only [find, hlookup] at h
    simp only [find, hput, h]
  | none =>
    simp only [find, hlookup] at h
    split at h <;> cases h

/-- Following parts into directories leads where the steps lead. -/
theorem eq_foldl_of_foldlM_enter {files : Files} {way : List String} {start reached : Location}
    (h : way.foldlM files.enter start = .ok reached) : reached = way.foldl Location.step start := by
  induction way generalizing start with
  | nil =>
    cases h
    rfl
  | cons part way ih =>
    rw [List.foldlM_cons] at h
    cases hstep : files.enter start part with
    | error fault => rw [hstep] at h; cases h
    | ok next =>
      rw [hstep] at h
      obtain ⟨_, rfl⟩ := enter_eq_ok_iff.1 hstep
      exact ih h

/-- The last step of a way is the one to its last part, and a step to a point
when there are no parts. -/
theorem step_getLastD (way : List String) (start : Location) :
    (way.dropLast.foldl Location.step start).step (way.getLastD ".") =
      way.foldl Location.step start := by
  rcases way.eq_nil_or_concat with rfl | ⟨before, part, rfl⟩
  · rfl
  · simp [List.getLastD_eq_getLast?]

/-- Following a name up to its last part and then taking this part leads to
where the name leads. -/
theorem step_of_follow {files : Files} {name : String} {location : Location} {part : String}
    (h : files.follow name = .ok (location, part)) : location.step part = locate name := by
  unfold follow at h
  split at h
  · cases h
  · split at h
    · cases h
    · split at h
      · cases h
      · cases hway : (parts name).dropLast.foldlM files.enter (origin name) with
        | error fault => rw [hway] at h; cases h
        | ok reached =>
          rw [hway] at h
          cases h
          rw [eq_foldl_of_foldlM_enter hway, step_getLastD, locate]

/-- What a name leads to is read as before when another file was written. -/
theorem read_write_of_ne {files written : Files} {name other : String} {bytes found : Bytes}
    (h : files.write name bytes = .ok written) (hne : locate other ≠ locate name)
    (hread : files.read other = .ok found) : written.read other = .ok found := by
  obtain ⟨location, part, hfollow, -, -, hfree, hput⟩ := write_eq_ok h
  cases h.symm.trans (hput bytes)
  rw [← step_of_follow hfollow] at hne
  unfold read lookUp at hread ⊢
  cases hother : files.follow other with
  | error fault => simp [hother] at hread
  | ok reached =>
    obtain ⟨place, last⟩ := reached
    rw [← step_of_follow hother] at hne
    rw [follow_put bytes hfree hother]
    by_cases hlong : longestPart < last.utf8ByteSize
    · simp [hother, look, hlong] at hread
    · cases hfind : files.find (place.step last) with
      | error fault => simp [hother, look, hlong, hfind] at hread
      | ok entry =>
        cases entry with
        | directory => simp [hother, look, hlong, hfind] at hread
        | file stored =>
          simpa [look, hlong, find_put_file bytes hne hfind, hother, hfind] using hread

end Files

end Starfield
