import Starfield.Proofs.Catalogs

/-!
# Catalogues read in pieces

A catalogue is asked for one star after the other, and each time it reads until it
has the bytes of a star or the source has ended.  A read may be interrupted or may
return less than was asked for, inside a star, between two stars or at the end.
None of this matters: the answers are those that the bytes of the file give, one
for each whole star and then one that tells whether anything is left over.
-/

namespace Starfield

namespace Catalog

/-- What a catalogue answers when it is asked for its next star: the star, if
there is one, or that the file ends inside it. -/
abbrev Answer := Except CatalogFault (Option Star)

/-- The answer for the next star, and the catalogue behind it. -/
def next (catalog : Catalog) : Answer × Catalog :=
  let size := 4 * catalog.width
  let filled := catalog.source.fill size
  (if filled.1.isEmpty then .ok none
    else if filled.1.length < size then .error (.cut filled.1.length size)
    else .ok (some (starOf catalog.width filled.1)),
    ⟨catalog.width, filled.2⟩)

/-- The answers for so many stars, one after the other. -/
def answers (catalog : Catalog) : Nat → List Answer
  | 0 => []
  | count + 1 => catalog.next.1 :: catalog.next.2.answers count

def Answer.ending : Option CatalogFault → Answer
  | none => .ok none
  | some fault => .error fault

/-- What is wrong with the end of a file that has these bytes left over. -/
def leftover (width : Nat) (rest : Bytes) : Option CatalogFault :=
  if rest = [] then none else some (.cut rest.length (4 * width))

variable {width : Nat} {stars : List Star} {star : Star} {bytes rest : Bytes}
  {catalog : Catalog} {source : Source}

/-! ## Reading to the end asks for one star after the other -/

theorem starsAfter_of_next_some (h : catalog.next.1 = .ok (some star))
    (before : Array Star) :
    starsAfter before catalog =
      starsAfter (before.push star) catalog.next.2 := by
  simp only [next] at h
  split at h
  · cases h
  rename_i hsome
  split at h
  · cases h
  rename_i hwhole
  cases h
  rw [starsAfter, if_neg hsome, if_neg hwhole]
  rfl

theorem starsAfter_of_next_ending {fault : Option CatalogFault}
    (h : catalog.next.1 = Answer.ending fault) (before : Array Star) :
    starsAfter before catalog = (before, fault) := by
  simp only [next] at h
  rw [starsAfter]
  split at h
  · rename_i hnone
    rw [if_pos hnone]
    cases fault with
    | none => rfl
    | some fault => cases h
  rename_i hsome
  rw [if_neg hsome]
  split at h
  · rename_i hcut
    rw [if_pos hcut]
    cases fault with
    | none => cases h
    | some fault =>
        cases h
        rfl
  · cases fault <;> cases h

/-- The stars of a catalogue are those that it answers before its end. -/
theorem stars_eq_of_answers {fault : Option CatalogFault}
    (h : catalog.answers (stars.length + 1) =
      stars.map (fun star => .ok (some star)) ++ [Answer.ending fault]) :
    catalog.stars = (stars, fault) := by
  have hafter (before : Array Star) :
      starsAfter before catalog = (before ++ stars.toArray, fault) := by
    induction stars generalizing catalog before with
    | nil =>
        obtain ⟨hnext, _⟩ := List.cons.inj h
        rw [starsAfter_of_next_ending hnext, Array.append_empty]
    | cons star stars ih =>
        obtain ⟨hnext, hbehind⟩ := List.cons.inj h
        rw [starsAfter_of_next_some hnext, ih hbehind]
        simp
  rw [Catalog.stars, hafter]
  simp

/-! ## Answers are given by the bytes alone -/

theorem next_of_append (hwidth : 0 < width) (hstar : star.length = width)
    (hsource : source.bytes = valueBytes star ++ rest) :
    (next ⟨width, source⟩).1 = .ok (some star) ∧
      (source.fill (4 * width)).2.bytes = rest := by
  have hlength : (valueBytes star).length = 4 * width := by
    rw [Archive.length_valueBytes, hstar]
  have hfilled : (source.fill (4 * width)).1 = valueBytes star := by
    rw [Source.fill_fst, hsource, List.take_left' hlength]
  have hsome : (valueBytes star).isEmpty = false := by
    rw [List.isEmpty_eq_false_iff_exists_mem]
    exact List.exists_mem_of_length_pos (by omega)
  constructor
  · simp only [next, hfilled, hsome, hlength, Nat.lt_irrefl, if_false,
      Bool.false_eq_true]
    rw [← hstar, starOf_valueBytes]
  · rw [Source.bytes_fill_snd, hsource, List.drop_left' hlength]

theorem next_of_short (hrest : source.bytes.length < 4 * width) :
    (next ⟨width, source⟩).1 = Answer.ending (leftover width source.bytes) := by
  have hfilled : (source.fill (4 * width)).1 = source.bytes := by
    rw [Source.fill_fst]
    exact List.take_of_length_le (Nat.le_of_lt hrest)
  simp only [next, hfilled, List.isEmpty_iff, hrest, if_true, leftover]
  split
  · rfl
  · rfl

/-- One answer for each whole star, and then the one that the rest gives. -/
theorem answers_of_append (hwidth : 0 < width)
    (hstars : ∀ star ∈ stars, star.length = width)
    (hrest : rest.length < 4 * width)
    (hsource : source.bytes = stars.flatMap valueBytes ++ rest) :
    answers ⟨width, source⟩ (stars.length + 1) =
      stars.map (fun star => .ok (some star)) ++
        [Answer.ending (leftover width rest)] := by
  induction stars generalizing source with
  | nil =>
      obtain rfl : source.bytes = rest := hsource
      exact congrArg ([·]) (next_of_short hrest)
  | cons star stars ih =>
      rw [List.forall_mem_cons] at hstars
      rw [List.flatMap_cons, List.append_assoc] at hsource
      obtain ⟨hanswer, hbehind⟩ := next_of_append hwidth hstars.1 hsource
      exact congrArg₂ List.cons hanswer (ih hstars.2 hbehind)

/-! ## Files -/

/-- The bytes behind a header are whole stars and less than one more. -/
structure Divided (width : Nat) (bytes : Bytes) (stars : List Star)
    (rest : Bytes) : Prop where
  body : bytes.drop 4 = stars.flatMap valueBytes ++ rest
  whole : ∀ star ∈ stars, star.length = width
  number : stars.length = (bytes.length - 4) / (4 * width)
  left : rest.length = (bytes.length - 4) % (4 * width)

theorem exists_divided (hwidth : 0 < width) (bytes : Bytes) :
    ∃ stars rest, Divided width bytes stars rest := by
  obtain ⟨stars, rest, hwhole, hrest, hbytes⟩ :=
    exists_stars_append hwidth (bytes.drop 4)
  have hlength : bytes.length - 4 =
      4 * width * stars.length + rest.length := by
    have hstars : (stars.flatMap valueBytes).length =
        stars.length * (4 * width) :=
      length_flatMap_of_forall fun star hstar => by
        rw [Archive.length_valueBytes, hwhole star hstar]
    rw [← List.length_drop, hbytes, List.length_append, hstars, Nat.mul_comm]
  refine ⟨stars, rest, hbytes, hwhole, ?_, ?_⟩
  · rw [hlength, Nat.mul_add_div (by omega), Nat.div_eq_of_lt hrest,
      Nat.add_zero]
  · rw [hlength, Nat.mul_add_mod, Nat.mod_eq_of_lt hrest]

/-- Each star is read off its bytes in the file. -/
theorem Divided.stars_eq (h : Divided width bytes stars rest) :
    stars =
      (rows (4 * width) stars.length (bytes.drop 4)).map (starOf width) := by
  have hlength : ∀ star ∈ stars, (valueBytes star).length = 4 * width :=
    fun star hstar => by rw [Archive.length_valueBytes, h.whole star hstar]
  have hread : ∀ star ∈ stars, starOf width (valueBytes star) = star :=
    fun star hstar => h.whole star hstar ▸ starOf_valueBytes star
  rw [h.body, rows_flatMap_append hlength, List.map_map]
  exact (List.map_id _).symm.trans
    (List.map_congr_left fun star hstar => (hread star hstar).symm)

theorem exists_start_eq_ok_iff (hwidth : 3 ≤ width) :
    (∃ catalog, start width source = .ok catalog) ↔
      4 ≤ source.bytes.length ∧
        signed (wordOf (source.bytes.take 4)) = width := by
  have hheader : Archive.IsNumber width (source.bytes.take 4) ↔
      4 ≤ source.bytes.length ∧
        signed (wordOf (source.bytes.take 4)) = width := by
    constructor
    · rintro ⟨hlength, hsigned⟩
      rw [List.length_take] at hlength
      exact ⟨by omega, hsigned⟩
    · rintro ⟨hlength, hsigned⟩
      exact ⟨List.length_take_of_le hlength, hsigned⟩
  rw [← hheader, Archive.isNumber_natCast_iff]
  simp only [start_eq_ok_iff hwidth]
  constructor
  · rintro ⟨_, hlt, hbytes, _⟩
    exact ⟨hlt, hbytes⟩
  · rintro ⟨hlt, hbytes⟩
    exact ⟨_, hlt, hbytes, rfl⟩

/-- However the reads are cut, a catalogue can be started just when the file has a
header with the expected width, and then its answers are the whole stars of the
file, in their order and with the bits they have there, and after them whether
bytes are left over and how many. -/
theorem answers_of_pieces (hwidth : 3 ≤ width) (bytes : Bytes) :
    ∃ stars rest, Divided width bytes stars rest ∧
      ∀ turns : List Turn,
        ((∃ catalog, start width ⟨bytes, turns⟩ = .ok catalog) ↔
          4 ≤ bytes.length ∧ signed (wordOf (bytes.take 4)) = width) ∧
        ∀ catalog, start width ⟨bytes, turns⟩ = .ok catalog →
          catalog.answers (stars.length + 1) =
              stars.map (fun star => .ok (some star)) ++
                [Answer.ending (leftover width rest)] ∧
            catalog.stars = (stars, leftover width rest) := by
  have hpos : 0 < width := by omega
  obtain ⟨stars, rest, hdivided⟩ := exists_divided hpos bytes
  refine ⟨stars, rest, hdivided, fun turns =>
    ⟨exists_start_eq_ok_iff hwidth, fun catalog hstart => ?_⟩⟩
  obtain ⟨_, _, rfl⟩ := (start_eq_ok_iff hwidth).mp hstart
  have hrest : rest.length < 4 * width := by
    rw [hdivided.left]
    exact Nat.mod_lt _ (by omega)
  have hbody : (Source.fill 4 ⟨bytes, turns⟩).2.bytes =
      stars.flatMap valueBytes ++ rest := by
    rw [Source.bytes_fill_snd]
    exact hdivided.body
  have hanswers := answers_of_append hpos hdivided.whole hrest hbody
  exact ⟨hanswers, stars_eq_of_answers hanswers⟩

/-- A star of three values and half a value of the next one. -/
def shortFile : Bytes :=
  [3, 0, 0, 0] ++ [0, 0, 128, 63, 0, 0, 0, 192, 52, 18, 192, 127] ++ [1, 2]

/-- The header, the star and what is left over are read in several pieces each. -/
theorem answers_of_pieces_shortFile :
    ∃ catalog,
      start 3 ⟨shortFile, [.upTo 1, .interrupted, .upTo 3, .upTo 5,
        .interrupted, .interrupted, .upTo 7, .interrupted, .upTo 1]⟩ =
        .ok catalog ∧
      catalog.answers 2 =
        [.ok (some [⟨0x3f800000⟩, ⟨0xc0000000⟩, ⟨0x7fc01234⟩]),
          .error (.cut 2 12)] := by
  obtain ⟨stars, rest, hdivided, hreads⟩ :=
    answers_of_pieces (by decide : 3 ≤ 3) shortFile
  obtain ⟨hstarts, hanswers⟩ := hreads [.upTo 1, .interrupted, .upTo 3, .upTo 5,
    .interrupted, .interrupted, .upTo 7, .interrupted, .upTo 1]
  obtain ⟨catalog, hstart⟩ := hstarts.mpr (by decide)
  have hnumber : stars.length = 1 := hdivided.number
  have hstars : stars = [[⟨0x3f800000⟩, ⟨0xc0000000⟩, ⟨0x7fc01234⟩]] := by
    rw [hdivided.stars_eq, hnumber]
    decide
  have hleft : rest.length = 2 := hdivided.left
  have hrest : rest ≠ [] := by
    rintro rfl
    cases hleft
  have hall := (hanswers catalog hstart).1
  rw [hstars, leftover, if_neg hrest, hleft] at hall
  exact ⟨catalog, hstart, hall⟩

end Catalog

end Starfield
