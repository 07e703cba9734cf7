import Starfield.Catalog
import Starfield.Proofs.Archive.Grammar

/-!
# What catalogues say

A catalogue is its header, followed by the values of its stars and nothing else.
This file says so without any reader, and proves that reading comes to the end
just for such bytes: it gives the stars that the bytes list, in their order,
however the reads are cut.
-/

namespace Starfield

namespace Catalog

variable {width : Nat} {stars : List Star} {bytes rest : Bytes}

/-- The bytes are a header for stars of the given width, followed by the stars. -/
structure Lists (width : Nat) (stars : List Star) (bytes : Bytes) : Prop where
  width_lt : width < 2 ^ 31
  whole : ∀ star ∈ stars, star.length = width
  bytes : bytes = wordBytes width.toUInt32 ++ stars.flatMap valueBytes

/-! ## Stars -/

theorem starOf_valueBytes (star : Star) :
    starOf star.length (valueBytes star) = star := by
  have hvalues : ∀ value ∈ star, (wordBytes value.bits).length = 4 :=
    fun value _ => length_wordBytes value.bits
  have hrows := rows_flatMap_append hvalues []
  rw [List.append_nil] at hrows
  rw [starOf, valueBytes, hrows, List.map_map]
  simp [Function.comp_def]

/-- The stars that stand first are read, and what follows them, if it is
shorter than a star, is not read as one. -/
theorem starsAfter_eq (hwidth : 0 < width)
    (hstars : ∀ star ∈ stars, star.length = width)
    (hrest : rest.length < 4 * width) {source : Source}
    (hsource : source.bytes = stars.flatMap valueBytes ++ rest)
    (before : Array Star) :
    starsAfter before ⟨width, source⟩ =
      (before ++ stars.toArray,
        if rest = [] then none else some (.cut rest.length (4 * width))) := by
  induction stars generalizing before source with
  | nil =>
      have hfilled : (source.fill (4 * width)).1 = rest := by
        rw [Source.fill_fst, hsource]
        exact List.take_of_length_le (Nat.le_of_lt hrest)
      rw [starsAfter]
      simp only [hfilled, List.isEmpty_iff, hrest, if_true]
      split <;> simp
  | cons star stars ih =>
      rw [List.forall_mem_cons] at hstars
      have hlength : (valueBytes star).length = 4 * width := by
        rw [Archive.length_valueBytes, hstars.1]
      have hsource' : source.bytes =
          valueBytes star ++ (stars.flatMap valueBytes ++ rest) := by
        rw [hsource, List.flatMap_cons, List.append_assoc]
      have hfilled : (source.fill (4 * width)).1 = valueBytes star := by
        rw [Source.fill_fst, hsource', List.take_left' hlength]
      have hleft : (source.fill (4 * width)).2.bytes =
          stars.flatMap valueBytes ++ rest := by
        rw [Source.bytes_fill_snd, hsource', List.drop_left' hlength]
      have hsome : (valueBytes star).isEmpty = false := by
        rw [List.isEmpty_eq_false_iff_exists_mem.mpr]
        exact List.exists_mem_of_length_pos (by omega)
      rw [starsAfter]
      simp only [hfilled, hsome, hlength, Nat.lt_irrefl, if_false,
        Bool.false_eq_true]
      rw [ih hstars.2 hleft, ← hstars.1, starOf_valueBytes]
      simp

/-- All bytes are stars, followed by less than one. -/
theorem exists_stars_append (hwidth : 0 < width) (bytes : Bytes) :
    ∃ (stars : List Star) (rest : Bytes),
      (∀ star ∈ stars, star.length = width) ∧ rest.length < 4 * width ∧
        bytes = stars.flatMap valueBytes ++ rest := by
  by_cases hshort : bytes.length < 4 * width
  · exact ⟨[], bytes, nofun, hshort, rfl⟩
  · have hfirst : (bytes.take (4 * width)).length = 4 * width :=
      List.length_take_of_le (Nat.le_of_not_lt hshort)
    obtain ⟨star, hstar, hbytes⟩ := Archive.exists_valueBytes hfirst
    obtain ⟨stars, rest, hstars, hrest, hleft⟩ :=
      exists_stars_append hwidth (bytes.drop (4 * width))
    refine ⟨star :: stars, rest, List.forall_mem_cons.mpr ⟨hstar, hstars⟩,
      hrest, ?_⟩
    rw [List.flatMap_cons, List.append_assoc, ← hleft, ← hbytes,
      List.take_append_drop]
termination_by bytes.length
decreasing_by
  rw [List.length_drop]
  omega

/-! ## Headers -/

theorem start_eq_ok_iff (hwidth : 3 ≤ width) {source : Source}
    {catalog : Catalog} :
    start width source = .ok catalog ↔
      width < 2 ^ 31 ∧ source.bytes.take 4 = wordBytes width.toUInt32 ∧
        catalog = ⟨width, (source.fill 4).2⟩ := by
  simp only [start, Source.fill_fst]
  split
  · rename_i hshort
    refine ⟨nofun, ?_⟩
    rintro ⟨_, hheader, _⟩
    rw [hheader, length_wordBytes] at hshort
    exact absurd hshort (Nat.lt_irrefl 4)
  rename_i hlong
  have hfour : (source.bytes.take 4).length = 4 := by
    rw [List.length_take] at hlong ⊢
    omega
  have hstated : signed (wordOf (source.bytes.take 4)) = width ↔
      width < 2 ^ 31 ∧ source.bytes.take 4 = wordBytes width.toUInt32 := by
    rw [← Archive.isNumber_natCast_iff]
    exact ⟨fun h => ⟨hfour, h⟩, Archive.IsNumber.signed⟩
  rw [← and_assoc, ← hstated]
  split
  · refine ⟨nofun, fun h => ?_⟩
    omega
  split
  · rename_i hforeign
    exact ⟨nofun, fun h => absurd h.1 hforeign⟩
  · rename_i hsame
    rw [Except.ok.injEq, eq_comm]
    exact (and_iff_right (Decidable.not_not.mp hsame)).symm

/-- A catalogue consists of a header and of stars that all take the same room. -/
theorem Lists.length_eq {stars : List Star} {bytes : Bytes}
    (h : Lists width stars bytes) :
    bytes.length = 4 + stars.length * (4 * width) := by
  have hrow : ∀ star ∈ stars, (valueBytes star).length = 4 * width :=
    fun star hstar => by rw [Archive.length_valueBytes, h.whole star hstar]
  rw [h.bytes, List.length_append, length_wordBytes,
    length_flatMap_of_forall hrow]

/-- Reading comes to the end of the bytes just when they list stars, and then it
gives these stars. -/
theorem stars_eq_iff_lists (hwidth : 3 ≤ width) {source : Source} :
    (∃ catalog, start width source = .ok catalog ∧
        catalog.stars = (stars, none)) ↔
      Lists width stars source.bytes := by
  have hpos : 0 < width := by omega
  constructor
  · rintro ⟨catalog, hstart, hstars⟩
    obtain ⟨hlt, hheader, rfl⟩ := (start_eq_ok_iff hwidth).mp hstart
    obtain ⟨listed, rest, hwhole, hrest, hbytes⟩ :=
      exists_stars_append hpos (source.fill 4).2.bytes
    rw [Catalog.stars, starsAfter_eq hpos hwhole hrest hbytes] at hstars
    obtain ⟨hlisted, hended⟩ := Prod.mk.inj hstars
    have hlast : rest = [] := by
      by_contra hne
      rw [if_neg hne] at hended
      cases hended
    have hsame : listed = stars := by simpa using hlisted
    rw [hlast, List.append_nil, Source.bytes_fill_snd, hsame] at hbytes
    refine ⟨hlt, hsame ▸ hwhole, ?_⟩
    rw [← hheader, ← hbytes, List.take_append_drop]
  · rintro ⟨hlt, hwhole, hbytes⟩
    have hheader : source.bytes.take 4 = wordBytes width.toUInt32 := by
      rw [hbytes, List.take_left' (length_wordBytes _)]
    have hleft : (source.fill 4).2.bytes = stars.flatMap valueBytes ++ [] := by
      rw [Source.bytes_fill_snd, hbytes, List.drop_left' (length_wordBytes _),
        List.append_nil]
    refine ⟨_, (start_eq_ok_iff hwidth).mpr ⟨hlt, hheader, rfl⟩, ?_⟩
    rw [Catalog.stars, starsAfter_eq hpos hwhole (by simpa using hpos) hleft]
    simp

end Catalog

end Starfield
