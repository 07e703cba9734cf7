import Mathlib.Algebra.GroupWithZero.Nat
import Starfield.Archive
import Starfield.Proofs.Family

/-!
# Words and values read from bytes

A reader takes something from the front of the bytes and returns the rest.  For
each of the small readers of archives this file says exactly when it succeeds:
when the bytes begin with what is written for its result.  Nothing else is
accepted, and what follows does not matter.
-/

namespace Starfield

/-! ## Rows -/

section

variable {α : Type}

theorem flatten_rows (width count : Nat) (values : List α) :
    (rows width count values).flatten = values.take (count * width) := by
  induction count generalizing values with
  | zero => simp
  | succ count ih =>
      rw [rows_succ, List.flatten_cons, ih, Nat.succ_mul, Nat.add_comm,
        List.take_add]

theorem length_of_mem_rows {width count : Nat} {values row : List α}
    (hvalues : count * width ≤ values.length)
    (hrow : row ∈ rows width count values) : row.length = width := by
  induction count generalizing values with
  | zero => exact absurd hrow List.not_mem_nil
  | succ count ih =>
      rw [Nat.succ_mul] at hvalues
      rw [rows_succ, List.mem_cons] at hrow
      rcases hrow with rfl | hrow
      · rw [List.length_take]
        omega
      · refine ih ?_ hrow
        rw [List.length_drop]
        omega

variable {β : Type} {f : β → List α} {width : Nat} {xs : List β}

theorem length_flatMap_of_forall (h : ∀ x ∈ xs, (f x).length = width) :
    (xs.flatMap f).length = xs.length * width := by
  induction xs with
  | nil => simp
  | cons x xs ih =>
      rw [List.forall_mem_cons] at h
      rw [List.flatMap_cons, List.length_append, h.1, ih h.2, List.length_cons,
        Nat.succ_mul, Nat.add_comm]

/-- Rows that are written one after the other are read back. -/
theorem rows_flatMap_append (h : ∀ x ∈ xs, (f x).length = width)
    (rest : List α) :
    rows width xs.length (xs.flatMap f ++ rest) = xs.map f := by
  induction xs with
  | nil => rfl
  | cons x xs ih =>
      rw [List.forall_mem_cons] at h
      rw [List.length_cons, rows_succ, List.flatMap_cons, List.append_assoc,
        List.take_left' h.1, List.drop_left' h.1, ih h.2, List.map_cons]

end

/-! ## Words -/

/-- Four bytes are those of the word that they make. -/
theorem wordBytes_wordOf {bytes : Bytes} (hbytes : bytes.length = 4) :
    wordBytes (wordOf bytes) = bytes := by
  obtain ⟨b0, b1, b2, b3, rfl⟩ : ∃ b0 b1 b2 b3, bytes = [b0, b1, b2, b3] :=
    match bytes, hbytes with
    | [b0, b1, b2, b3], _ => ⟨b0, b1, b2, b3, rfl⟩
  have h0 := b0.toNat_lt
  have h1 := b1.toNat_lt
  have h2 := b2.toNat_lt
  have h3 := b3.toNat_lt
  simp only [wordBytes, wordOf, List.foldr_cons, List.foldr_nil,
    UInt32.toNat_ofNat', List.cons.injEq, ← UInt8.toNat_inj,
    UInt8.toNat_ofNat', and_true]
  refine ⟨?_, ?_, ?_, ?_⟩ <;> omega

theorem takeWord?_eq_some_iff {bytes rest : Bytes} {word : UInt32} :
    takeWord? bytes = some (word, rest) ↔ bytes = wordBytes word ++ rest := by
  constructor
  · intro h
    rw [takeWord?.eq_def] at h
    split at h
    · rename_i b0 b1 b2 b3 rest'
      rw [Option.some.injEq, Prod.mk.injEq] at h
      obtain ⟨hword, hrest⟩ := h
      have hbytes := @wordBytes_wordOf [b0, b1, b2, b3] rfl
      rw [← hword, ← hrest, hbytes]
      rfl
    · cases h
  · rintro rfl
    exact takeWord?_wordBytes_append word rest

theorem signed_eq_ite (word : UInt32) :
    signed word =
      if 2 * word.toNat < 2 ^ 32 then (word.toNat : Int)
      else word.toNat - (2 ^ 32 : Nat) :=
  BitVec.toInt_eq_toNat_cond word.toBitVec

/-- A word read as a number with a sign is at least zero when its highest bit is
not set, and then it is the number itself. -/
theorem signed_eq_natCast_iff {word : UInt32} {n : Nat} :
    signed word = n ↔ n < 2 ^ 31 ∧ word = n.toUInt32 := by
  have hword := word.toNat_lt
  have hn : word = n.toUInt32 ↔ word.toNat = n % 2 ^ 32 := by
    rw [← UInt32.toNat_inj]
    rfl
  rw [signed_eq_ite, hn]
  omega

namespace Archive

variable {bytes rest : Bytes}

theorem takeNumber_eq_ok_iff {n : Int} :
    takeNumber bytes = .ok (n, rest) ↔
      ∃ word, signed word = n ∧ bytes = wordBytes word ++ rest := by
  rw [takeNumber]
  split
  · rename_i hnone
    refine ⟨nofun, ?_⟩
    rintro ⟨word, _, hbytes⟩
    rw [takeWord?_eq_some_iff.mpr hbytes] at hnone
    cases hnone
  · rename_i word rest' hsome
    rw [takeWord?_eq_some_iff] at hsome
    subst hsome
    constructor
    · intro h
      cases h
      exact ⟨word, rfl, rfl⟩
    · rintro ⟨word', rfl, hbytes⟩
      obtain ⟨hword, hrest⟩ := List.append_inj hbytes rfl
      rw [← wordOf_wordBytes word, hword, wordOf_wordBytes, hrest]

/-- A number without a sign is read just when it was written and fits. -/
theorem takeNumber_eq_ok_natCast_iff {n : Nat} :
    takeNumber bytes = .ok ((n : Int), rest) ↔
      n < 2 ^ 31 ∧ bytes = wordBytes n.toUInt32 ++ rest := by
  simp only [takeNumber_eq_ok_iff, signed_eq_natCast_iff, and_assoc]
  constructor
  · rintro ⟨word, hn, rfl, hbytes⟩
    exact ⟨hn, hbytes⟩
  · rintro ⟨hn, hbytes⟩
    exact ⟨_, hn, rfl, hbytes⟩

theorem takeLeafMark_eq_ok_iff {depth : Nat} {isLeaf : Bool} :
    takeLeafMark depth bytes = .ok (isLeaf, rest) ↔
      bytes = (if isLeaf then 1 else 0) :: rest := by
  cases bytes with
  | nil => simp [takeLeafMark]
  | cons mark bytes =>
      simp only [takeLeafMark]
      split
      · subst mark
        cases isLeaf <;> simp
      · split
        · subst mark
          cases isLeaf <;> simp
        · cases isLeaf <;> simp_all

/-! ## Values -/

theorem length_valueBytes (values : List Value) :
    (valueBytes values).length = 4 * values.length := by
  rw [Nat.mul_comm]
  exact length_flatMap_of_forall fun value _ => length_wordBytes value.bits

/-- The values are those whose words stand at the front of the bytes. -/
theorem takeValues_eq_ok_iff {depth count : Nat} {values : List Value} :
    takeValues depth count bytes = .ok (values, rest) ↔
      values.length = count ∧ bytes = valueBytes values ++ rest := by
  simp only [takeValues, List.length_take]
  constructor
  · intro h
    split at h
    · cases h
    · rename_i hlength
      cases h
      have hrows : ∀ row ∈ rows 4 count (bytes.take (4 * count)),
          wordBytes (wordOf row) = row := fun row hrow => by
        refine wordBytes_wordOf (length_of_mem_rows ?_ hrow)
        rw [List.length_take]
        omega
      refine ⟨by simp, ?_⟩
      calc
        bytes = bytes.take (4 * count) ++ bytes.drop (4 * count) :=
          (List.take_append_drop _ _).symm
        _ = (rows 4 count (bytes.take (4 * count))).flatten ++
            bytes.drop (4 * count) := by
          rw [flatten_rows, Nat.mul_comm, List.take_take, Nat.min_self]
        _ = _ := by
          rw [valueBytes, List.flatMap_map, List.flatMap_def,
            List.map_congr_left hrows, List.map_id']
  · rintro ⟨rfl, rfl⟩
    have hlength := length_valueBytes values
    have hrows : rows 4 values.length (valueBytes values) =
        values.map fun value => wordBytes value.bits := by
      rw [← List.append_nil (valueBytes values)]
      exact rows_flatMap_append (fun value _ => length_wordBytes value.bits) []
    rw [if_neg (by rw [List.length_append, hlength]; omega),
      List.take_left' hlength, List.drop_left' hlength, hrows, List.map_map]
    simp [Function.comp_def]

end Archive

end Starfield
