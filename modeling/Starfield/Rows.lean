/-!
# Rows

A flat list is read as rows of equal width.  The number of rows is given, so
rows without any elements are counted as well.
-/

namespace Starfield

variable {α : Type}

/-- The first rows of a flat list, added to the rows that come before them. -/
def rowsAfter (width : Nat) : Nat → List α → Array (List α) → Array (List α)
  | 0, _, rows => rows
  | count + 1, values, rows =>
      rowsAfter width count (values.drop width) (rows.push (values.take width))

/-- The first `count` rows of `width` elements each. -/
def rows (width count : Nat) (values : List α) : List (List α) :=
  (rowsAfter width count values #[]).toList

theorem toList_rowsAfter (width count : Nat) (values : List α) (before : Array (List α)) :
    (rowsAfter width count values before).toList = before.toList ++ rows width count values := by
  induction count generalizing values before with
  | zero => simp [rowsAfter, rows]
  | succ count ih => rw [rows, rowsAfter, rowsAfter, ih, ih]; simp

@[simp]
theorem rows_zero (width : Nat) (values : List α) : rows width 0 values = [] := rfl

theorem rows_succ (width count : Nat) (values : List α) :
    rows width (count + 1) values = values.take width :: rows width count (values.drop width) := by
  rw [rows, rowsAfter, toList_rowsAfter]
  rfl

@[simp]
theorem length_rows (width count : Nat) (values : List α) :
    (rows width count values).length = count := by
  induction count generalizing values with
  | zero => rfl
  | succ count ih => simp [rows_succ, ih]

end Starfield
