import Starfield.RecentWindow

/-!
# What a window remembers

A push makes room before it adds its value: if the window is full, the oldest
value goes.  So a window holds the values pushed last, as many as its capacity
allows.  A window of capacity zero is the exception.  It is full while it is
empty, so its first push finds nothing to drop, and from then on it holds one
value, as a window of capacity one does.
-/

namespace Starfield

namespace RecentWindow

variable {α : Type} {capacity : Nat}

/-- The window that holds the last of the given values. -/
def ofLast (capacity : Nat) (values : List α) : RecentWindow α :=
  ⟨capacity, values.drop (values.length - capacity)⟩

/-- The window that holds the last of the given values, and the latest one whatever
the capacity. -/
def ofPushed (capacity : Nat) (values : List α) : RecentWindow α :=
  { ofLast (max capacity 1) values with capacity }

def pushAll (window : RecentWindow α) (values : List α) : RecentWindow α :=
  values.foldl push window

theorem size_ofLast (values : List α) :
    (ofLast capacity values).size = min values.length capacity := by
  rw [size, ofLast, List.length_drop]
  omega

theorem size_ofPushed (values : List α) :
    (ofPushed capacity values).size = min values.length (max capacity 1) :=
  size_ofLast values

/-- A window that can hold more loses nothing by a push.  This also covers the window
of capacity zero before its first push, which has nothing to lose. -/
theorem push_of_lt {window : RecentWindow α}
    (hroom : window.size < max window.capacity 1) (value : α) :
    window.push value =
      { window with values := window.values ++ [value] } := by
  by_cases hfull : window.capacity ≤ window.values.length
  · have hempty : window.values = [] := by
      rw [← List.length_eq_zero_iff]
      rw [size] at hroom
      omega
    rw [push, if_pos hfull, hempty, List.tail_nil]
  · rw [push, if_neg hfull]

/-- A window that can hold no more loses its oldest value. -/
theorem push_of_le {window : RecentWindow α}
    (hfull : max window.capacity 1 ≤ window.size) (value : α) :
    window.push value =
      { window with values := window.values.tail ++ [value] } := by
  have hcapacity : window.capacity ≤ window.values.length :=
    Nat.le_trans (Nat.le_max_left _ _) hfull
  rw [push, if_pos hcapacity]

/-- One more value is pushed. -/
theorem push_ofPushed (values : List α) (value : α) :
    (ofPushed capacity values).push value =
      ofPushed capacity (values ++ [value]) := by
  have hsize : (ofPushed capacity values).size =
      min values.length (max capacity 1) := size_ofPushed values
  by_cases hfull : max capacity 1 ≤ (ofPushed capacity values).size
  · -- The oldest value makes room for the new one.
    have hlength : values.length + 1 - max capacity 1 =
        values.length - max capacity 1 + 1 := by
      omega
    rw [push_of_le hfull]
    simp only [ofPushed, ofLast, List.length_append, List.length_singleton]
    rw [hlength, List.tail_drop, List.drop_append_of_le_length (by omega)]
  · have hlength : values.length - max capacity 1 = 0 := by omega
    have hlength' : values.length + 1 - max capacity 1 = 0 := by omega
    rw [push_of_lt (Nat.lt_of_not_le hfull)]
    simp only [ofPushed, ofLast, List.length_append, List.length_singleton]
    rw [hlength, hlength', List.drop_zero, List.drop_zero]

theorem pushAll_ofPushed (values later : List α) :
    (ofPushed capacity values).pushAll later =
      ofPushed capacity (values ++ later) := by
  induction later generalizing values with
  | nil => rw [List.append_nil, pushAll, List.foldl_nil]
  | cons value later ih =>
      rw [pushAll, List.foldl_cons, push_ofPushed]
      exact (ih (values ++ [value])).trans
        (congrArg (ofPushed capacity) (List.append_assoc _ _ _))

theorem pushAll_ofCapacity (values : List α) :
    (ofCapacity capacity).pushAll values = ofPushed capacity values := by
  have hempty : (ofCapacity capacity : RecentWindow α) =
      ofPushed capacity [] := by
    rw [ofPushed, ofLast, List.drop_nil, ofCapacity]
  rw [hempty, pushAll_ofPushed, List.nil_append]

theorem ofPushed_eq_ofLast (hcapacity : 0 < capacity) (values : List α) :
    ofPushed capacity values = ofLast capacity values := by
  rw [ofPushed, Nat.max_eq_left hcapacity, ofLast]

theorem push_ofLast (hcapacity : 0 < capacity) (values : List α) (value : α) :
    (ofLast capacity values).push value =
      ofLast capacity (values ++ [value]) := by
  rw [← ofPushed_eq_ofLast hcapacity, ← ofPushed_eq_ofLast hcapacity,
    push_ofPushed]

/-- The window is within its capacity when that is not zero, and also as long as
nothing has been pushed. -/
theorem size_ofPushed_le_iff {values : List α} :
    (ofPushed capacity values).size ≤ capacity ↔
      0 < capacity ∨ values = [] := by
  rw [size_ofPushed, ← List.length_eq_zero_iff]
  omega

theorem ofPushed_eq_ofLast_iff {values : List α} :
    ofPushed capacity values = ofLast capacity values ↔
      0 < capacity ∨ values = [] := by
  constructor
  · intro hlast
    rw [← size_ofPushed_le_iff, hlast, size_ofLast]
    exact Nat.min_le_right _ _
  · rintro (hcapacity | rfl)
    · exact ofPushed_eq_ofLast hcapacity values
    · rw [ofPushed, ofLast, ofLast, List.drop_nil, List.drop_nil]

/-- After any run of pushes a window of any capacity holds the values pushed last,
in the order of the pushes: as many as the capacity allows, but the latest one in
any case.  So it is the window that the capacity asks for, and within it, just
when the capacity is not zero or nothing has been pushed. -/
theorem recalls_pushAll (capacity : Nat) (values : List α) :
    let window := (ofCapacity capacity).pushAll values
    window.capacity = capacity ∧ window.values <:+ values ∧
      window.size = min values.length (max capacity 1) ∧
      (window = ofLast capacity values ↔ 0 < capacity ∨ values = []) ∧
      (window.size ≤ capacity ↔ 0 < capacity ∨ values = []) := by
  intro window
  have hwindow : window = ofPushed capacity values := pushAll_ofCapacity values
  rw [hwindow]
  exact ⟨rfl, List.drop_suffix _ _, size_ofPushed values,
    ofPushed_eq_ofLast_iff, size_ofPushed_le_iff⟩

/-- A window of capacity zero keeps the value that is pushed into it. -/
theorem not_forall_pushAll_eq_ofLast :
    ¬ ∀ (capacity : Nat) (values : List Nat),
      let window := (ofCapacity capacity).pushAll values
      window = ofLast capacity values ∧ window.size ≤ capacity := by
  intro h
  have hsize : ((ofCapacity 0).pushAll [10]).size ≤ 0 := (h 0 [10]).2
  exact absurd hsize (by decide)

end RecentWindow

end Starfield
