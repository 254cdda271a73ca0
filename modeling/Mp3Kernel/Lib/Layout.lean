import Mathlib.Data.List.GetD

/-!
# Text laid out in rows

Text is laid out in rows of a fixed width: some characters end a row, and so does the
character that fills one. A window of `height` rows shows the last of them, `shown`, and a
character does one of two things to it. It is added to the row the cursor is in, and no other
changes (`shown_type`); or the row ends, and the window stays until it is full and from then
on moves down by one (`shown_endRow`).
-/

/-- Text laid out: the rows that have ended, and the one that has not. -/
structure Layout (β : Type*) where
  done : List (List β)
  current : List β

namespace Layout

variable {β : Type*}

/-- Every row, the last possibly empty. -/
def rows (L : Layout β) : List (List β) := L.done ++ [L.current]

/-- A character is added to the current row. -/
def type (b : β) (L : Layout β) : Layout β := { L with current := L.current ++ [b] }

/-- The current row ends. -/
def endRow (L : Layout β) : Layout β := ⟨L.done ++ [L.current], []⟩

/-- One character. -/
def put (ends : β → Bool) (width : Nat) (L : Layout β) (b : β) : Layout β :=
  if ends b then L.endRow
  else if L.current.length + 1 = width then (L.type b).endRow
  else L.type b

/-- The layout of a text. -/
def ofText (ends : β → Bool) (width : Nat) (text : List β) : Layout β :=
  text.foldl (put ends width) ⟨[], []⟩

/-- The last rows, at most `height` of them. -/
def lastRows (height : Nat) (L : Layout β) : List (List β) := L.rows.drop (L.rows.length - height)

/-- A row of the window that shows the last rows; below them it is empty. -/
def shown (height : Nat) (L : Layout β) (r : Nat) : List β := (L.lastRows height).getD r []

/-- The row of the window the current row is shown in. -/
def cursorRow (height : Nat) (L : Layout β) : Nat := min height L.rows.length - 1

variable {L : Layout β} {height : Nat}

theorem rows_length (L : Layout β) : L.rows.length = L.done.length + 1 := by simp [rows]

@[simp] theorem rows_length_type (b : β) : (L.type b).rows.length = L.rows.length := by
  simp [rows, type]

@[simp] theorem rows_length_endRow : L.endRow.rows.length = L.rows.length + 1 := by
  simp [rows, endRow]

/-- The rows that have ended, the current one, and nothing below. -/
theorem rows_getD (L : Layout β) (i : Nat) :
    L.rows.getD i [] =
      if i < L.done.length then L.done.getD i []
      else if i = L.done.length then L.current else [] := by
  unfold rows
  split
  next h => rw [List.getD_append _ _ _ _ h]
  next h =>
    rw [List.getD_append_right _ _ _ _ (by omega)]
    split
    next heq => simp [heq]
    next hne =>
      rw [List.getD_eq_default]
      simp only [List.length_singleton]
      omega

theorem shown_eq (r : Nat) : L.shown height r = L.rows.getD (L.rows.length - height + r) [] := by
  simp [shown, lastRows, List.getD_eq_getElem?_getD, List.getElem?_drop]

/-- Nothing is shown of no text. -/
@[simp] theorem shown_nil (r : Nat) : (⟨[], []⟩ : Layout β).shown height r = [] := by
  rw [shown_eq, rows_getD]
  split
  next h => exact absurd h (Nat.not_lt_zero _)
  next => split <;> rfl

/-- The window's rows above the cursor's, that one, and those below. -/
theorem shown_cases (pos : 0 < height) (r : Nat) :
    L.shown height r =
      if r < L.cursorRow height then L.done.getD (L.rows.length - height + r) []
      else if r = L.cursorRow height then L.current else [] := by
  have hlength := L.rows_length
  rw [shown_eq, rows_getD, cursorRow]
  by_cases hlt : r < min height L.rows.length - 1
  · rw [if_pos (by omega), if_pos hlt]
  · rw [if_neg (by omega), if_neg hlt]
    by_cases heq : r = min height L.rows.length - 1
    · rw [if_pos (by omega), if_pos heq]
    · rw [if_neg (by omega), if_neg heq]

/-- A character added changes the cursor's row. -/
theorem shown_type (pos : 0 < height) (b : β) (r : Nat) :
    (L.type b).shown height r =
      if r = L.cursorRow height then L.current ++ [b] else L.shown height r := by
  have hcursor : (L.type b).cursorRow height = L.cursorRow height := by
    unfold cursorRow
    rw [rows_length_type]
  rw [shown_cases pos, shown_cases pos, hcursor, rows_length_type]
  by_cases heq : r = L.cursorRow height
  · rw [if_neg (by omega), if_pos heq, if_pos heq]
    rfl
  · simp only [heq, if_false]
    rfl

/-- The row ends: the window stays while it has room, and then moves down. -/
theorem shown_endRow (r : Nat) :
    L.endRow.shown height r =
      if L.rows.length < height then L.shown height r else L.shown height (r + 1) := by
  have hrows : ∀ i, L.endRow.rows.getD i [] = L.rows.getD i [] := by
    intro i
    have hdone : L.endRow.done.getD i [] = L.rows.getD i [] := rfl
    have hlength := L.rows_length
    have hdoneLength : L.endRow.done.length = L.rows.length := rfl
    rw [rows_getD L.endRow, hdone, hdoneLength]
    split
    · rfl
    · rw [List.getD_eq_default _ _ (by omega)]
      split <;> rfl
  rw [shown_eq, hrows, rows_length_endRow]
  split
  next hroom =>
    rw [shown_eq]
    congr 1
    omega
  next hfull =>
    rw [shown_eq]
    congr 1
    omega

end Layout
