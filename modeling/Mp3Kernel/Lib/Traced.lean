import Mathlib.Data.List.Range
import Mathlib.Logic.Function.Basic
import Mp3Kernel.Lib.Field

/-!
# Arrays that record their stores

An array as a function of the index, with the list of indices stored to so far: a program's
bounds are then a statement about that list. A loop that stores one value after the other is
`fill`, whose record and contents are known in closed form.
-/

/-- An array and the indices stored to. -/
structure Traced (β : Type*) where
  cells : Nat → β
  stores : List Nat

namespace Traced

variable {β : Type*}

/-- An array before any store. -/
def start (cells : Nat → β) : Traced β := ⟨cells, []⟩

/-- One store. -/
def store (t : Traced β) (i : Nat) (x : β) : Traced β :=
  ⟨Function.update t.cells i x, t.stores ++ [i]⟩

/-- One value after the other, from index `i` on. -/
def fill : List β → Nat → Traced β → Traced β
  | [], _, t => t
  | x :: xs, i, t => fill xs (i + 1) (t.store i x)

theorem fill_stores (xs : List β) (i : Nat) (t : Traced β) :
    (fill xs i t).stores = t.stores ++ List.range' i xs.length := by
  induction xs generalizing i t with
  | nil => exact (List.append_nil _).symm
  | cons x xs ih =>
    rw [fill, ih, store, List.length_cons, List.range'_succ, List.append_assoc,
      List.singleton_append]

/-- What lies outside the values stored is as it was. -/
theorem fill_outside {xs : List β} {i : Nat} {t : Traced β} {j : Nat}
    (h : j < i ∨ i + xs.length ≤ j) : (fill xs i t).cells j = t.cells j := by
  induction xs generalizing i t with
  | nil => rfl
  | cons x xs ih =>
    rw [List.length_cons] at h
    rw [fill, ih (by omega)]
    exact Function.update_of_ne (by omega) _ _

/-- The values are where they were stored. -/
theorem fill_inside (xs : List β) (i : Nat) (t : Traced β) {j : Nat} (h : j < xs.length) :
    (fill xs i t).cells (i + j) = xs[j] := by
  induction xs generalizing i j t with
  | nil => exact absurd h (Nat.not_lt_zero j)
  | cons x xs ih =>
    cases j with
    | zero =>
      rw [fill, fill_outside (.inl (by omega))]
      exact Function.update_self i x t.cells
    | succ j =>
      have hj : j < xs.length := by
        rw [List.length_cons] at h
        omega
      have hnext := ih (i + 1) (t.store i x) hj
      rw [show i + 1 + j = i + (j + 1) by omega] at hnext
      exact hnext

/-! ## Strings -/

/-- A string and its terminator. -/
def fillString (z : β) (xs : List β) (t : Traced β) : Traced β :=
  (fill xs 0 t).store xs.length z

theorem fillString_stores (z : β) (xs : List β) (cells : Nat → β) :
    (fillString z xs (start cells)).stores = List.range (xs.length + 1) := by
  rw [fillString, store, fill_stores, start, List.nil_append, ← List.range_eq_range',
    List.range_succ]

theorem fillString_holds {z : β} {xs : List β} (proper : z ∉ xs) (t : Traced β) :
    Field.Holds z (fillString z xs t).cells xs := by
  refine ⟨fun i hi => ?_, proper⟩
  rcases Nat.lt_or_eq_of_le hi with hlt | rfl
  · have hchar := fill_inside xs 0 t hlt
    rw [Nat.zero_add] at hchar
    rw [List.getD_eq_getElem _ _ hlt, ← hchar]
    exact Function.update_of_ne (Nat.ne_of_lt hlt) _ _
  · rw [List.getD_eq_default _ _ (Nat.le_refl _)]
    exact Function.update_self _ _ _

end Traced
