import Mathlib.Data.List.Basic

/-!
# Ticks of a shared clock

A clock's ticks go to owners, one a tick: a list of owners, in time. A waiter that counts only
its own ticks and stops at one less than the period it was asked for keeps that period only on
some lists; `exact_iff` says on which.
-/

namespace Ticks

variable {Owner : Type*} [DecidableEq Owner] {ticks : List Owner} {owner : Owner}

/-- No more ticks are one's own in a shorter time. -/
theorem count_take_mono {m n : Nat} (h : m ≤ n) :
    (ticks.take m).count owner ≤ (ticks.take n).count owner :=
  (List.take_sublist_take_left h).count_le owner

/-- At most one more tick is one's own after one tick more. -/
theorem count_take_succ_le (n : Nat) :
    (ticks.take (n + 1)).count owner ≤ (ticks.take n).count owner + 1 := by
  rw [List.take_add_one, List.count_append]
  have hone : (ticks[n]?.toList).count owner ≤ 1 := by
    refine Nat.le_trans List.count_le_length ?_
    cases ticks[n]? <;> simp
  omega

/-- A waiter that stops once `period - 1` ticks were its own stops after exactly `period` ticks
just when one tick of the first `period - 1`, if there are so many, was not its own, and every
other of the first `period` was. -/
theorem exact_iff {period : Nat} (pos : 0 < period) :
    (∀ n ≤ ticks.length, (n < period → (ticks.take n).count owner < period - 1) ∧
        (n = period → period - 1 ≤ (ticks.take n).count owner)) ↔
      (ticks.take (period - 1)).count owner < period - 1 ∧
        (period ≤ ticks.length → (ticks.take period).count owner = period - 1) := by
  constructor
  · intro h
    have hshort : (ticks.take (period - 1)).count owner < period - 1 := by
      by_cases hlong : period - 1 ≤ ticks.length
      · exact (h _ hlong).1 (by omega)
      · have hcount := (ticks.take (period - 1)).count_le_length (a := owner)
        have hlength := List.length_take_le' (period - 1) ticks
        omega
    refine ⟨hshort, fun hlong => ?_⟩
    have hlast := (h period hlong).2 rfl
    have hstep := @count_take_succ_le Owner _ ticks owner (period - 1)
    have hperiod : period - 1 + 1 = period := by omega
    rw [hperiod] at hstep
    omega
  · rintro ⟨hshort, hfull⟩ n hn
    refine ⟨fun hlt => ?_, ?_⟩
    · exact Nat.lt_of_le_of_lt (count_take_mono (by omega)) hshort
    · rintro rfl
      exact Nat.le_of_eq (hfull hn).symm

end Ticks
