import Mathlib.Data.List.Range
import Mathlib.Data.List.GetD
import Mathlib.Data.List.TakeDrop

/-!
# Terminated strings in fixed-width fields

A field of `n` places holds the string before its first terminator, or all its places when
there is none (`text`). A string held in memory with its terminator (`Holds`) may be longer
than the field it is compared with; the field then sees its first `n` characters only
(`Holds.text_eq`).
-/

namespace Field

variable {β : Type*}

/-- A string in memory, followed by its terminator; what lies behind is not said. -/
structure Holds (z : β) (f : Nat → β) (s : List β) : Prop where
  chars : ∀ i ≤ s.length, f i = s.getD i z
  proper : z ∉ s

section Held

variable {z : β} {f : Nat → β} {s : List β}

theorem Holds.end (h : Holds z f s) : f s.length = z := by
  rw [h.chars _ (Nat.le_refl _), List.getD_eq_default _ _ (Nat.le_refl _)]

theorem Holds.char (h : Holds z f s) {i : Nat} (hi : i < s.length) : f i = s[i] := by
  rw [h.chars i (Nat.le_of_lt hi), List.getD_eq_getElem _ _ hi]

theorem Holds.char_ne (h : Holds z f s) {i : Nat} (hi : i < s.length) : f i ≠ z := by
  rw [h.char hi]
  intro hz
  exact h.proper (hz ▸ List.getElem_mem hi)

/-- A literal with its terminator holds itself. -/
theorem holds_getD (proper : z ∉ s) : Holds z (fun i => s.getD i z) s :=
  ⟨fun _ _ => rfl, proper⟩

/-- A terminator somewhere ends a string before it. -/
theorem exists_holds {n : Nat} (stop : f n = z) : ∃ s, Holds z f s ∧ s.length ≤ n := by
  induction n generalizing f with
  | zero => exact ⟨[], ⟨fun i hi => by rw [Nat.le_zero.mp hi, stop]; rfl, List.not_mem_nil⟩,
      Nat.le_refl 0⟩
  | succ n ih =>
    by_cases hfirst : f 0 = z
    · exact ⟨[], ⟨fun i hi => by rw [Nat.le_zero.mp hi, hfirst]; rfl, List.not_mem_nil⟩,
        Nat.zero_le _⟩
    · obtain ⟨s, ⟨chars, proper⟩, hle⟩ := ih (f := fun i => f (i + 1)) stop
      refine ⟨f 0 :: s, ⟨fun i hi => ?_, ?_⟩, Nat.succ_le_succ hle⟩
      · cases i with
        | zero => rfl
        | succ i => exact chars i (Nat.le_of_succ_le_succ hi)
      · exact List.not_mem_cons_of_ne_of_not_mem (Ne.symm hfirst) proper

end Held

/-! ## Fields -/

section Text

variable [DecidableEq β] (z : β)

/-- The string in the field of `n` places from place `i` on. -/
def text (f : Nat → β) : Nat → Nat → List β
  | 0, _ => []
  | n + 1, i => if f i = z then [] else f i :: text f n (i + 1)

theorem text_length_le (f : Nat → β) (n i : Nat) : (text z f n i).length ≤ n := by
  induction n generalizing i with
  | zero => exact Nat.le_refl 0
  | succ n ih =>
    unfold text
    split
    · exact Nat.zero_le _
    · exact Nat.succ_le_succ (ih (i + 1))

variable {z}

/-- A field over a held string has its first characters. -/
theorem Holds.text_drop {f : Nat → β} {s : List β} (h : Holds z f s) (n : Nat) {i : Nat}
    (hi : i ≤ s.length) : text z f n i = (s.drop i).take n := by
  induction n generalizing i with
  | zero => exact List.take_zero.symm
  | succ n ih =>
    unfold text
    rcases Nat.lt_or_eq_of_le hi with hlt | rfl
    · rw [if_neg (h.char_ne hlt), ih hlt, h.char hlt, List.drop_eq_getElem_cons hlt,
        List.take_succ_cons]
    · rw [if_pos h.end, List.drop_length, List.take_nil]

theorem Holds.text_eq {f : Nat → β} {s : List β} (h : Holds z f s) (n : Nat) :
    text z f n 0 = s.take n :=
  h.text_drop n (Nat.zero_le _)

theorem text_congr {f g : Nat → β} {n i : Nat} (h : ∀ j < i + n, f j = g j) :
    text z f n i = text z g n i := by
  induction n generalizing i with
  | zero => rfl
  | succ n ih =>
    unfold text
    rw [h i (by omega), ih fun j hj => h j (by omega)]

/-- A copy of a field, with a terminator behind it, holds its string. -/
theorem holds_text {f g : Nat → β} {n : Nat} (copy : ∀ i < n, g i = f i) (stop : g n = z) :
    Holds z g (text z f n 0) := by
  obtain ⟨s, hholds, hle⟩ := exists_holds stop
  have hsame : text z f n 0 = text z g n 0 :=
    text_congr fun j hj => (copy j (by omega)).symm
  rw [hsame, hholds.text_eq, List.take_of_length_le hle]
  exact hholds

end Text

end Field
