import Mp3Kernel.User.Calls
import Mp3Kernel.Lib.Field
import Mp3Kernel.Lib.Stream

/-!
# The strings of the user programs (`ece391support.c`)

Each function does what its name says of a string that memory holds with its end. `strcpy` runs
forwards, so it moves a string down over itself; a comparison of `n` characters with a string of
`n` finds whether it is a head of the other.
-/

namespace Mp3Kernel.User

open Interaction (Event)

/-! ## Lengths and what is shown -/

theorem shown_cons (e : Event Call Call.Answer) (es : List (Event Call Call.Answer)) :
    shown (e :: es) = shownBy e ++ shown es := List.flatMap_cons

theorem shown_append (es es' : List (Event Call Call.Answer)) :
    shown (es ++ es') = shown es ++ shown es' := List.flatMap_append

section Strings

variable {s : Buf} {text : List UInt8}

theorem strlenFrom_eq (holds : Field.Holds 0 s text) {n len : Nat} (le : len ≤ text.length)
    (turns : text.length - len < n) : strlenFrom s n len = text.length := by
  induction n generalizing len with
  | zero => exact absurd turns (Nat.not_lt_zero _)
  | succ n ih =>
    unfold strlenFrom
    rcases Nat.lt_or_eq_of_le le with hlt | rfl
    · rw [if_neg (holds.char_ne hlt)]
      exact ih hlt (by omega)
    · rw [if_pos holds.end]

/-- `ece391_strlen`, of any string that is not as long as the address space. -/
theorem ece391Strlen_eq (holds : Field.Holds 0 s text) (short : text.length < 4294967296) :
    ece391Strlen s = text.length :=
  strlenFrom_eq holds (Nat.zero_le _) (by omega)

/-- The bytes of a string, as far as its end. -/
theorem map_range_holds (holds : Field.Holds 0 s text) :
    (List.range text.length).map s = text := by
  refine List.ext_getElem (by simp) fun i hi hi' => ?_
  rw [List.getElem_map, List.getElem_range]
  exact holds.char hi'

theorem shownBy_write (buf : Buf) (n : Nat) (r : Int) :
    shownBy ⟨.write 1 buf n, r⟩ = (List.range n).map buf := rfl

/-- What `ece391_fdputs` puts on the screen. -/
theorem shownBy_fdputs (holds : Field.Holds 0 s text) (short : text.length < 4294967296)
    (r : Int) : shownBy ⟨.write 1 s (ece391Strlen s), r⟩ = text := by
  rw [shownBy_write, ece391Strlen_eq holds short, map_range_holds holds]

/-- A string from byte `n` on. -/
theorem holds_plus (holds : Field.Holds 0 s text) {n : Nat} (le : n ≤ text.length) :
    Field.Holds 0 (plus s n) (text.drop n) := by
  refine ⟨fun i hi => ?_, fun hz => holds.proper (List.mem_of_mem_drop hz)⟩
  have hlen : (text.drop n).length = text.length - n := List.length_drop
  unfold plus
  rw [holds.chars (n + i) (by omega), List.getD_eq_getElem?_getD, List.getD_eq_getElem?_getD,
    List.getElem?_drop]

end Strings

/-! ## Copying -/

/-- The loop of `ece391_strcpy`, in closed form, of a string that lies higher than its copy. -/
theorem strcpyFrom_eq {dst src len : Nat} (down : dst < src) {n i : Nat} {m : Buf} (le : i ≤ len)
    (turns : len - i < n) (chars : ∀ j, i ≤ j → j < len → m (src + j) ≠ 0)
    (stop : m (src + len) = 0) (a : Nat) :
    strcpyFrom dst src n i m a =
      if dst + i ≤ a ∧ a ≤ dst + len then m (src + (a - dst)) else m a := by
  induction n generalizing i m with
  | zero => exact absurd turns (Nat.not_lt_zero _)
  | succ n ih =>
    unfold strcpyFrom
    dsimp only
    by_cases hend : i = len
    · subst hend
      rw [if_pos stop]
      by_cases ha : a = dst + i
      · subst ha
        rw [Function.update_self, if_pos (by omega), Nat.add_sub_cancel_left]
      · rw [Function.update_of_ne ha, if_neg (by omega)]
    · have hnext : ∀ j, i < j → Function.update m (dst + i) (m (src + i)) (src + j) =
          m (src + j) := fun j hj => Function.update_of_ne (by omega) _ _
      rw [if_neg (chars i (Nat.le_refl i) (by omega)),
        ih (by omega) (by omega) (fun j hj hj' => by
          rw [hnext j hj]
          exact chars j (by omega) hj') (by rw [hnext len (by omega)]; exact stop)]
      by_cases ha : a = dst + i
      · subst ha
        rw [if_neg (by omega), if_pos (by omega), Function.update_self, Nat.add_sub_cancel_left]
      · rw [Function.update_of_ne ha]
        by_cases hin : dst + i ≤ a ∧ a ≤ dst + len
        · rw [if_pos (by omega), if_pos hin, hnext _ (by omega)]
        · rw [if_neg (by omega), if_neg hin]

/-- `ece391_strcpy` moves a string down to the start of memory, and changes nothing else. -/
theorem ece391Strcpy_eq {src : Nat} (down : 0 < src) {m : Buf} {text : List UInt8}
    (holds : Field.Holds 0 (plus m src) text) (short : text.length < 4294967296) (a : Nat) :
    ece391Strcpy 0 src m a = if a ≤ text.length then m (src + a) else m a := by
  have chars : ∀ j, 0 ≤ j → j < text.length → m (src + j) ≠ 0 := fun _ _ hj =>
    Field.Holds.char_ne holds hj
  have stop : m (src + text.length) = 0 := Field.Holds.end holds
  unfold ece391Strcpy
  rw [strcpyFrom_eq down (Nat.zero_le _) (by omega) chars stop a]
  simp

/-! ## Comparing -/

/-- The loop of `ece391_strncmp`, on as many characters as the second string has. -/
theorem strncmpFrom_eq_zero_iff {s1 s2 : Buf} {text pattern : List UInt8}
    (holds : Field.Holds 0 s1 text) (pat : Field.Holds 0 s2 pattern) {n i : Nat}
    (count : i + n = pattern.length) (le : i ≤ text.length) :
    strncmpFrom s1 s2 n i = 0 ↔ pattern.drop i <+: text.drop i := by
  induction n generalizing i with
  | zero =>
    have hdrop : pattern.drop i = [] := List.drop_eq_nil_of_le (by omega)
    rw [hdrop]
    exact iff_of_true rfl List.nil_prefix
  | succ n ih =>
    have hpat : i < pattern.length := by omega
    unfold strncmpFrom
    rw [List.drop_eq_getElem_cons hpat]
    rcases Nat.lt_or_eq_of_le le with hlt | heq
    · rw [List.drop_eq_getElem_cons hlt, List.cons_prefix_cons, ← pat.char hpat, ← holds.char hlt]
      by_cases hchar : s1 i = s2 i
      · rw [if_pos hchar, and_iff_right hchar.symm]
        by_cases hlast : n = 0
        · have hdrop : pattern.drop (i + 1) = [] := List.drop_eq_nil_of_le (by omega)
          rw [if_pos (.inr hlast), hdrop]
          exact iff_of_true rfl List.nil_prefix
        · rw [if_neg (not_or.mpr ⟨holds.char_ne hlt, hlast⟩)]
          exact ih (by omega) hlt
      · rw [if_neg hchar]
        refine iff_of_false (fun h => hchar ?_) fun h => hchar h.1.symm
        exact UInt8.toNat_inj.mp (by omega)
    · have hend : s1 i = 0 := by
        rw [heq]
        exact holds.end
      have hdrop : text.drop i = [] := List.drop_eq_nil_of_le (by omega)
      have hne : s1 i ≠ s2 i := fun h => pat.char_ne hpat (h.symm.trans hend)
      rw [if_neg hne, hdrop]
      refine iff_of_false (fun h => hne (UInt8.toNat_inj.mp (by omega))) fun h => ?_
      exact absurd (List.prefix_nil.mp h) (List.cons_ne_nil _ _)

/-- `ece391_strncmp` with the length of a string finds whether it is a head of the other. -/
theorem ece391Strncmp_eq_zero_iff {s1 s2 : Buf} {text pattern : List UInt8}
    (holds : Field.Holds 0 s1 text) (pat : Field.Holds 0 s2 pattern) :
    ece391Strncmp s1 s2 pattern.length = 0 ↔ pattern <+: text :=
  strncmpFrom_eq_zero_iff holds pat (Nat.zero_add _) (Nat.zero_le _)

end Mp3Kernel.User
