import Mathlib.Data.List.Induction
import Mathlib.Data.List.Infix
import Mathlib.Logic.Function.Basic

/-!
# A line edited in a buffer

A line is typed a character at a time: one kind of character erases the last, any other is
added if there is room. A buffer and an index hold the line when the buffer's head, as far as
the index, is the line; what lies behind the index does not matter, so erasing only moves the
index (`head_erase`) and typing overwrites whatever was there (`head_type`). What does lie
behind it is whatever was erased: a cell of the buffer is blank only as long as the line has
never reached it (`Untouched`).
-/

namespace LineEdit

variable {β : Type*}

/-- One character typed, on a line of at most `room`. -/
def step (room : Nat) (erases : β → Bool) (line : List β) (b : β) : List β :=
  if erases b then line.dropLast else if room ≤ line.length then line else line ++ [b]

/-- The line that characters leave. -/
def edit (room : Nat) (erases : β → Bool) (bs : List β) : List β := bs.foldl (step room erases) []

variable {room : Nat} {erases : β → Bool}

theorem edit_snoc (bs : List β) (b : β) :
    edit room erases (bs ++ [b]) = step room erases (edit room erases bs) b := by
  simp [edit]

/-- A line has room for what it holds. -/
theorem length_edit_le (bs : List β) : (edit room erases bs).length ≤ room := by
  induction bs using List.reverseRecOn with
  | nil => exact Nat.zero_le _
  | append_singleton bs b ih =>
    rw [edit_snoc, step]
    split
    · rw [List.length_dropLast]
      omega
    · split
      · exact ih
      · rw [List.length_append, List.length_singleton]
        omega

/-- Only what was typed is on the line. -/
theorem mem_of_mem_edit {bs : List β} {b : β} (h : b ∈ edit room erases bs) : b ∈ bs := by
  induction bs using List.reverseRecOn with
  | nil => exact h
  | append_singleton bs b' ih =>
    rw [edit_snoc, step] at h
    rw [List.mem_append]
    split at h
    · exact .inl (ih (List.dropLast_subset _ h))
    · split at h
      · exact .inl (ih h)
      · rcases List.mem_append.mp h with h | h
        · exact .inl (ih h)
        · exact .inr h

/-- The head of a buffer. -/
def head (buf : Nat → β) (n : Nat) : List β := (List.range n).map buf

@[simp] theorem length_head (buf : Nat → β) (n : Nat) : (head buf n).length = n := by simp [head]

/-- One more character, stored at the index. -/
theorem head_type (buf : Nat → β) (n : Nat) (b : β) :
    head (Function.update buf n b) (n + 1) = head buf n ++ [b] := by
  unfold head
  rw [List.range_succ, List.map_append, List.map_cons, List.map_nil, Function.update_self]
  congr 1
  refine List.map_congr_left fun i hi => Function.update_of_ne ?_ _ _
  exact Nat.ne_of_lt (List.mem_range.mp hi)

/-- One character fewer, with the index moved back. -/
theorem head_erase (buf : Nat → β) (n : Nat) : head buf (n - 1) = (head buf n).dropLast := by
  cases n with
  | zero => rfl
  | succ n =>
    unfold head
    rw [List.range_succ, List.map_append, List.map_cons, List.map_nil, List.dropLast_concat]
    rfl

/-- A buffer that agrees as far as the index. -/
theorem head_congr {buf buf' : Nat → β} {n : Nat} (h : ∀ i < n, buf' i = buf i) :
    head buf' n = head buf n :=
  List.map_congr_left fun i hi => h i (List.mem_range.mp hi)

theorem getD_head {buf : Nat → β} {n i : Nat} (h : i < n) (d : β) :
    (head buf n).getD i d = buf i := by
  simp [head, List.getD_eq_getElem?_getD, h]

/-! ## What is left behind the index -/

/-- The line never got longer than `n` while the characters were typed. -/
def Within (room : Nat) (erases : β → Bool) (n : Nat) (bs : List β) : Prop :=
  ∀ p, p <+: bs → (edit room erases p).length ≤ n

instance (n : Nat) (bs : List β) : Decidable (Within room erases n bs) :=
  decidable_of_iff (∀ p ∈ bs.inits, (edit room erases p).length ≤ n) (by simp only [List.mem_inits, Within])

section Within

variable {n m : Nat} {bs : List β} {b : β}

theorem within_nil (n : Nat) : Within room erases n ([] : List β) := by
  intro p hp
  rw [List.prefix_nil.mp hp]
  exact Nat.zero_le n

theorem within_snoc : Within room erases n (bs ++ [b]) ↔
    Within room erases n bs ∧ (edit room erases (bs ++ [b])).length ≤ n := by
  constructor
  · intro h
    exact ⟨fun p hp => h p (hp.trans (List.prefix_append bs [b])), h _ (List.prefix_refl _)⟩
  · rintro ⟨h, hlast⟩ p hp
    rcases List.prefix_concat_iff.mp hp with rfl | hp
    · exact hlast
    · exact h p hp

theorem Within.length_le (h : Within room erases n bs) : (edit room erases bs).length ≤ n :=
  h bs (List.prefix_refl bs)

theorem Within.mono (h : Within room erases n bs) (hnm : n ≤ m) : Within room erases m bs :=
  fun p hp => Nat.le_trans (h p hp) hnm

theorem within_room (bs : List β) : Within room erases room bs := fun p _ => length_edit_le p

/-- A character that does not make the line longer. -/
theorem within_short (h : (edit room erases (bs ++ [b])).length ≤ (edit room erases bs).length) :
    Within room erases n (bs ++ [b]) ↔ Within room erases n bs := by
  rw [within_snoc]
  exact and_iff_left_of_imp fun hbs => Nat.le_trans h hbs.length_le

end Within

/-- A buffer that was blank before the characters: a cell still is just when the line never
reached it. -/
def Untouched (room : Nat) (erases : β → Bool) (blank : β) (buf : Nat → β) (bs : List β) : Prop :=
  ∀ i ≤ room, buf i = blank ↔ Within room erases i bs

section Untouched

variable {blank : β} {buf : Nat → β} {bs : List β} {b : β}

/-- A blank buffer, before any character. -/
theorem untouched_nil (h : ∀ i ≤ room, buf i = blank) : Untouched room erases blank buf [] :=
  fun i hi => iff_of_true (h i hi) (within_nil i)

/-- A character that is not stored. -/
theorem Untouched.skip (U : Untouched room erases blank buf bs)
    (h : (edit room erases (bs ++ [b])).length ≤ (edit room erases bs).length) :
    Untouched room erases blank buf (bs ++ [b]) := by
  intro i hi
  rw [U i hi, within_short h]

/-- A character that is. -/
theorem Untouched.store (U : Untouched room erases blank buf bs) (hb : b ≠ blank)
    (h : (edit room erases (bs ++ [b])).length = (edit room erases bs).length + 1) :
    Untouched room erases blank
      (Function.update buf (edit room erases bs).length b) (bs ++ [b]) := by
  intro i hi
  rw [within_snoc, h]
  by_cases hcell : i = (edit room erases bs).length
  · rw [hcell, Function.update_self]
    exact iff_of_false hb fun hwithin => absurd hwithin.2 (by omega)
  · rw [Function.update_of_ne hcell, U i hi]
    constructor
    · intro hwithin
      have hlength := hwithin.length_le
      exact ⟨hwithin, by omega⟩
    · exact And.left

end Untouched

end LineEdit
