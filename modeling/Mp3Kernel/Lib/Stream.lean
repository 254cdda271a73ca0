import Mathlib.Logic.Function.Basic
import Mathlib.Data.List.Range

/-!
# Byte streams and buffers

A stream is a function of the position. `slice` is what lies between two positions, and
`splice` a buffer whose head has been overwritten from the stream. Slices that meet join
(`slice_add`), which is why a reader that starts each time where it last stopped delivers a
stream once and in order, whatever the sizes it asks for.
-/

namespace Stream

variable {β : Type*}

/-- The `n` elements of a stream from position `p` on. -/
def slice (f : Nat → β) (p n : Nat) : List β := (List.range n).map fun i => f (p + i)

@[simp] theorem slice_length (f : Nat → β) (p n : Nat) : (slice f p n).length = n := by
  simp [slice]

/-- Slices that meet join. -/
theorem slice_add (f : Nat → β) (p m n : Nat) :
    slice f p (m + n) = slice f p m ++ slice f (p + m) n := by
  simp [slice, List.range_add, Nat.add_assoc]

/-- A buffer with its first `n` places overwritten from position `p` of a stream. -/
def splice (f : Nat → β) (p n : Nat) (buf : Nat → β) : Nat → β :=
  fun i => if i < n then f (p + i) else buf i

@[simp] theorem splice_zero (f : Nat → β) (p : Nat) (buf : Nat → β) : splice f p 0 buf = buf := by
  funext i
  simp [splice]

/-- One more place. -/
theorem splice_succ (f : Nat → β) (p n : Nat) (buf : Nat → β) :
    splice f p (n + 1) buf = Function.update (splice f p n buf) n (f (p + n)) := by
  funext i
  rcases Nat.lt_trichotomy i n with h | h | h
  · simp [splice, Function.update_of_ne (Nat.ne_of_lt h), h, Nat.lt_succ_of_lt h]
  · simp [splice, h]
  · have h₁ : ¬ i < n := by omega
    have h₂ : ¬ i < n + 1 := by omega
    simp [splice, Function.update_of_ne (Nat.ne_of_gt h), h₁, h₂]

/-- What a reader of the buffer finds in its head. -/
theorem map_splice (f : Nat → β) (p : Nat) {m n : Nat} (h : m ≤ n) (buf : Nat → β) :
    (List.range m).map (splice f p n buf) = slice f p m := by
  refine List.map_congr_left fun i hi => if_pos ?_
  have := List.mem_range.mp hi
  omega

end Stream
