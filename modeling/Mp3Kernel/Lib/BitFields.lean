import Mathlib.Algebra.BigOperators.Group.List.Basic
import Mathlib.Data.Nat.ModEq

/-!
# Bit-fields

A structure of bit-fields, laid out from bit 0 up: a field that is assigned a number keeps as
many of its low bits as it is wide. Hardware reads the same word by the positions of its bits,
so what it finds at a field's position is what was assigned there, cut to the width.
-/

namespace BitFields

/-- A field and the number assigned to it. -/
structure BitField where
  width : Nat
  value : Nat

/-- The width of some fields together, which is where the next one begins. -/
def width (fs : List BitField) : Nat := (fs.map BitField.width).sum

/-- The word that the fields make up, the first one lowest. -/
def pack : List BitField → Nat
  | [] => 0
  | f :: fs => f.value % 2 ^ f.width + 2 ^ f.width * pack fs

/-- So many bits of a word, from a position on. -/
def bits (word lo n : Nat) : Nat := word / 2 ^ lo % 2 ^ n

section Fields

variable {f : BitField} {fs gs : List BitField} {lo n : Nat}

theorem width_cons : width (f :: fs) = f.width + width fs := by
  rw [width, List.map_cons, List.sum_cons, ← width]

/-- Bits above the first field are bits of the rest. -/
theorem bits_cons : bits (pack (f :: fs)) (f.width + lo) n = bits (pack fs) lo n := by
  have hlow : f.value % 2 ^ f.width < 2 ^ f.width := Nat.mod_lt _ (Nat.two_pow_pos _)
  have hshift : pack (f :: fs) / 2 ^ f.width = pack fs := by
    rw [pack, Nat.add_mul_div_left _ _ (Nat.two_pow_pos _), Nat.div_eq_of_lt hlow, Nat.zero_add]
  rw [bits, pow_add, ← Nat.div_div_eq_div_mul, hshift, bits]

theorem bits_head : bits (pack (f :: fs)) 0 f.width = f.value % 2 ^ f.width := by
  rw [bits, pow_zero, Nat.div_one, pack, Nat.add_mul_mod_self_left, Nat.mod_mod]

/-- What lies at a field's position is what was assigned to it. -/
theorem bits_field (before : List BitField) (f : BitField) (after : List BitField) :
    bits (pack (before ++ f :: after)) (width before) f.width = f.value % 2 ^ f.width := by
  induction before with
  | nil => exact bits_head
  | cons g before ih =>
    rw [List.cons_append, width_cons, bits_cons]
    exact ih

/-- The same for several fields on end: together they lie where they were packed. -/
theorem bits_fields (before fs after : List BitField) :
    bits (pack (before ++ (fs ++ after))) (width before) (width fs) = pack fs := by
  induction before with
  | nil =>
    rw [List.nil_append, bits]
    show pack (fs ++ after) / 2 ^ 0 % 2 ^ width fs = pack fs
    rw [pow_zero, Nat.div_one]
    induction fs with
    | nil => exact Nat.mod_one _
    | cons f fs ih =>
      rw [List.cons_append, pack, pack, width_cons, pow_add, Nat.mod_mul]
      have hlow : f.value % 2 ^ f.width < 2 ^ f.width := Nat.mod_lt _ (Nat.two_pow_pos _)
      rw [Nat.add_mul_mod_self_left, Nat.mod_mod, Nat.add_mul_div_left _ _ (Nat.two_pow_pos _),
        Nat.div_eq_of_lt hlow, Nat.zero_add, ih]
  | cons g before ih =>
    rw [List.cons_append, width_cons, bits_cons]
    exact ih

/-- Two numbers' bits, the one's above the other's. -/
theorem bits_append (word lo n k : Nat) :
    bits word lo (n + k) = bits word lo n + 2 ^ n * bits word (lo + n) k := by
  rw [bits, bits, bits, pow_add, Nat.mod_mul, pow_add, Nat.div_div_eq_div_mul]

end Fields

end BitFields
