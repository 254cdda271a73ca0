import Mp3Kernel.Kernel.Machine
import Mp3Kernel.Kernel.Printf
import Mathlib.Data.Nat.Digits.Lemmas
import Mathlib.Data.List.Induction

/-!
# Numbers in text

`itoa` stores the digits from the lowest up and reverses them in place, which leaves the
canonical numeral; the conversions of `printf` put it on the console, after a sign or behind
zeros. Each loop over an array is stated on the array cut where it stands, the part behind, the
part it works on and the part ahead, so that what it leaves alone is read off its statement.
-/

namespace Mp3Kernel

/-! ## Numerals -/

/-- The character of a digit: 0 to 9, then A to Z. -/
def digitByte (d : Nat) : UInt8 := UInt8.ofNat (if d < 10 then 0x30 + d else 0x41 + (d - 10))

/-- The canonical numeral: the most significant digit first, and no leading zero but of zero
itself. -/
def numeral (radix v : Nat) : List UInt8 :=
  if v = 0 then [0x30] else ((Nat.digits radix v).map digitByte).reverse

/-- A signed decimal. -/
def signedNumeral (v : Int) : List UInt8 :=
  if v < 0 then 0x2D :: numeral 10 v.natAbs else numeral 10 v.natAbs

/-- Eight hexadecimal digits. -/
def paddedHex (v : Nat) : List UInt8 :=
  (List.range 8).map fun i => digitByte (v / 16 ^ (7 - i) % 16)

theorem itoaLookup_digit : ∀ d < 36, itoaLookup.getD d 0 = digitByte d := by decide +kernel

theorem digitByte_ne_zero : ∀ d < 36, digitByte d ≠ 0 := by decide +kernel

section Numeral

variable {radix v : Nat}

/-- The digits of a number are digits. -/
theorem digits_lt (hlow : 2 ≤ radix) (hhigh : radix ≤ 36) {d : Nat}
    (hd : d ∈ Nat.digits radix v) : d < 36 :=
  Nat.lt_of_lt_of_le (Nat.digits_lt_base hlow hd) hhigh

/-- Only digits stand in a numeral, so no terminator does. -/
theorem zero_notMem_numeral (hlow : 2 ≤ radix) (hhigh : radix ≤ 36) : 0 ∉ numeral radix v := by
  unfold numeral
  split
  · decide
  · rw [List.mem_reverse, List.mem_map]
    rintro ⟨d, hd, hzero⟩
    exact digitByte_ne_zero d (digits_lt hlow hhigh hd) hzero

theorem digits_length_le (hlow : 2 ≤ radix) (hv : v < 4294967296) :
    (Nat.digits radix v).length ≤ 32 := by
  rw [Nat.digits_length_le_iff hlow]
  exact Nat.lt_of_lt_of_le hv (Nat.pow_le_pow_left hlow 32)

theorem numeral_length_le (hlow : 2 ≤ radix) (hv : v < 4294967296) :
    (numeral radix v).length ≤ 32 := by
  unfold numeral
  split
  · decide
  · rw [List.length_reverse, List.length_map]
    exact digits_length_le hlow hv

end Numeral

/-! ## Loops over arrays -/

namespace Chars

variable {left right text : List UInt8} {c o : UInt8}

theorem load_append : load (left ++ c :: right) left.length = some c := by
  simp [load]

theorem store_append : store (left ++ o :: right) left.length c = some (left ++ c :: right) := by
  simp [store]

/-- The first cell of the part a loop works on lies behind it at the next turn. -/
theorem length_behind (left : List UInt8) (c : UInt8) :
    left.length + 1 = (left ++ [c]).length := by
  rw [List.length_append, List.length_singleton]

theorem append_behind : left ++ c :: text ++ right = (left ++ [c]) ++ text ++ right := by
  rw [List.append_cons]

theorem load_head : load (left ++ c :: text ++ right) left.length = some c := by
  rw [List.append_assoc, List.cons_append]
  exact load_append

theorem store_head :
    store (left ++ o :: text ++ right) left.length c = some ((left ++ [c]) ++ text ++ right) := by
  rw [List.append_assoc, List.cons_append, store_append, List.append_cons, ← List.append_assoc]

/-- `strlen` counts up to the terminator. -/
theorem strlenFrom_eq (proper : 0 ∉ text) {s len fuel : Nat} (start : s + len = left.length)
    (enough : text.length < fuel) :
    strlenFrom (left ++ text ++ 0 :: right) s fuel len = some (len + text.length) := by
  induction text generalizing left len fuel with
  | nil =>
    obtain ⟨fuel, rfl⟩ := Nat.exists_eq_add_of_lt enough
    rw [List.append_nil, strlenFrom, start, load_append]
    rfl
  | cons c text ih =>
    obtain ⟨fuel, rfl⟩ : ∃ n, fuel = n + 1 := ⟨fuel - 1, by omega⟩
    have hc : c ≠ 0 := fun h => proper (h ▸ List.mem_cons_self)
    have hnext : s + (len + 1) = (left ++ [c]).length := by
      rw [← length_behind, ← start, Nat.add_assoc]
    rw [strlenFrom, start, load_head]
    show (if c = 0 then _ else _) = _
    rw [if_neg hc, append_behind, ih (fun h => proper (List.mem_cons_of_mem c h)) hnext
      (by simpa using enough), List.length_cons]
    congr 1
    omega

theorem strlen_eq (proper : 0 ∉ text) :
    strlen (left ++ text ++ 0 :: right) left.length = some text.length := by
  unfold strlen
  rw [strlenFrom_eq proper rfl (by simp; omega), Nat.zero_add]

/-- `puts` puts the characters up to the terminator. -/
theorem putsFrom_eq (proper : 0 ∉ text) {fuel : Nat} (enough : text.length < fuel) (k : Kernel) :
    putsFrom (left ++ text ++ 0 :: right) fuel left.length k = some (k.puts text) := by
  induction text generalizing left fuel k with
  | nil =>
    obtain ⟨fuel, rfl⟩ := Nat.exists_eq_add_of_lt enough
    rw [List.append_nil, putsFrom, load_append]
    rfl
  | cons c text ih =>
    obtain ⟨fuel, rfl⟩ : ∃ n, fuel = n + 1 := ⟨fuel - 1, by omega⟩
    have hc : c ≠ 0 := fun h => proper (h ▸ List.mem_cons_self)
    rw [putsFrom, load_head]
    show (if c = 0 then _ else _) = _
    rw [if_neg hc, append_behind, length_behind left c,
      ih (fun h => proper (List.mem_cons_of_mem c h)) (by simpa using enough)]
    rfl

theorem puts_eq (proper : 0 ∉ text) (k : Kernel) :
    puts (left ++ text ++ 0 :: right) left.length k = some (k.puts text) :=
  putsFrom_eq proper (by simp; omega) k

/-- `strrev` swaps the two ends and goes on with what lies between. -/
theorem strrevFrom_eq {s beg fuel : Nat} (start : s + beg = left.length)
    (enough : text.length < fuel) :
    strrevFrom s fuel beg (beg + text.length - 1) (left ++ text ++ right) =
      some (left ++ text.reverse ++ right) := by
  induction text using List.bidirectionalRec generalizing left right beg fuel with
  | nil =>
    obtain ⟨fuel, rfl⟩ := Nat.exists_eq_add_of_lt enough
    unfold strrevFrom
    rw [if_neg (by simp), List.reverse_nil]
  | singleton a =>
    obtain ⟨fuel, rfl⟩ := Nat.exists_eq_add_of_lt enough
    unfold strrevFrom
    rw [if_neg (by simp), List.reverse_singleton]
  | cons_append a l b ih =>
    obtain ⟨fuel, rfl⟩ : ∃ n, fuel = n + 1 := ⟨fuel - 1, by omega⟩
    have hlast : (beg : Int) + (a :: (l ++ [b])).length - 1 = (beg + l.length + 1 : Nat) := by
      simp
      omega
    have hend : s + (beg + l.length + 1) = (left ++ a :: l).length := by
      rw [List.length_append, List.length_cons]
      omega
    have hwhole : left ++ a :: (l ++ [b]) ++ right = (left ++ a :: l) ++ b :: right := by simp
    have hfront : (left ++ a :: l) ++ b :: right = left ++ a :: (l ++ b :: right) := by simp
    have hfront' : (left ++ a :: l) ++ a :: right = left ++ a :: (l ++ a :: right) := by simp
    have hswapped : left ++ b :: (l ++ a :: right) = (left ++ [b]) ++ l ++ a :: right := by simp
    have hstart : s + (beg + 1) = (left ++ [b]).length := by
      rw [← length_behind, ← start, Nat.add_assoc]
    have hrest := @ih (left ++ [b]) (a :: right) (beg + 1) fuel hstart (by simp at enough; omega)
    have hlast' : ((beg + l.length + 1 : Nat) : Int) - 1 = (beg + 1 : Nat) + l.length - 1 := by
      omega
    unfold strrevFrom
    rw [hlast, if_pos (by omega), Int.toNat_natCast, Int.toNat_natCast, hend, start, hwhole,
      load_append]
    show (load _ _).bind _ = _
    rw [hfront, load_append, ← hfront]
    show (store _ _ _).bind _ = _
    rw [store_append]
    show (store _ _ _).bind _ = _
    rw [hfront', store_append]
    show strrevFrom s fuel _ _ _ = _
    rw [hlast', hswapped]
    refine hrest.trans ?_
    simp

theorem strrev_eq (proper : 0 ∉ text) (small : text.length < 2147483648) :
    strrev (left ++ text ++ 0 :: right) left.length =
      some (left ++ text.reverse ++ 0 :: right, left.length) := by
  have hloop := @strrevFrom_eq left (0 :: right) text left.length 0 (text.length + 1) rfl
    (Nat.lt_succ_self _)
  have hlast : i32 (text.length - 1) = (0 : Nat) + text.length - 1 := by
    rw [i32_of_range (by omega) (by omega)]
    omega
  unfold strrev
  rw [strlen_eq proper]
  show (strrevFrom _ _ _ _ _).bind _ = _
  rw [hlast]
  exact congrArg (Option.bind · _) hloop

end Chars

/-! ## `itoa` -/

section Itoa

variable {radix v : Nat} {left right old : List UInt8}

/-- No digits are left: nothing is stored. -/
theorem itoaDigits_zero (fuel : Nat) (room : old.length = (Nat.digits radix 0).length) :
    itoaDigits radix (fuel + 1) 0 left.length (left ++ old ++ right) =
      some (left ++ (Nat.digits radix 0).map digitByte ++ right, left.length + old.length) := by
  rw [Nat.digits_zero, List.length_nil, List.length_eq_zero_iff] at room
  subst room
  rw [Nat.digits_zero]
  rfl

/-- The digit loop stores the digits of the number, the lowest first. -/
theorem itoaDigits_eq (hlow : 2 ≤ radix) (hhigh : radix ≤ 36) {n : Nat} (hv : v < 2 ^ n)
    (room : old.length = (Nat.digits radix v).length) :
    itoaDigits radix (n + 1) v left.length (left ++ old ++ right) =
      some (left ++ (Nat.digits radix v).map digitByte ++ right, left.length + old.length) := by
  induction n generalizing v left old with
  | zero =>
    obtain rfl : v = 0 := by
      rw [pow_zero] at hv
      omega
    exact itoaDigits_zero 0 room
  | succ n ih =>
    rcases Nat.eq_zero_or_pos v with rfl | hpos
    · exact itoaDigits_zero (n + 1) room
    · rw [Nat.digits_def' hlow hpos, List.length_cons] at room
      obtain ⟨o, old, rfl⟩ := List.exists_cons_of_length_eq_add_one room
      rw [List.length_cons, Nat.add_right_cancel_iff] at room
      have hdigit : itoaLookup.getD (v % radix) 0 = digitByte (v % radix) :=
        itoaLookup_digit _ (Nat.lt_of_lt_of_le (Nat.mod_lt v (by omega)) hhigh)
      have hquot : v / radix < 2 ^ n := by
        apply Nat.div_lt_of_lt_mul
        calc v < 2 ^ n * 2 := by rwa [← pow_succ]
          _ ≤ radix * 2 ^ n := by rw [Nat.mul_comm]; exact Nat.mul_le_mul_right _ hlow
      have hrest := @ih (v / radix) (left ++ [digitByte (v % radix)]) old hquot room
      unfold itoaDigits
      rw [if_pos hpos, hdigit, Chars.store_head]
      show itoaDigits radix (n + 1) _ _ _ = _
      rw [Chars.length_behind left (digitByte (v % radix)), hrest, Nat.digits_def' hlow hpos]
      simp
      omega

/-- `itoa` puts the numeral and a terminator where it is told to, and returns that place. -/
theorem itoa_eq (hlow : 2 ≤ radix) (hhigh : radix ≤ 36) (hv : v < 4294967296)
    (room : old.length = (numeral radix v).length + 1) :
    itoa v left.length radix (left ++ old ++ right) =
      some (left ++ numeral radix v ++ 0 :: right, left.length) := by
  unfold itoa
  by_cases hzero : v = 0
  · subst hzero
    obtain ⟨o, o', rfl⟩ := List.length_eq_two.mp (room.trans rfl)
    rw [if_pos rfl, Chars.store_head]
    show (Chars.store _ _ _).bind _ = _
    rw [Chars.length_behind left 0x30, Chars.store_head, List.append_nil, List.append_assoc]
    rfl
  · have hnumeral : numeral radix v = ((Nat.digits radix v).map digitByte).reverse := if_neg hzero
    rw [hnumeral, List.length_reverse, List.length_map] at room
    obtain ⟨digits, o, rfl⟩ : ∃ digits o, old = digits ++ [o] :=
      ⟨old.dropLast, old.getLast (by rintro rfl; simp at room),
        (List.dropLast_append_getLast _).symm⟩
    rw [List.length_append, List.length_singleton, Nat.add_right_cancel_iff] at room
    let text := (Nat.digits radix v).map digitByte
    have hlength : text.length = digits.length := (List.length_map ..).trans room.symm
    have hdigits := @itoaDigits_eq radix v left (o :: right) digits hlow hhigh 32 hv room
    have harray : left ++ (digits ++ [o]) ++ right = left ++ digits ++ o :: right := by simp
    have hend : left.length + digits.length = (left ++ text).length := by
      rw [List.length_append, hlength]
    have hproper : 0 ∉ text := by
      have hnone := @zero_notMem_numeral radix v hlow hhigh
      rw [hnumeral, List.mem_reverse] at hnone
      exact hnone
    have hsmall : text.length < 2147483648 := by
      have := @digits_length_le radix v hlow hv
      rw [List.length_map]
      omega
    rw [if_neg hzero, harray, hdigits]
    show (Chars.store _ _ _).bind _ = _
    rw [hend, Chars.store_append, hnumeral]
    exact Chars.strrev_eq hproper hsmall

/-- The same, in an array taken whole. -/
theorem itoa_at (hlow : 2 ≤ radix) (hhigh : radix ≤ 36) (hv : v < 4294967296) {b : Chars}
    {buf : Nat} (room : buf + (numeral radix v).length + 1 ≤ b.length) :
    itoa v buf radix b =
      some (b.take buf ++ numeral radix v ++ 0 :: b.drop (buf + (numeral radix v).length + 1),
        buf) := by
  have hcut : b.take buf ++ (b.drop buf).take ((numeral radix v).length + 1) ++
      b.drop (buf + (numeral radix v).length + 1) = b := by
    rw [List.append_assoc, Nat.add_assoc, ← List.drop_drop, List.take_append_drop,
      List.take_append_drop]
  have hleft : (b.take buf).length = buf := by
    rw [List.length_take]
    omega
  have hold : ((b.drop buf).take ((numeral radix v).length + 1)).length =
      (numeral radix v).length + 1 := by
    rw [List.length_take, List.length_drop]
    omega
  have hitoa := @itoa_eq radix v (b.take buf) (b.drop (buf + (numeral radix v).length + 1)) _
    hlow hhigh hv hold
  rwa [hcut, hleft] at hitoa

end Itoa

/-! ## The conversions of `printf` -/

section Conversions

variable (v : UInt32) (junk : Buf) (k : Kernel)

theorem localArray_length (size : Nat) : (localArray junk size).length = size := by
  simp [localArray]

/-- A numeral alone in a local array, printed from its beginning. -/
theorem itoa_puts {radix n size : Nat} (hlow : 2 ≤ radix) (hhigh : radix ≤ 36)
    (hn : n < 4294967296) (room : 33 ≤ size) :
    ((itoa n 0 radix (localArray junk size)).bind fun r => r.1.puts 0 k) =
      some (k.puts (numeral radix n)) := by
  have hlength := @numeral_length_le radix n hlow hn
  rw [itoa_at hlow hhigh hn (by rw [localArray_length]; omega)]
  exact @Chars.puts_eq [] _ _ (zero_notMem_numeral hlow hhigh) k

theorem printU_eq : printU v junk k = some (k.puts (numeral 10 v.toNat)) :=
  itoa_puts junk k (by decide) (by decide) v.toNat_lt (by decide)

theorem printX_eq : printX v false junk k = some (k.puts (numeral 16 v.toNat)) :=
  itoa_puts junk k (by decide) (by decide) v.toNat_lt (by decide)

/-- A numeral behind a sign. -/
theorem itoa_puts_negative {n : Nat} (hn : n < 4294967296) :
    (((localArray junk 36).store 0 0x2D).bind fun b =>
      (itoa n 1 10 b).bind fun r => r.1.puts 0 k) = some (k.puts (0x2D :: numeral 10 n)) := by
  have hlength := @numeral_length_le 10 n (by decide) hn
  have hproper : 0 ∉ 0x2D :: numeral 10 n := by
    rw [List.mem_cons, not_or]
    exact ⟨by decide, zero_notMem_numeral (by decide) (by decide)⟩
  obtain ⟨c, rest, hjunk⟩ : ∃ c rest, localArray junk 36 = c :: rest := ⟨_, _, rfl⟩
  have hrest : rest.length + 1 = 36 := by
    rw [← List.length_cons, ← hjunk, localArray_length]
  have hstore : (localArray junk 36).store 0 0x2D = some (0x2D :: rest) := by
    rw [hjunk]
    exact @Chars.store_append [] rest 0x2D c
  have hroom : 1 + (numeral 10 n).length + 1 ≤ (0x2D :: rest).length := by
    rw [List.length_cons]
    omega
  rw [hstore, Option.bind_some, itoa_at (by decide) (by decide) hn hroom, Option.bind_some,
    List.take_succ_cons, List.take_zero, List.singleton_append]
  exact @Chars.puts_eq [] _ _ hproper k

/-- A negative number is printed behind its sign, as the numeral of its negation modulo 2^32. -/
theorem printD_eq : printD v junk k = some (k.puts (signedNumeral (i32 v.toNat))) := by
  have hlt := v.toNat_lt
  have hvalue : i32 v.toNat = if v.toNat < 2147483648 then (v.toNat : Int)
      else (v.toNat : Int) - 4294967296 := by
    unfold i32
    rw [Int.bmod_def]
    split <;> split <;> omega
  have habs : (i32 v.toNat).natAbs < 4294967296 := by
    split at hvalue <;> omega
  unfold printD signedNumeral
  by_cases hneg : i32 v.toNat < 0
  · have hnegate : u32 (-i32 v.toNat) = (i32 v.toNat).natAbs := by
      unfold u32
      omega
    rw [if_pos hneg, if_pos hneg, hnegate]
    exact itoa_puts_negative junk k habs
  · have hsame : u32 (i32 v.toNat) = (i32 v.toNat).natAbs := by
      unfold u32
      omega
    rw [if_neg hneg, if_neg hneg, hsame]
    exact itoa_puts junk k (by decide) (by decide) habs (by decide)

/-- The zeros in front of a number that is in place already. -/
theorem zeroPad_eq {left old right : List UInt8} {fuel : Nat} (upTo : left.length + old.length = 8)
    (enough : old.length < fuel) :
    zeroPad fuel left.length (left ++ old ++ right) =
      some (left ++ List.replicate old.length 0x30 ++ right) := by
  induction old generalizing left fuel with
  | nil =>
    obtain ⟨fuel, rfl⟩ := Nat.exists_eq_add_of_lt enough
    rw [List.length_nil] at upTo
    unfold zeroPad
    rw [if_neg (by omega)]
    rfl
  | cons o old ih =>
    obtain ⟨fuel, rfl⟩ : ∃ n, fuel = n + 1 := ⟨fuel - 1, by omega⟩
    rw [List.length_cons] at upTo enough
    have hupTo : (left ++ [0x30]).length + old.length = 8 := by
      rw [← Chars.length_behind]
      omega
    unfold zeroPad
    rw [if_pos (by omega), Chars.store_head]
    show zeroPad fuel _ _ = _
    rw [Chars.length_behind left 0x30, ih hupTo (by omega), List.length_cons,
      List.replicate_succ, List.append_cons left _ (List.replicate _ _)]

/-- Zeros in front of a hexadecimal numeral, to eight digits in all. -/
theorem paddedHex_eq {n : Nat} (hn : n < 4294967296) :
    List.replicate (8 - (numeral 16 n).length) 0x30 ++ numeral 16 n = paddedHex n ∧
      (numeral 16 n).length ≤ 8 := by
  by_cases hzero : n = 0
  · subst hzero
    decide +kernel
  · have hnumeral : numeral 16 n = ((Nat.digits 16 n).map digitByte).reverse := if_neg hzero
    have hle : (Nat.digits 16 n).length ≤ 8 := (Nat.digits_length_le_iff (by decide) n).mpr hn
    rw [hnumeral, List.length_reverse, List.length_map]
    refine ⟨?_, hle⟩
    apply List.ext_getElem
    · simp [paddedHex]
      omega
    · intro i hi hi'
      have hi₈ : i < 8 := by simpa [paddedHex] using hi'
      have hright : (paddedHex n)[i] = digitByte (n / 16 ^ (7 - i) % 16) := by
        simp [paddedHex]
      refine Eq.trans ?_ hright.symm
      rw [← Nat.getD_digits n (7 - i) (by decide)]
      by_cases hpad : i < 8 - (Nat.digits 16 n).length
      · rw [List.getElem_append_left (by simpa using hpad), List.getElem_replicate,
          List.getD_eq_default _ _ (by omega)]
        rfl
      · rw [List.getElem_append_right (by simpa using hpad), List.getElem_reverse,
          List.getElem_map, List.getD_eq_getElem _ _ (by omega)]
        congr 2
        simp
        omega

theorem zero_notMem_paddedHex (n : Nat) : 0 ∉ paddedHex n := by
  unfold paddedHex
  rw [List.mem_map]
  rintro ⟨i, -, hzero⟩
  exact digitByte_ne_zero _ (by omega) hzero

/-- `%#x` builds the number eight cells into `conv_buf` and prints it from the zeros it puts
before it. -/
theorem printX_alternate_eq : printX v true junk k = some (k.puts (paddedHex v.toNat)) := by
  obtain ⟨hpadded, hle⟩ := paddedHex_eq v.toNat_lt
  have hlocal := localArray_length junk 64
  have hproper := @zero_notMem_numeral 16 v.toNat (by decide) (by decide)
  have hroom : 8 + (numeral 16 v.toNat).length + 1 ≤ (localArray junk 64).length := by omega
  have hitoa := itoa_at (by decide) (by decide) v.toNat_lt hroom
  generalize hleft : (localArray junk 64).take 8 = left at hitoa
  generalize (localArray junk 64).drop _ = right at hitoa
  have hlength : left.length = 8 := by
    rw [← hleft, List.length_take]
    omega
  let digits := (numeral 16 v.toNat).length
  let spare := left.take digits
  let zeros := left.drop digits
  have hspare : spare.length = digits := by
    rw [List.length_take]
    omega
  have hzeros : zeros.length = 8 - digits := by
    rw [List.length_drop, hlength]
  have harray : left ++ numeral 16 v.toNat ++ 0 :: right =
      spare ++ zeros ++ (numeral 16 v.toNat ++ 0 :: right) := by
    rw [List.take_append_drop, List.append_assoc]
  have hstrlen :
      Chars.strlen (left ++ numeral 16 v.toNat ++ 0 :: right) 8 = some digits := by
    rw [← hlength]
    exact Chars.strlen_eq hproper
  have hpad := @zeroPad_eq spare zeros (numeral 16 v.toNat ++ 0 :: right) 9 (by omega) (by omega)
  have htext : spare ++ List.replicate zeros.length 0x30 ++ (numeral 16 v.toNat ++ 0 :: right) =
      spare ++ paddedHex v.toNat ++ 0 :: right := by
    rw [hzeros, ← hpadded]
    simp only [List.append_assoc]
    rfl
  rw [htext, ← harray, hspare] at hpad
  have hputs := @Chars.puts_eq spare right _ (zero_notMem_paddedHex v.toNat) k
  rw [hspare] at hputs
  unfold printX
  rw [if_pos rfl, hitoa, Option.bind_eq_bind, Option.bind_some, hstrlen, Option.bind_eq_bind,
    Option.bind_some, hpad, Option.bind_eq_bind, Option.bind_some]
  exact hputs

end Conversions

/-! ## The turns of the scan -/

section Turns

variable {format : Buf} {args : PrintfArgs} {fuel : Nat} {alternate : Bool} {s s' : Printf}

theorem printfRun_percent (percent : format s.pos = 0x25) :
    printfRun format args (fuel + 1) .loop s =
      printfRun format args fuel (.switch false) s.read.next := by
  rw [printfRun, percent]
  rfl

theorem printfRun_hash (hash : format s.pos = 0x23) :
    printfRun format args (fuel + 1) (.switch alternate) s =
      printfRun format args fuel (.switch true) s.read.next := by
  rw [printfRun, hash]
  rfl

theorem printfRun_convert (specifier : format s.pos ≠ 0x23)
    (converts : s.read.convert args alternate (format s.pos) = some s') :
    printfRun format args (fuel + 1) (.switch alternate) s =
      printfRun format args fuel .loop s'.next := by
  rw [printfRun, if_neg specifier, converts]
  rfl

theorem convert_x :
    s.convert args alternate 0x78 =
      (printX (args.word s.esp) alternate (args.convBuf s.esp) s.k).map s.took := by
  rw [Printf.convert, if_neg (by decide), if_pos rfl]

theorem convert_u :
    s.convert args alternate 0x75 =
      (printU (args.word s.esp) (args.convBuf s.esp) s.k).map s.took := by
  rw [Printf.convert, if_neg (by decide), if_neg (by decide), if_pos rfl]

theorem convert_d :
    s.convert args alternate 0x64 =
      (printD (args.word s.esp) (args.convBuf s.esp) s.k).map s.took := by
  rw [Printf.convert, if_neg (by decide), if_neg (by decide), if_neg (by decide), if_pos rfl]

end Turns

/-- A conversion of so many bytes has printed a text. -/
def Printf.printed (bytes : Nat) (text : List UInt8) (s : Printf) : Printf where
  pos := s.pos + bytes
  esp := s.esp + 1
  reads := s.reads ++ List.range' s.pos bytes
  k := s.k.puts text

/-- Wherever a format has it, a conversion prints a text for an argument, and the scan goes on
behind it. A store outside an array would give `none` here, whatever follows. -/
def Prints (spec : List UInt8) (v : UInt32) (text : List UInt8) : Prop :=
  ∀ (format : Buf) (args : PrintfArgs) (s : Printf), args.word s.esp = v →
    (∀ i < spec.length, format (s.pos + i) = spec.getD i 0) → ∀ fuel,
    printfRun format args (fuel + spec.length) .loop s =
      printfRun format args fuel .loop (s.printed spec.length text)

section Specifiers

variable {v : UInt32} {text : List UInt8}

/-- A conversion of two bytes. -/
theorem prints_of_convert {c : UInt8} (hc : c ≠ 0x23)
    (converts : ∀ args (s : Printf), args.word s.esp = v →
      s.convert args false c = some (s.took (s.k.puts text))) : Prints [0x25, c] v text := by
  intro format args s hv hformat fuel
  have hpercent : format s.pos = 0x25 := hformat 0 (Nat.zero_lt_succ _)
  have hspec : format s.read.next.pos = c := hformat 1 (Nat.lt_succ_self _)
  have hdone : s.read.next.read.convert args false (format s.read.next.pos) =
      some (s.read.next.read.took (s.k.puts text)) := by
    rw [hspec]
    exact converts args s.read.next.read hv
  show printfRun format args (fuel + 1 + 1) .loop s = _
  rw [printfRun_percent hpercent, printfRun_convert (by rw [hspec]; exact hc) hdone]
  congr 1
  simp [Printf.next, Printf.took, Printf.read, Printf.printed, List.range'_succ]

/-- `%#x`, which comes back to the switch with its flag set. -/
theorem prints_alternate : Prints (bytes "%#x") v (paddedHex v.toNat) := by
  have hbytes : bytes "%#x" = [0x25, 0x23, 0x78] := by decide +kernel
  rw [hbytes]
  intro format args s hv hformat fuel
  have hpercent : format s.pos = 0x25 := hformat 0 (by decide)
  have hhash : format s.read.next.pos = 0x23 := hformat 1 (by decide)
  have hspec : format s.read.next.read.next.pos = 0x78 := hformat 2 (by decide)
  let before := s.read.next.read.next.read
  have hdone : before.convert args true (format s.read.next.read.next.pos) =
      some (before.took (before.k.puts (paddedHex v.toNat))) := by
    have hword : args.word before.esp = v := hv
    rw [hspec, convert_x, hword, printX_alternate_eq, Option.map_some]
  show printfRun format args (fuel + 1 + 1 + 1) .loop s = _
  rw [printfRun_percent hpercent, printfRun_hash hhash,
    printfRun_convert (by rw [hspec]; decide) hdone]
  congr 1
  simp [before, Printf.next, Printf.took, Printf.read, Printf.printed, List.range'_succ]

end Specifiers

/-- For every `uint32_t`: `itoa` stores its numeral in any radix, and a terminator, where it is
told to, in at most 33 cells, leaves the others as they were and returns the place; and `printf`
prints it as a signed decimal, a decimal, a hexadecimal numeral, and eight hexadecimal digits. -/
theorem numbers_exact (v : UInt32) :
    (∀ radix, 2 ≤ radix → radix ≤ 36 → ∀ (b : Chars) (buf : Nat), buf + 33 ≤ b.length →
      (numeral radix v.toNat).length + 1 ≤ 33 ∧
      itoa v.toNat buf radix b =
        some (b.take buf ++ numeral radix v.toNat ++
          0 :: b.drop (buf + (numeral radix v.toNat).length + 1), buf)) ∧
      Prints (bytes "%d") v (signedNumeral (i32 v.toNat)) ∧
      Prints (bytes "%u") v (numeral 10 v.toNat) ∧
      Prints (bytes "%x") v (numeral 16 v.toNat) ∧
      Prints (bytes "%#x") v (paddedHex v.toNat) := by
  refine ⟨fun radix hlow hhigh b buf room => ?_, ?_, ?_, ?_, prints_alternate⟩
  · have hlength := @numeral_length_le radix v.toNat hlow v.toNat_lt
    exact ⟨by omega, itoa_at hlow hhigh v.toNat_lt (by omega)⟩
  · have hbytes : bytes "%d" = [0x25, 0x64] := by decide +kernel
    rw [hbytes]
    apply prints_of_convert (by decide)
    intro args s hv
    rw [convert_d, hv, printD_eq, Option.map_some]
  · have hbytes : bytes "%u" = [0x25, 0x75] := by decide +kernel
    rw [hbytes]
    apply prints_of_convert (by decide)
    intro args s hv
    rw [convert_u, hv, printU_eq, Option.map_some]
  · have hbytes : bytes "%x" = [0x25, 0x78] := by decide +kernel
    rw [hbytes]
    apply prints_of_convert (by decide)
    intro args s hv
    rw [convert_x, hv, printX_eq, Option.map_some]

/-- Arguments that are all the smallest `int32_t`. -/
def minArgs : PrintfArgs where
  word := fun _ => 0x80000000
  memory := fun _ _ => 0
  convBuf := fun _ _ => 0

/-- It is printed with its sign. -/
theorem numbers_exact_min :
    ∃ s, printfRun (cstr (bytes "%d")) minArgs 3 .loop ⟨0, 0, [], coldBoot⟩ = some s ∧
      s.k = coldBoot.puts (bytes "-2147483648") := by
  obtain ⟨-, hprints, -⟩ := numbers_exact 0x80000000
  have htext : signedNumeral (i32 (0x80000000 : UInt32).toNat) = bytes "-2147483648" := by
    decide +kernel
  have hlength : (bytes "%d").length = 2 := by decide +kernel
  have hrun := hprints (cstr (bytes "%d")) minArgs ⟨0, 0, [], coldBoot⟩ rfl
    (by rw [hlength]; decide +kernel) 1
  rw [hlength, htext] at hrun
  exact ⟨_, hrun, rfl⟩

end Mp3Kernel
