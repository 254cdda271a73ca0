import Mp3Kernel.Laws.Screen

/-!
# Taking characters back

Read row by row the screen is one line of 2000 cells. A character is drawn in the cell the
cursor is at and moves it to the next, and a backspace moves it to the cell before and blanks
that: each undoes the other in every cell but the last, where the cursor is tested before the
character is looked at and a backspace is drawn like any other byte.
-/

namespace Mp3Kernel

/-! ## The cursor as a number of cells -/

/-- The cursor is at the `p`th cell. -/
def Pen.At (s : Pen) (p : Nat) : Prop := s.x = (p % 80 : Nat) ∧ s.y = (p / 80 : Nat)

theorem Pen.At.inRange {s : Pen} {p : Nat} (A : s.At p) (hp : p < 2000) : s.InRange := by
  obtain ⟨hx, hy⟩ := A
  unfold Pen.InRange
  omega

/-- Every cursor on the screen is at one. -/
theorem Pen.InRange.at {s : Pen} (R : s.InRange) : ∃ p < 2000, s.At p := by
  obtain ⟨hx, hx', hy, hy'⟩ := R
  refine ⟨(80 * s.y + s.x).toNat, by omega, ?_, ?_⟩ <;> omega

theorem Pen.At.unique {s : Pen} {p q : Nat} (hp : s.At p) (hq : s.At q) : p = q := by
  obtain ⟨hx, hy⟩ := hp
  obtain ⟨hx', hy'⟩ := hq
  omega

/-- The cell of a number, drawn. -/
theorem look_drawAt {s : Pen} {p : Nat} (A : s.At p) {x y : Nat} (hx : x < 80) (c : UInt8) :
    look (drawCell flat s.x s.y c s.mem) x y =
      if 80 * y + x = p then (c, attrib) else look s.mem x y := by
  rw [A.1, A.2, look_drawCell (Nat.mod_lt p (by decide)) hx]
  refine if_congr ?_ rfl rfl
  omega

/-- A byte that is drawn as it is: neither a backspace nor the end of a row. -/
def PlainByte (c : UInt8) : Prop := c ≠ backspace ∧ endsRow c = false

instance (c : UInt8) : Decidable (PlainByte c) := inferInstanceAs (Decidable (_ ∧ _))

/-! ## One byte -/

section Put

variable {s : Pen} {p : Nat} {c : UInt8}

/-- A character, before the last cell. -/
theorem Pen.At.put (A : s.At p) (hp : p < 1999) (plain : PlainByte c) :
    (Pen.put flat c s).mem = drawCell flat s.x s.y c s.mem ∧ (Pen.put flat c s).At (p + 1) := by
  obtain ⟨hx, hy⟩ := A
  obtain ⟨hback, hends⟩ := plain
  by_cases hlast : s.x = 79
  · have hrow : s.y ≠ 24 := by omega
    rw [Pen.put_last hback (by simp [hends]) hlast, Pen.endRow, if_neg hrow]
    refine ⟨rfl, ?_, ?_⟩ <;> dsimp only <;> omega
  · rw [Pen.put_type hback (by simp [hends]) (by omega) (by omega)]
    refine ⟨rfl, ?_, ?_⟩ <;> dsimp only <;> omega

/-- A backspace, after the first cell and before the last. -/
theorem Pen.At.back (A : s.At (p + 1)) (hp : p + 1 < 1999) :
    (∀ x y, x < 80 → look (Pen.put flat backspace s).mem x y =
      if 80 * y + x = p then (blank, attrib) else look s.mem x y) ∧
      (Pen.put flat backspace s).At p := by
  obtain ⟨hx, hy⟩ := A
  have hends : endsRow backspace = false := by decide
  have hcorner : ¬ (s.x = 79 ∧ s.y = 24) := by omega
  by_cases hedge : s.x = 0
  · have hhome : s.y ≠ 0 := by omega
    have hput : Pen.put flat backspace s =
        ⟨drawCell flat 79 (s.y - 1) blank s.mem, 79, s.y - 1⟩ := by
      unfold Pen.put
      simp [hends, hedge, hhome]
    rw [hput]
    have A' : Pen.At ⟨s.mem, 79, s.y - 1⟩ p := ⟨by dsimp only; omega, by dsimp only; omega⟩
    exact ⟨fun x y hx => look_drawAt A' hx blank, A'⟩
  · have hput : Pen.put flat backspace s =
        ⟨drawCell flat (s.x - 1) s.y blank s.mem, s.x - 1, s.y⟩ := by
      unfold Pen.put
      simp [hends, hedge, hcorner]
    rw [hput]
    have A' : Pen.At ⟨s.mem, s.x - 1, s.y⟩ p := ⟨by dsimp only; omega, by dsimp only; omega⟩
    exact ⟨fun x y hx => look_drawAt A' hx blank, A'⟩

theorem Pen.At.back_home (A : s.At 0) : Pen.put flat backspace s = s := by
  obtain ⟨hx, hy⟩ := A
  have hx' : s.x = 0 := hx
  have hy' : s.y = 0 := hy
  have hends : endsRow backspace = false := by decide
  unfold Pen.put
  simp [hends, hx', hy']

/-- In the last cell a backspace is drawn, and the screen scrolls. -/
theorem Pen.At.back_corner (A : s.At 1999) :
    (Pen.put flat backspace s).mem = scroll flat (drawCell flat s.x s.y backspace s.mem) ∧
      (Pen.put flat backspace s).At 1920 := by
  obtain ⟨hx, hy⟩ := A
  have hx' : s.x = 79 := hx
  have hy' : s.y = 24 := hy
  have hends : endsRow backspace = false := by decide
  have hput : Pen.put flat backspace s =
      ⟨scroll flat (drawCell flat s.x s.y backspace s.mem), 0, s.y⟩ := by
    unfold Pen.put
    simp [hends, hx', hy']
  rw [hput]
  exact ⟨rfl, rfl, hy'⟩

end Put

/-! ## Texts -/

/-- Bytes printed one after the other. -/
def Pen.puts (text : List UInt8) (s : Pen) : Pen := text.foldl (fun s c => Pen.put flat c s) s

section Puts

variable {s : Pen} {p q : Nat} {text : List UInt8}

/-- A text that ends before the cursor leaves the page. -/
theorem Pen.At.puts (A : s.At p) (plain : ∀ c ∈ text, PlainByte c)
    (room : p + text.length ≤ 1999) :
    (s.puts text).At (p + text.length) ∧ ∀ x y, x < 80 →
      ¬ (p ≤ 80 * y + x ∧ 80 * y + x < p + text.length) →
        look (s.puts text).mem x y = look s.mem x y := by
  induction text generalizing s p with
  | nil => exact ⟨A, fun _ _ _ _ => rfl⟩
  | cons c text ih =>
    rw [List.length_cons] at room ⊢
    obtain ⟨hmem, A'⟩ := A.put (by omega) (plain c List.mem_cons_self)
    obtain ⟨hat, hkept⟩ := ih A' (fun d hd => plain d (List.mem_cons_of_mem c hd)) (by omega)
    refine ⟨?_, fun x y hx hout => ?_⟩
    · rwa [show p + (text.length + 1) = p + 1 + text.length by omega]
    · have hcell := hkept x y hx (by omega)
      rw [hmem, look_drawAt A hx, if_neg (by omega)] at hcell
      exact hcell

/-- Backspaces from anywhere but the last cell: they blank what they pass, and stop at home. -/
theorem Pen.At.backs (A : s.At q) (hq : q < 1999) (n : Nat) :
    (s.puts (List.replicate n backspace)).At (q - n) ∧ ∀ x y, x < 80 →
      look (s.puts (List.replicate n backspace)).mem x y =
        if q - n ≤ 80 * y + x ∧ 80 * y + x < q then (blank, attrib) else look s.mem x y := by
  induction n generalizing s q with
  | zero => exact ⟨A, fun x y _ => (if_neg (by omega)).symm⟩
  | succ n ih =>
    have hputs : s.puts (List.replicate (n + 1) backspace) =
        (Pen.put flat backspace s).puts (List.replicate n backspace) := rfl
    rw [hputs]
    cases q with
    | zero =>
      rw [A.back_home, Nat.zero_sub]
      have hrest := ih A hq
      rwa [Nat.zero_sub] at hrest
    | succ q =>
      obtain ⟨hcell, A'⟩ := A.back hq
      obtain ⟨hat, hlook⟩ := ih A' (by omega)
      rw [Nat.add_sub_add_right]
      refine ⟨hat, fun x y hx => (hlook x y hx).trans ?_⟩
      rw [hcell x y hx]
      split_ifs <;> first | rfl | omega

/-- From the last cell the first backspace scrolls the page, and the others go on from the
beginning of its last row. -/
theorem Pen.At.backs_corner (A : s.At 1999) (n : Nat) :
    (s.puts (List.replicate (n + 1) backspace)).At (1920 - n) ∧
      ∀ x y, x < 80 → y < 25 → 1920 - n ≤ 80 * y + x → (80 * y + x < 1920 ∨ y = 24) →
        look (s.puts (List.replicate (n + 1) backspace)).mem x y = (blank, attrib) := by
  obtain ⟨hmem, A'⟩ := A.back_corner
  obtain ⟨hat, hlook⟩ := A'.backs (by omega) n
  refine ⟨hat, fun x y hx hy hlo hblank => (hlook x y hx).trans ?_⟩
  split_ifs with hpassed
  · rfl
  · -- the last row is blank since the scroll
    have hlast : y = 24 := by omega
    rw [hmem, look_scroll hx hy, scrolled, if_pos hlast]

end Puts

/-! ## Printing and taking back -/

/-- The number of the cell the cursor is at. -/
def cursorCell (k : Kernel) : Int := 80 * k.con.screenY + k.con.screenX

/-- No character of the text is printed in the last cell, which would scroll the screen. -/
def PrintsInPlace (text : List UInt8) (k : Kernel) : Prop :=
  ∀ p c, p ++ [c] <+: text → ¬ ((k.puts p).con.screenX = 79 ∧ (k.puts p).con.screenY = 24)

/-- The text, and a backspace for each of its characters. -/
def printAndErase (text : List UInt8) (k : Kernel) : Kernel :=
  (k.puts text).puts (List.replicate text.length backspace)

/-- The cursor is back, the cells written are blank, and the others as they were. -/
structure TakenBack (text : List UInt8) (k : Kernel) : Prop where
  cursor : (printAndErase text k).con.screenX = k.con.screenX ∧
    (printAndErase text k).con.screenY = k.con.screenY
  written : ∀ x y : Nat, x < 80 → y < 25 →
    cursorCell k ≤ 80 * y + x → (80 * y + x : Int) < cursorCell k + text.length →
      look (printAndErase text k).screen.mem x y = (blank, attrib)
  others : ∀ x y : Nat, x < 80 → y < 25 →
    ¬ (cursorCell k ≤ 80 * y + x ∧ (80 * y + x : Int) < cursorCell k + text.length) →
      look (printAndErase text k).screen.mem x y = look k.screen.mem x y

section TakeBack

variable {k : Kernel} {text : List UInt8} {p : Nat}

theorem Kernel.puts_at (A : k.screen.At p) (plain : ∀ c ∈ text, PlainByte c)
    (room : p + text.length ≤ 1999) :
    (k.puts text).screen = k.screen.puts text ∧ (k.puts text).screen.At (p + text.length) := by
  have hscreen : (k.puts text).screen = k.screen.puts text :=
    k.puts_screen (A.inRange (by omega)) text
  rw [hscreen]
  exact ⟨rfl, (A.puts plain room).1⟩

theorem Pen.At.corner_iff {s : Pen} {p : Nat} (A : s.At p) : s.x = 79 ∧ s.y = 24 ↔ p = 1999 := by
  obtain ⟨hx, hy⟩ := A
  omega

/-- A text prints in place just when it ends on the page. -/
theorem printsInPlace_iff (A : k.screen.At p) (hp : p < 2000) (plain : ∀ c ∈ text, PlainByte c) :
    PrintsInPlace text k ↔ p + text.length ≤ 1999 ∨ text = [] := by
  have hprefix : ∀ q, q <+: text → p + q.length ≤ 1999 → (k.puts q).screen.At (p + q.length) :=
    fun q hq room => (Kernel.puts_at A (fun c hc => plain c (hq.subset hc)) room).2
  constructor
  · intro inPlace
    by_contra hlong
    rw [not_or] at hlong
    have hlen : 1999 - p < text.length := by
      have := List.length_pos_of_ne_nil hlong.2
      omega
    -- the character that is printed in the last cell
    have hsnoc : text.take (1999 - p) ++ [text[1999 - p]] <+: text := by
      rw [← List.take_succ_eq_append_getElem hlen]
      exact List.take_prefix _ _
    have hlast := hprefix (text.take (1999 - p)) (List.take_prefix _ _) (by
      rw [List.length_take]
      omega)
    rw [List.length_take] at hlast
    exact inPlace _ _ hsnoc (hlast.corner_iff.mpr (by omega))
  · rintro hroom q c hq hcorner
    have hlen := hq.length_le
    rw [List.length_append, List.length_singleton] at hlen
    rcases hroom with hroom | rfl
    · have hat := hprefix q ((List.prefix_append q [c]).trans hq) (by omega)
      have := hat.corner_iff.mp hcorner
      omega
    · exact absurd hlen (by simp)

theorem Pen.At.cursorCell (A : k.screen.At p) : Mp3Kernel.cursorCell k = p := by
  obtain ⟨hx, hy⟩ := A
  have hx' : k.con.screenX = (p % 80 : Nat) := hx
  have hy' : k.con.screenY = (p / 80 : Nat) := hy
  unfold Mp3Kernel.cursorCell
  omega

theorem printAndErase_screen (A : k.screen.At p) (plain : ∀ c ∈ text, PlainByte c)
    (room : p + text.length ≤ 1999) :
    (printAndErase text k).screen =
      (k.screen.puts text).puts (List.replicate text.length backspace) := by
  obtain ⟨hscreen, hat⟩ := Kernel.puts_at A plain room
  have herase := (k.puts text).puts_screen (hat.inRange (by omega))
    (List.replicate text.length backspace)
  rw [hscreen] at herase
  exact herase

/-- Short of the last cell every character is taken back. -/
theorem takenBack_of_room (A : k.screen.At p) (plain : ∀ c ∈ text, PlainByte c)
    (room : p + text.length < 1999) : TakenBack text k := by
  have hscreen := printAndErase_screen A plain (Nat.le_of_lt room)
  obtain ⟨hprinted, hkept⟩ := A.puts plain (Nat.le_of_lt room)
  obtain ⟨hat, hlook⟩ := hprinted.backs room text.length
  rw [Nat.add_sub_cancel] at hat hlook
  rw [← hscreen] at hat hlook
  have hcell := A.cursorCell
  refine ⟨⟨hat.1.trans A.1.symm, hat.2.trans A.2.symm⟩, fun x y hx _ hlo hhi => ?_,
    fun x y hx _ hout => ?_⟩
  · rw [hlook x y hx, if_pos (by omega)]
  · rw [hlook x y hx, if_neg (by omega)]
    exact hkept x y hx (by omega)

/-- At the last cell it is not, unless the whole page was written before and the scroll makes
no difference to the cell itself. -/
theorem takenBack_corner_iff (A : k.screen.At p) (plain : ∀ c ∈ text, PlainByte c)
    (nonempty : text ≠ []) (full : p + text.length = 1999) :
    TakenBack text k ↔ p = 0 ∧ look k.screen.mem 79 24 = (blank, attrib) := by
  obtain ⟨n, hn⟩ : ∃ n, text.length = n + 1 :=
    Nat.exists_eq_succ_of_ne_zero fun h => nonempty (List.eq_nil_of_length_eq_zero h)
  have hscreen := printAndErase_screen A plain (Nat.le_of_eq full)
  obtain ⟨hprinted, -⟩ := A.puts plain (Nat.le_of_eq full)
  rw [full] at hprinted
  obtain ⟨hat, hlook⟩ := hprinted.backs_corner n
  rw [hn] at hscreen
  rw [← hscreen] at hat hlook
  have hcell := A.cursorCell
  constructor
  · intro T
    have hback : (printAndErase text k).screen.At p :=
      ⟨T.cursor.1.trans A.1, T.cursor.2.trans A.2⟩
    -- the cursor has gone back from cell 1920 and not from 1999
    have hp := hback.unique hat
    refine ⟨by omega, ?_⟩
    rw [← T.others 79 24 (by decide) (by decide) (by omega)]
    exact hlook 79 24 (by decide) (by decide) (by omega) (.inr rfl)
  · rintro ⟨rfl, hlast⟩
    have hhome : 1920 - n = 0 := by omega
    rw [hhome] at hat hlook
    refine ⟨⟨hat.1.trans A.1.symm, hat.2.trans A.2.symm⟩, fun x y hx hy _ _ => ?_,
      fun x y hx hy hout => ?_⟩
    · exact hlook x y hx hy (Nat.zero_le _) (by omega)
    · -- the only cell not written is the last
      obtain ⟨rfl, rfl⟩ : x = 79 ∧ y = 24 := by omega
      rw [hlook 79 24 hx hy (Nat.zero_le _) (.inr rfl), hlast]

/-- A text printed in place is taken back by as many backspaces, unless it brings the cursor to
the last cell; and even then if it fills the whole page before that and the last cell was
blank. -/
theorem backspaces_takeBack_iff {k : Kernel} {text : List UInt8} (onScreen : k.screen.InRange)
    (plain : ∀ c ∈ text, PlainByte c) (inPlace : PrintsInPlace text k) :
    TakenBack text k ↔
      text = [] ∨ cursorCell k + text.length ≠ 1999 ∨
        (cursorCell k = 0 ∧ look k.screen.mem 79 24 = (blank, attrib)) := by
  obtain ⟨p, hp, A⟩ := onScreen.at
  rw [A.cursorCell]
  by_cases hempty : text = []
  · subst hempty
    exact iff_of_true ⟨⟨rfl, rfl⟩, fun _ _ _ _ hlo hhi => absurd hhi (by simp; omega),
      fun _ _ _ _ _ => rfl⟩ (.inl rfl)
  · have hroom := ((printsInPlace_iff A hp plain).mp inPlace).resolve_right hempty
    by_cases hfull : p + text.length = 1999
    · rw [takenBack_corner_iff A plain hempty hfull]
      have hone : ¬ ((p : Int) + text.length ≠ 1999) := not_not.mpr (by omega)
      rw [or_iff_right hempty, or_iff_right hone]
      exact and_congr_left' Int.natCast_eq_zero.symm
    · exact iff_of_true (takenBack_of_room A plain (by omega)) (.inr (.inl (by omega)))

end TakeBack

/-- A machine with the cursor at a position of an empty screen. -/
def cursorAt (x y : Int) : Kernel :=
  { coldBoot with con := { coldBoot.con with screenX := x, screenY := y } }

/-- Three characters over the end of a row. -/
theorem backspaces_takeBack_row : TakenBack [0x41, 0x42, 0x43] (cursorAt 78 3) := by
  have A : (cursorAt 78 3).screen.At 318 := ⟨rfl, rfl⟩
  have hplain : ∀ c ∈ ([0x41, 0x42, 0x43] : List UInt8), PlainByte c := by decide +kernel
  have inPlace := (printsInPlace_iff A (by decide) hplain).mpr (.inl (by decide))
  exact (backspaces_takeBack_iff (A.inRange (by decide)) hplain inPlace).mpr
    (.inr (.inl (by decide)))

/-- A character printed in the last cell but one: the backspace after it scrolls the screen. -/
theorem backspaces_takeBack_corner :
    (cursorAt 78 24).screen.InRange ∧ (∀ c ∈ ([0x41] : List UInt8), PlainByte c) ∧
      PrintsInPlace [0x41] (cursorAt 78 24) ∧ ¬ TakenBack [0x41] (cursorAt 78 24) := by
  have A : (cursorAt 78 24).screen.At 1998 := ⟨rfl, rfl⟩
  have hplain : ∀ c ∈ ([0x41] : List UInt8), PlainByte c := by decide +kernel
  refine ⟨A.inRange (by decide), hplain,
    (printsInPlace_iff A (by decide) hplain).mpr (.inl (by decide)), fun T => ?_⟩
  have hhome := ((takenBack_corner_iff A hplain (List.cons_ne_nil _ _) rfl).mp T).1
  exact absurd hhome (by decide)

end Mp3Kernel
