import Mp3Kernel.Laws.TextPage
import Mp3Kernel.Lib.Layout

/-!
# The screen shows the tail of the text

`putc` does one of two things: it draws a character and moves on along the row, or it ends
the row, which scrolls the page once the cursor is in the last one. These are the two things
that happen to a window over a layout, so the screen shows the last rows of what was printed.
-/

namespace Mp3Kernel

/-! ## Cells -/

/-- The character and the attribute of a cell. -/
def look (m : Nat → UInt8) (x y : Nat) : UInt8 × UInt8 :=
  (m (flat (cell x y)), m (flat (cell x y + 1)))

theorem flat_cell (x y : Nat) : flat (cell x y) = 2 * (80 * y + x) := by
  unfold flat cell
  omega

theorem flat_cell_succ (x y : Nat) : flat (cell x y + 1) = 2 * (80 * y + x) + 1 := by
  unfold flat cell
  omega

section Cells

variable {m : Nat → UInt8} {x y x' y' : Nat}

/-- A character and its attribute stored in the `n`th cell. -/
theorem look_store (m : Nat → UInt8) (c : UInt8) (n x y : Nat) :
    look (Function.update (Function.update m (2 * n) c) (2 * n + 1) attrib) x y =
      if 80 * y + x = n then (c, attrib) else look m x y := by
  unfold look
  rw [flat_cell, flat_cell_succ]
  by_cases h : 80 * y + x = n
  · subst h
    rw [if_pos rfl, Function.update_self, Function.update_of_ne (by omega), Function.update_self]
  · rw [if_neg h]
    iterate 4 rw [Function.update_of_ne (by omega)]

theorem look_drawCell (hx : x < 80) (hx' : x' < 80) (c : UInt8) :
    look (drawCell flat x y c m) x' y' =
      if x' = x ∧ y' = y then (c, attrib) else look m x' y' := by
  have hcell : 80 * y' + x' = 80 * y + x ↔ x' = x ∧ y' = y := by omega
  unfold drawCell
  rw [flat_cell, flat_cell_succ, look_store]
  simp only [hcell]

/-- What a cell becomes when the page scrolls. -/
def scrolled (m : Nat → UInt8) (x y : Nat) : UInt8 × UInt8 :=
  (if y = 24 then blank else (look m x (y + 1)).1, attrib)

theorem look_scrollCell (hx : x < 80) (hx' : x' < 80) :
    look (scrollCell flat x m y) x' y' =
      if x' = x ∧ y' = y then scrolled m x y else look m x' y' := by
  unfold scrollCell scrolled
  split
  next hlast =>
    have hlast' : y = 24 := hlast
    rw [look_drawCell hx hx', if_pos hlast']
  next hlast =>
    have hlast' : y ≠ 24 := hlast
    rw [look_drawCell hx hx', if_neg hlast']
    rfl

/-- The first `n` turns down a column: each reads the cell the next one will write. -/
theorem look_column (hx : x < 80) (hx' : x' < 80) (n : Nat) :
    look ((List.range n).foldl (scrollCell flat x) m) x' y' =
      if x' = x ∧ y' < n then scrolled m x y' else look m x' y' := by
  induction n generalizing x' y' with
  | zero => simp
  | succ n ih =>
    rw [List.range_succ, List.foldl_append, List.foldl_cons, List.foldl_nil, look_scrollCell hx hx']
    have hbelow : scrolled ((List.range n).foldl (scrollCell flat x) m) x n = scrolled m x n := by
      unfold scrolled
      have hnext : ¬ (x = x ∧ n + 1 < n) := by omega
      rw [ih hx, if_neg hnext]
    by_cases hn : x' = x ∧ y' = n
    · rw [if_pos hn, if_pos (by omega), hbelow, hn.2]
    · rw [if_neg hn, ih hx']
      by_cases hlt : x' = x ∧ y' < n
      · rw [if_pos hlt, if_pos (by omega)]
      · rw [if_neg hlt, if_neg (by omega)]

/-- The first `n` columns. -/
theorem look_columns (hx' : x' < 80) (hy' : y' < 25) {n : Nat} (hn : n ≤ 80) :
    look ((List.range n).foldl (scrollColumn flat) m) x' y' =
      if x' < n then scrolled m x' y' else look m x' y' := by
  induction n generalizing x' y' with
  | zero => simp
  | succ n ih =>
    rw [List.range_succ, List.foldl_append, List.foldl_cons, List.foldl_nil, scrollColumn,
      look_column (by omega) hx']
    by_cases heq : x' = n
    · subst heq
      have hsame : scrolled ((List.range x').foldl (scrollColumn flat) m) x' y' =
          scrolled m x' y' := by
        unfold scrolled
        split
        · rfl
        · rw [ih hx' (by omega) (by omega), if_neg (by omega)]
      rw [if_pos ⟨rfl, hy'⟩, if_pos (by omega), hsame]
    · rw [if_neg (by omega), ih hx' hy' (by omega)]
      by_cases hlt : x' < n
      · rw [if_pos hlt, if_pos (by omega)]
      · rw [if_neg hlt, if_neg (by omega)]

/-- The whole scroll. -/
theorem look_scroll (hx : x < 80) (hy : y < 25) : look (scroll flat m) x y = scrolled m x y := by
  have h := @look_columns m x y hx hy 80 (by omega)
  rwa [if_pos hx] at h

/-! ## The window over the layout -/

/-- The page shows the rows of a layout. -/
def Shows (L : Layout UInt8) (m : Nat → UInt8) : Prop :=
  ∀ x y, x < 80 → y < 25 → look m x y = ((L.shown 25 y).getD x blank, attrib)

variable {L : Layout UInt8}

theorem getD_snoc (row : List UInt8) (c : UInt8) (x : Nat) :
    (row ++ [c]).getD x blank = if x = row.length then c else row.getD x blank := by
  rcases Nat.lt_trichotomy x row.length with hlt | heq | hgt
  · rw [if_neg (by omega), List.getD_append _ _ _ _ hlt]
  · rw [if_pos heq, heq, List.getD_append_right _ _ _ _ (Nat.le_refl _), Nat.sub_self]
    rfl
  · rw [if_neg (by omega), List.getD_eq_default _ _ (by simp; omega),
      List.getD_eq_default _ _ (by omega)]

/-- A character drawn at the end of the current row. -/
theorem Shows.type (S : Shows L m) (room : L.current.length < 80) (c : UInt8) :
    Shows (L.type c) (drawCell flat L.current.length (L.cursorRow 25) c m) := by
  intro x y hx hy
  rw [look_drawCell room hx, Layout.shown_type (by decide)]
  by_cases hrow : y = L.cursorRow 25
  · have hcurrent : L.shown 25 y = L.current := by
      rw [Layout.shown_cases (by decide), if_neg (by omega), if_pos hrow]
    rw [if_pos hrow, getD_snoc]
    by_cases hcol : x = L.current.length
    · rw [if_pos ⟨hcol, hrow⟩, if_pos hcol]
    · rw [if_neg (fun h => hcol h.1), if_neg hcol, S x y hx hy, hcurrent]
  · rw [if_neg (fun h => hrow h.2), if_neg hrow, S x y hx hy]

/-- The row ends above the last row of the screen. -/
theorem Shows.endRow (S : Shows L m) (room : L.rows.length < 25) : Shows L.endRow m := by
  intro x y hx hy
  rw [Layout.shown_endRow, if_pos room]
  exact S x y hx hy

/-- The row ends in the last row of the screen. -/
theorem Shows.scroll (S : Shows L m) (full : 25 ≤ L.rows.length) :
    Shows L.endRow (scroll flat m) := by
  intro x y hx hy
  rw [look_scroll hx hy, Layout.shown_endRow, if_neg (by omega), scrolled]
  split
  next hlast =>
    -- nothing is shown below the window
    have hcursor : L.cursorRow 25 = 24 := by
      unfold Layout.cursorRow
      omega
    rw [Layout.shown_cases (by decide), if_neg (by omega), if_neg (by omega)]
    rfl
  next hlast => rw [S x (y + 1) hx (by omega)]

end Cells

/-! ## `putc` -/

/-- The page and the cursor are a window over a layout. -/
structure Tail (L : Layout UInt8) (s : Pen) : Prop where
  width : L.current.length < 80
  x : s.x = L.current.length
  y : s.y = L.cursorRow 25
  cells : Shows L s.mem

/-- The two ways `putc` ends a row. -/
def Pen.endRow (pm : PageMap) (m : Nat → UInt8) (y : Int) : Pen :=
  if y = 24 then ⟨scroll pm m, 0, y⟩ else ⟨m, 0, y + 1⟩

section Put

variable {pm : PageMap} {s : Pen} {c : UInt8} {L : Layout UInt8}

theorem Pen.put_endRow (h : endsRow c) : Pen.put pm c s = Pen.endRow pm s.mem s.y := by
  unfold Pen.put Pen.endRow
  by_cases hy : s.y = 24
  · simp [h, hy]
  · simp [h, hy]

/-- The character that fills a row. -/
theorem Pen.put_last (plain : c ≠ backspace) (h : ¬ endsRow c) (hx : s.x = 79) :
    Pen.put pm c s = Pen.endRow pm (drawCell pm s.x s.y c s.mem) s.y := by
  unfold Pen.put Pen.endRow
  by_cases hy : s.y = 24
  · simp [h, hx, hy]
  · simp [h, hx, hy, plain]

theorem Pen.put_type (plain : c ≠ backspace) (h : ¬ endsRow c) (hx : 0 ≤ s.x ∧ s.x < 79)
    (hy : 0 ≤ s.y ∧ s.y < 25) :
    Pen.put pm c s = ⟨drawCell pm s.x s.y c s.mem, s.x + 1, s.y⟩ := by
  obtain ⟨hcol, hrow⟩ := next_column hx hy
  have hne : s.x ≠ 79 := by omega
  have hput : Pen.put pm c s = ⟨drawCell pm s.x s.y c s.mem, (s.x + 1).tmod numCols,
      (s.y + ((s.x + 1).tmod numCols).tdiv numCols).tmod numRows⟩ := by
    unfold Pen.put
    simp [h, plain, hne]
  rw [hput, hrow, hcol]

/-- A row that ends, in the window. -/
theorem Shows.endRowPen {m : Nat → UInt8} (S : Shows L m) {y : Int} (hy : y = L.cursorRow 25) :
    Tail L.endRow (Pen.endRow flat m y) := by
  have hlength := L.rows_length
  have hcursor : L.endRow.cursorRow 25 = min 25 (L.rows.length + 1) - 1 := by
    unfold Layout.cursorRow
    rw [Layout.rows_length_endRow]
  unfold Layout.cursorRow at hy
  unfold Pen.endRow
  split
  next hlast => exact ⟨by simp [Layout.endRow], rfl, by dsimp only; omega, S.scroll (by omega)⟩
  next hlast => exact ⟨by simp [Layout.endRow], rfl, by dsimp only; omega, S.endRow (by omega)⟩

theorem Tail.inRange (T : Tail L s) : s.InRange := by
  obtain ⟨hwidth, hx, hy, _⟩ := T
  unfold Layout.cursorRow at hy
  unfold Pen.InRange
  omega

/-- What one character preserves. -/
theorem Tail.put (T : Tail L s) (plain : c ≠ backspace) :
    Tail (L.put endsRow 80 c) (Pen.put flat c s) := by
  obtain ⟨_, _, hy⟩ := T.inRange
  have hx := T.x
  have hwidth := T.width
  have htype : Shows (L.type c) (drawCell flat s.x s.y c s.mem) := by
    rw [hx, T.y]
    exact T.cells.type hwidth c
  have hcursor : (L.type c).cursorRow 25 = L.cursorRow 25 := by
    unfold Layout.cursorRow
    rw [Layout.rows_length_type]
  have hlength : (L.type c).current.length = L.current.length + 1 := by simp [Layout.type]
  unfold Layout.put
  by_cases hends : endsRow c
  · rw [if_pos hends, Pen.put_endRow hends]
    exact T.cells.endRowPen T.y
  · rw [if_neg hends]
    by_cases hfull : L.current.length + 1 = 80
    · rw [if_pos hfull, Pen.put_last plain hends (by omega)]
      exact htype.endRowPen (by rw [hcursor]; exact T.y)
    · rw [if_neg hfull, Pen.put_type plain hends (by omega) hy]
      refine ⟨by omega, ?_, ?_, htype⟩
      · rw [hlength, hx]
        rfl
      · rw [hcursor]
        exact T.y

/-- What a text preserves. -/
theorem Tail.puts (T : Tail L s) {text : List UInt8} (plain : backspace ∉ text) :
    Tail (text.foldl (Layout.put endsRow 80) L) (text.foldl (fun s c => Pen.put flat c s) s) := by
  induction text generalizing L s with
  | nil => exact T
  | cons c text ih =>
    have hc : c ≠ backspace := fun heq => plain (heq ▸ List.mem_cons_self)
    exact ih (T.put hc) fun htext => plain (List.mem_cons_of_mem _ htext)

end Put

/-! ## `clear` -/

theorem Drawn.clearCell {pm : PageMap} {base : Nat} {m₀ m page : Nat → UInt8}
    (D : Drawn base m₀ m page) (W : Window pm base) {i : Nat} (hi : i < 2000) :
    Drawn base m₀ (Kernel.clearCell pm m i) (Kernel.clearCell flat page i) :=
  (D.update W (by omega) (by omega) blank).update W (by omega) (by omega) attrib

theorem Drawn.clear {pm : PageMap} {base : Nat} {m₀ m page : Nat → UInt8}
    (D : Drawn base m₀ m page) (W : Window pm base) {n : Nat} (hn : n ≤ 2000) :
    Drawn base m₀ ((List.range n).foldl (Kernel.clearCell pm) m)
      ((List.range n).foldl (Kernel.clearCell flat) page) :=
  List.foldl_rel D fun _ hi _ _ D => D.clearCell W (by have := List.mem_range.mp hi; omega)

/-- The first `n` cells cleared. -/
theorem look_clear {m : Nat → UInt8} {x y n : Nat} (h : 80 * y + x < n) :
    look ((List.range n).foldl (Kernel.clearCell flat) m) x y = (blank, attrib) := by
  induction n with
  | zero => omega
  | succ n ih =>
    have hchar : flat (2 * n) = 2 * n := by
      unfold flat
      omega
    have hattr : flat (2 * n + 1) = 2 * n + 1 := by
      unfold flat
      omega
    rw [List.range_succ, List.foldl_append, List.foldl_cons, List.foldl_nil, Kernel.clearCell,
      hchar, hattr, look_store]
    split
    · rfl
    · exact ih (by omega)

/-- A page cleared. -/
def clearPage (page : Nat → UInt8) : Nat → UInt8 :=
  (List.range (numRows * numCols)).foldl (Kernel.clearCell flat) page

/-- `clear` is a drawing on the page mapped. -/
theorem Kernel.clear_drawn (k : Kernel) :
    Drawn k.screenBase k.mem k.clear.mem (clearPage (onPage k.screenBase k.mem)) := by
  have hwindow : Window (k.pageAt videoAddr) k.screenBase := Mmu.window _ (by decide) rfl
  rw [Kernel.clear]
  dsimp only
  exact (Drawn.start k.screenBase k.mem).clear hwindow (by decide)

/-- `clear` blanks every cell of the screen. -/
theorem look_screen_clear (k : Kernel) {x y : Nat} (hx : x < 80) (hy : y < 25) :
    look k.clear.screen.mem x y = (blank, attrib) := by
  have hcell : 80 * y + x < numRows * numCols := by
    show 80 * y + x < 2000
    omega
  show look (onPage k.screenBase k.clear.mem) x y = _
  rw [k.clear_drawn.page, clearPage, look_clear hcell]

/-- After `reset_screen` nothing has been printed. -/
theorem resetScreen_tail (k : Kernel) : Tail ⟨[], []⟩ k.resetScreen.screen := by
  refine ⟨by decide, rfl, rfl, fun x y hx hy => ?_⟩
  rw [Layout.shown_nil]
  exact look_screen_clear _ hx hy

/-- After `reset_screen`, the screen shows the last rows of the text printed, at most 25 of
them, with blanks after each and below; every attribute is `ATTRIB`; and the cursor is at the
end of the last row. -/
theorem console_shows_tail (k : Kernel) {text : List UInt8} (plain : backspace ∉ text) :
    let k' := k.resetScreen.puts text
    let L := Layout.ofText endsRow 80 text
    (∀ x y : Nat, x < 80 → y < 25 →
        k'.mem (k'.pageAt videoAddr (cell x y)) = ((L.lastRows 25).getD y []).getD x blank ∧
        k'.mem (k'.pageAt videoAddr (cell x y + 1)) = attrib) ∧
      k'.con.screenX = L.current.length ∧ k'.con.screenY = (min 25 L.rows.length - 1 : Nat) := by
  intro k' L
  have T₀ := resetScreen_tail k
  have T : Tail L k'.screen := by
    show Tail L (k.resetScreen.puts text).screen
    rw [Kernel.puts_screen T₀.inRange]
    exact T₀.puts plain
  let base := (k'.mmu.pageTable (ptIndex videoAddr)).pageBaseAddr * 4096
  have hwindow : Window (k'.pageAt videoAddr) base := Mmu.window _ (by decide) rfl
  have D := Drawn.start base k'.mem
  refine ⟨fun x y hx hy => ?_, T.x, T.y⟩
  obtain ⟨lo, hi⟩ : 0 ≤ cell x y ∧ cell x y + 1 < 4000 := cell_range (by omega) (by omega)
  obtain ⟨hchar, hattr⟩ := Prod.mk.inj (T.cells x y hx hy)
  exact ⟨(D.load hwindow lo (by omega)).trans hchar,
    (D.load hwindow (by omega) (by omega)).trans hattr⟩

/-- Two rows: `A`, and `B` with the cursor after it. -/
theorem console_shows_tail_rows :
    let k' := coldBoot.resetScreen.puts [0x41, newline, 0x42]
    (∀ x y : Nat, x < 80 → y < 25 →
        k'.mem (k'.pageAt videoAddr (cell x y)) =
            (([[0x41], [0x42]] : List (List UInt8)).getD y []).getD x blank ∧
          k'.mem (k'.pageAt videoAddr (cell x y + 1)) = attrib) ∧
      k'.con.screenX = 1 ∧ k'.con.screenY = 1 := by
  have plain : backspace ∉ ([0x41, newline, 0x42] : List UInt8) := by decide
  exact console_shows_tail coldBoot plain

end Mp3Kernel
