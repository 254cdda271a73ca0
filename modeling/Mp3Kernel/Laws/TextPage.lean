import Mp3Kernel.Kernel.Machine
import Mathlib.Tactic.SplitIfs

/-!
# Drawing on one text page

The shared body of `putc` and `putct` sees its page through a map of addresses. When that map
is a window onto 4096 consecutive bytes, as every map the page tables give is, the routine
does to those bytes what it would do to a page at address 0, and touches no other byte.
-/

namespace Mp3Kernel

/-- The bytes of a page. -/
def onPage (base : Nat) (mem : Nat → UInt8) : Nat → UInt8 :=
  fun off => if off < 4096 then mem (base + off) else 0

/-- The map sends the offsets of a page to consecutive addresses. -/
def Window (pm : PageMap) (base : Nat) : Prop :=
  ∀ off : Int, 0 ≤ off → off < 4096 → pm off = base + off.toNat

/-- The map of a page that is at address 0. -/
def flat : PageMap := Int.toNat

/-- The cursor is on the screen. -/
def Pen.InRange (s : Pen) : Prop := 0 ≤ s.x ∧ s.x < 80 ∧ 0 ≤ s.y ∧ s.y < 25

/-- The page and the cursor on it. -/
def Pen.onPage (base : Nat) (s : Pen) : Pen := ⟨Mp3Kernel.onPage base s.mem, s.x, s.y⟩

/-- Two memories show the same page just when they agree on its addresses. -/
theorem onPage_eq_iff {base : Nat} {m m' : Nat → UInt8} :
    onPage base m' = onPage base m ↔ ∀ a, base ≤ a → a < base + 4096 → m' a = m a := by
  constructor
  · intro same a lo hi
    obtain ⟨off, rfl⟩ := Nat.exists_eq_add_of_le lo
    have hoff : off < 4096 := by omega
    have hcell := congrFun same off
    unfold onPage at hcell
    rwa [if_pos hoff, if_pos hoff] at hcell
  · intro same
    funext off
    unfold onPage
    split
    · exact same _ (by omega) (by omega)
    · rfl

/-! ## Windows -/

/-- A page table maps a page to consecutive addresses. -/
theorem Mmu.window (m : Mmu) {va : Nat} (aligned : va % 4096 = 0) {base : Nat}
    (frame : (m.pageTable (ptIndex va)).pageBaseAddr * 4096 = base) :
    Window (fun off => m.kernelAddr (va + off)) base := by
  intro off lo hi
  show m.kernelAddr (va + off) = base + off.toNat
  unfold Mmu.kernelAddr
  have hpage : ptIndex ((va : Int) + off).toNat = ptIndex va := by
    unfold ptIndex
    omega
  rw [hpage, frame]
  omega

/-- The cell of a position on the screen lies in the page, its attribute with it. -/
theorem cell_range {x y : Int} (hx : 0 ≤ x ∧ x < 80) (hy : 0 ≤ y ∧ y < 25) :
    0 ≤ cell x y ∧ cell x y + 1 < 4000 := by
  unfold cell
  omega

/-! ## The routine through a window -/

/-- After some drawing on a page, starting from memory `m₀`: what the page holds, and that
the rest is as it was. -/
structure Drawn (base : Nat) (m₀ m page : Nat → UInt8) : Prop where
  page : onPage base m = page
  frame : ∀ a, a < base ∨ base + 4096 ≤ a → m a = m₀ a

section Draw

variable {pm : PageMap} {base : Nat} {m₀ m page : Nat → UInt8}

theorem Drawn.start (base : Nat) (m : Nat → UInt8) : Drawn base m m (onPage base m) :=
  ⟨rfl, fun _ _ => rfl⟩

/-- One store through a window. -/
theorem Drawn.update (D : Drawn base m₀ m page) (W : Window pm base) {off : Int}
    (lo : 0 ≤ off) (hi : off < 4096) (b : UInt8) :
    Drawn base m₀ (Function.update m (pm off) b) (Function.update page (flat off) b) := by
  obtain ⟨rfl, hframe⟩ := D
  rw [W off lo hi, flat]
  constructor
  · ext i
    by_cases hi' : i = off.toNat
    · subst hi'
      rw [Function.update_self, onPage, if_pos (by omega), Function.update_self]
    · rw [Function.update_of_ne hi', onPage, onPage, Function.update_of_ne (by omega)]
  · intro a ha
    rw [Function.update_of_ne (by omega)]
    exact hframe a ha

/-- One load through a window. -/
theorem Drawn.load (D : Drawn base m₀ m page) (W : Window pm base) {off : Int}
    (lo : 0 ≤ off) (hi : off < 4096) : m (pm off) = page (flat off) := by
  obtain ⟨rfl, _⟩ := D
  rw [W off lo hi, flat, onPage, if_pos (by omega)]

theorem Drawn.drawCell (D : Drawn base m₀ m page) (W : Window pm base) {x y : Int}
    (hx : 0 ≤ x ∧ x < 80) (hy : 0 ≤ y ∧ y < 25) (c : UInt8) :
    Drawn base m₀ (drawCell pm x y c m) (drawCell flat x y c page) := by
  obtain ⟨lo, hi⟩ := cell_range hx hy
  exact (D.update W lo (by omega) c).update W (by omega) (by omega) attrib

theorem Drawn.scrollCell (D : Drawn base m₀ m page) (W : Window pm base) {x y : Nat}
    (hx : x < 80) (hy : y < 25) :
    Drawn base m₀ (scrollCell pm x m y) (scrollCell flat x page y) := by
  unfold Mp3Kernel.scrollCell
  split
  next => exact D.drawCell W (by omega) (by omega) blank
  next hlast =>
    have hlast' : ¬ y = 25 - 1 := hlast
    obtain ⟨lo, hi⟩ : 0 ≤ cell x (y + 1) ∧ cell x (y + 1) + 1 < 4000 :=
      cell_range (by omega) (by omega)
    rw [D.load W lo (by omega)]
    exact D.drawCell W (by omega) (by omega) _

theorem Drawn.scrollColumn (D : Drawn base m₀ m page) (W : Window pm base) {x : Nat}
    (hx : x < 80) : Drawn base m₀ (scrollColumn pm m x) (scrollColumn flat page x) :=
  List.foldl_rel D fun _ hy _ _ D => D.scrollCell W hx (List.mem_range.mp hy)

theorem Drawn.scroll (D : Drawn base m₀ m page) (W : Window pm base) :
    Drawn base m₀ (scroll pm m) (scroll flat page) :=
  List.foldl_rel D fun _ hx _ _ D => D.scrollColumn W (List.mem_range.mp hx)

end Draw

/-- The routine through a window: on the page, on the cursor, and elsewhere. -/
theorem Pen.put_window {pm : PageMap} {base : Nat} (W : Window pm base) (c : UInt8) {s : Pen}
    (R : s.InRange) :
    Drawn base s.mem (Pen.put pm c s).mem (Pen.put flat c (s.onPage base)).mem ∧
      (Pen.put pm c s).x = (Pen.put flat c (s.onPage base)).x ∧
      (Pen.put pm c s).y = (Pen.put flat c (s.onPage base)).y := by
  obtain ⟨hx, hx', hy, hy'⟩ := R
  have D := Drawn.start base s.mem
  unfold Pen.put Pen.onPage
  dsimp only
  split_ifs with _ _ _ hhome hedge herase
  · exact ⟨D.scroll W, rfl, rfl⟩
  · exact ⟨D, rfl, rfl⟩
  · exact ⟨(D.drawCell W ⟨hx, hx'⟩ ⟨hy, hy'⟩ c).scroll W, rfl, rfl⟩
  · exact ⟨D, rfl, rfl⟩
  · -- at the left edge, but not of the first row
    simp only [Bool.and_eq_true, beq_iff_eq] at hhome hedge
    have hy₀ : s.y ≠ 0 := fun h => hhome ⟨hedge, h⟩
    exact ⟨D.drawCell W (by decide) (by omega) blank, rfl, rfl⟩
  · simp only [Bool.and_eq_true, beq_iff_eq] at hedge herase
    have hx₀ : s.x ≠ 0 := fun h => hedge ⟨herase, h⟩
    exact ⟨D.drawCell W (by omega) ⟨hy, hy'⟩ blank, rfl, rfl⟩
  · exact ⟨D.drawCell W ⟨hx, hx'⟩ ⟨hy, hy'⟩ c, rfl, rfl⟩
  · exact ⟨D.drawCell W ⟨hx, hx'⟩ ⟨hy, hy'⟩ c, rfl, rfl⟩

/-- Short of the last column, the cursor only moves along its row. -/
theorem next_column {x y : Int} (hx : 0 ≤ x ∧ x < 79) (hy : 0 ≤ y ∧ y < 25) :
    (x + 1).tmod numCols = x + 1 ∧ (y + ((x + 1).tmod numCols).tdiv numCols).tmod numRows = y := by
  have hstep : (x + 1).tmod numCols = x + 1 :=
    Int.tmod_eq_of_lt (by omega) (by show x + 1 < 80; omega)
  have hquot : (x + 1).tdiv numCols = 0 :=
    Int.tdiv_eq_zero_of_lt (by omega) (by show x + 1 < 80; omega)
  have hrow : y.tmod numRows = y := Int.tmod_eq_of_lt hy.1 hy.2
  rw [hstep, hquot, Int.add_zero]
  exact ⟨rfl, hrow⟩

/-- The cursor stays on the screen. -/
theorem Pen.InRange.put {s : Pen} (R : s.InRange) (pm : PageMap) (c : UInt8) :
    (Pen.put pm c s).InRange := by
  obtain ⟨hx, hx', hy, hy'⟩ := R
  unfold Pen.InRange Pen.put
  split_ifs with hscroll hbreak hcorner hhome hedge herase hwrap
  all_goals
    simp only [Bool.and_eq_true, beq_iff_eq, numCols, numRows] at *
  · omega
  · have hlast : s.y ≠ 24 := fun h => hscroll ⟨hbreak, h⟩
    omega
  · omega
  · omega
  · have hy₀ : s.y ≠ 0 := fun h => hhome ⟨hedge, h⟩
    omega
  · have hx₀ : s.x ≠ 0 := fun h => hedge ⟨herase, h⟩
    omega
  · have hlast : s.y ≠ 24 := fun h => hcorner ⟨hwrap, h⟩
    omega
  · have hlast : s.x ≠ 79 := hwrap
    obtain ⟨hcol, hrow⟩ := @next_column s.x s.y (by omega) (by omega)
    rw [hrow, hcol]
    omega

/-! ## Elsewhere -/

section Elsewhere

variable {pm : PageMap} {a : Nat}

theorem drawCell_elsewhere (h : ∀ off, pm off ≠ a) (x y : Int) (c : UInt8) (m : Nat → UInt8) :
    drawCell pm x y c m a = m a := by
  unfold drawCell
  rw [Function.update_of_ne (h _).symm, Function.update_of_ne (h _).symm]

/-- Loops whose every turn spares an address spare it. -/
theorem foldl_elsewhere {β : Type} {f : (Nat → UInt8) → β → Nat → UInt8}
    (h : ∀ m b, f m b a = m a) (bs : List β) (m : Nat → UInt8) : bs.foldl f m a = m a := by
  induction bs generalizing m with
  | nil => rfl
  | cons b bs ih => exact (ih (f m b)).trans (h m b)

theorem scroll_elsewhere (h : ∀ off, pm off ≠ a) (m : Nat → UInt8) : scroll pm m a = m a := by
  refine foldl_elsewhere (fun m x => foldl_elsewhere (fun m y => ?_) _ m) _ m
  unfold scrollCell
  split <;> exact drawCell_elsewhere h _ _ _ _

/-- Wherever the cursor is, the routine writes through the map and nowhere else. -/
theorem Pen.put_elsewhere (h : ∀ off, pm off ≠ a) (c : UInt8) (s : Pen) :
    (Pen.put pm c s).mem a = s.mem a := by
  unfold Pen.put
  split_ifs
  · exact scroll_elsewhere h _
  · rfl
  · exact (scroll_elsewhere h _).trans (drawCell_elsewhere h _ _ _ _)
  · rfl
  all_goals exact drawCell_elsewhere h _ _ _ _

theorem Kernel.putc_elsewhere {k : Kernel} (h : ∀ off, k.pageAt videoAddr off ≠ a) (c : UInt8) :
    (k.putc c).mem a = k.mem a :=
  Pen.put_elsewhere h c ⟨k.mem, k.con.screenX, k.con.screenY⟩

theorem Kernel.puts_elsewhere {k : Kernel} (h : ∀ off, k.pageAt videoAddr off ≠ a)
    (cs : List UInt8) : (k.puts cs).mem a = k.mem a := by
  induction cs generalizing k with
  | nil => rfl
  | cons c cs ih =>
    have hpage : (k.putc c).pageAt videoAddr = k.pageAt videoAddr := by
      unfold Kernel.pageAt
      rw [Kernel.putc_mmu]
    show ((k.putc c).puts cs).mem a = k.mem a
    rw [ih (by rwa [hpage]), Kernel.putc_elsewhere h]

theorem Kernel.printfPlain_elsewhere {k : Kernel} (h : ∀ off, k.pageAt videoAddr off ≠ a)
    (format : String) : (k.printfPlain format).mem a = k.mem a := by
  rw [Kernel.printfPlain, Kernel.puts_elsewhere h]

theorem readDentryByName_elsewhere {k : Kernel} (h : ∀ off, k.pageAt videoAddr off ≠ a)
    (img : FsImage) (filename : Buf) : (readDentryByName img filename k).1.mem a = k.mem a := by
  have hpage : ∀ v off, { k with fs := v }.pageAt videoAddr off ≠ a := fun _ => h
  unfold readDentryByName
  split
  · rw [Kernel.printfPlain_elsewhere h]
  · dsimp only
    split
    · rfl
    · dsimp only
      rw [Kernel.printfPlain_elsewhere (hpage _)]

end Elsewhere

/-! ## The screen -/

/-- The page mapped at `0xB8000`, and the cursor `putc` draws at. -/
def Kernel.screen (k : Kernel) : Pen :=
  ⟨onPage ((k.mmu.pageTable (ptIndex videoAddr)).pageBaseAddr * 4096) k.mem, k.con.screenX,
    k.con.screenY⟩

/-- `putc` on any machine draws on its screen. -/
theorem Kernel.putc_screen {r : Kernel} (R : r.screen.InRange) (c : UInt8) :
    (r.putc c).screen = Pen.put flat c r.screen := by
  let base := (r.mmu.pageTable (ptIndex videoAddr)).pageBaseAddr * 4096
  let s : Pen := ⟨r.mem, r.con.screenX, r.con.screenY⟩
  have hwindow : Window (r.pageAt videoAddr) base := Mmu.window _ (by decide) rfl
  have hpen : s.onPage base = r.screen := rfl
  have R' : s.InRange := R
  obtain ⟨hdrawn, hx, hy⟩ := Pen.put_window hwindow c R'
  rw [hpen] at hdrawn hx hy
  show Pen.mk (onPage base (Pen.put (r.pageAt videoAddr) c s).mem)
    (Pen.put (r.pageAt videoAddr) c s).x (Pen.put (r.pageAt videoAddr) c s).y = _
  rw [hdrawn.page, hx, hy]

theorem Kernel.puts_screen {r : Kernel} (R : r.screen.InRange) (cs : List UInt8) :
    (r.puts cs).screen = cs.foldl (fun s c => Pen.put flat c s) r.screen := by
  induction cs generalizing r with
  | nil => rfl
  | cons c cs ih =>
    have hput := r.putc_screen R c
    have R' : (r.putc c).screen.InRange := by
      rw [hput]
      exact R.put flat c
    show ((r.putc c).puts cs).screen = _
    rw [ih R', hput, List.foldl_cons]

/-- The physical page mapped at `0xB8000`. -/
def Kernel.screenBase (k : Kernel) : Nat :=
  (k.mmu.pageTable (ptIndex videoAddr)).pageBaseAddr * 4096

/-- With its cursor on the screen, `putc` draws on that page and on no other. -/
theorem Kernel.putc_offScreen {r : Kernel} (R : r.screen.InRange) (c : UInt8) {a : Nat}
    (off : a < r.screenBase ∨ r.screenBase + 4096 ≤ a) : (r.putc c).mem a = r.mem a := by
  let s : Pen := ⟨r.mem, r.con.screenX, r.con.screenY⟩
  have hwindow : Window (r.pageAt videoAddr) r.screenBase := Mmu.window _ (by decide) rfl
  have R' : s.InRange := R
  exact (Pen.put_window hwindow c R').1.frame a off

theorem Kernel.puts_offScreen {r : Kernel} (R : r.screen.InRange) (cs : List UInt8) {a : Nat}
    (off : a < r.screenBase ∨ r.screenBase + 4096 ≤ a) : (r.puts cs).mem a = r.mem a := by
  induction cs generalizing r with
  | nil => rfl
  | cons c cs ih =>
    have R' : (r.putc c).screen.InRange := by
      rw [r.putc_screen R c]
      exact R.put flat c
    show ((r.putc c).puts cs).mem a = r.mem a
    rw [ih R' off, r.putc_offScreen R c off]

end Mp3Kernel
